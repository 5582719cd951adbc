import ProgSistema.DirectoryServer.Isolation

/-!
# The daemon comes to rest

Once no more clients are accepted every child reaches the end of its stream,
closes its connection and ends, and the handler collects it.
-/

set_option autoImplicit false

namespace ProgSistema.DirectoryServer
open CRuntime FileTree Framing StreamSocket Socket

/-- A turn that processes a request takes it off the stream. -/
theorem turn_shrinks {σ : Type} {getDirs : Bytes → σ → Except Fault (Option Bytes × σ)} {env : σ}
    {sock sock' : Socket} {next : Bytes × σ}
    (h : Server.turn getDirs env sock = .ok (some next, sock')) :
    sock'.stream.length < sock.stream.length := by
  by_cases hframe : ∃ m tail, Admissible maxPathLength m ∧ sock.stream = frame m++tail
  · obtain ⟨m, tail, hm, hstream⟩ := hframe
    obtain ⟨sock₁, hrecv, htail, -, -⟩ :=
      receive_frame maxPathLength (by decide) sock m tail hm hstream
    have hpos : ¬ ((m.length : ℤ) ≤ 0) := by
      have := hm.1
      omega
    unfold Server.turn Server.receiveMessage at h
    simp only [hrecv, if_neg hpos] at h
    cases hanswer : Server.answer getDirs (cstr m) env with
    | error fault =>
      rw [hanswer] at h
      cases h
    | ok reply =>
      rw [hanswer, ok_bind] at h
      cases h
      have hsend := send_message_transmits sock₁ reply.1
      have hleft : (Server.sendMessage sock₁ reply.1).2.stream = tail := by
        rw [Server.sendMessage, hsend]
        exact htail
      rw [hleft, hstream, List.length_append, frame_length]
      omega
  · obtain ⟨sock₁, hturn, -, -⟩ := @turn_leaves _ getDirs sock
      (fun m tail hm heq => hframe ⟨m, tail, hm, heq⟩) env
    rw [hturn] at h
    cases h

namespace MainLoop
open Runs

def Settles : Event → Prop
  | .child _ | .deliver | .waitpid _ => True
  | _ => False

section
variable {σ : Type} {getDirs : Bytes → σ → Except Fault (Option Bytes × σ)} {heaps : ℕ → σ}
  {serverFd : ℕ}

def FewChildren (d : Daemon σ) : Prop := Set.Finite fun pid => (d.children pid).isSome = true

theorem few_update {d : Daemon σ} (h : FewChildren d) (pid : ℕ) (child : Option (Child σ)) :
    Set.Finite fun q => (Function.update d.children pid child q).isSome = true := by
  refine (h.insert pid).subset fun q hq => ?_
  by_cases hqp : q = pid
  · exact Or.inl hqp
  · refine Or.inr ?_
    have hsome : (Function.update d.children pid child q).isSome = true := hq
    rwa [Function.update_of_ne hqp] at hsome

theorem few_step (e : Event) (d d' : Daemon σ) (hf : FewChildren d)
    (h : step getDirs heaps serverFd e d = some d') : FewChildren d' := by
  cases step_cases h with
  | forks clientFd c pid hpc hfree => exact few_update hf pid _
  | enters pid child hpid hpc => exact few_update hf pid _
  | serves pid child hpid hpc =>
    have hserved : ∀ d'', Served pid child d d'' → FewChildren d'' := by
      rintro d'' (_ | _ | _) <;> exact few_update hf pid _
    exact hserved _ (serve_cases pid child)
  | exits pid child hpid hpc => exact few_update hf pid _
  | dies pid => exact few_update hf pid none
  | _ => exact hf

variable (getDirs heaps serverFd)

/-- Steps of the children and of the handler lead from one state to the other,
while `main` stays where it is. -/
def Rests (d t : Daemon σ) : Prop :=
  ReachableAlong (step getDirs heaps serverFd) (fun e _ => Settles e) d t ∧ t.pc = d.pc

variable {getDirs heaps serverFd}

theorem rests_refl (d : Daemon σ) : Rests getDirs heaps serverFd d d :=
  ⟨reachable_along_refl _ d, rfl⟩

theorem rests_trans {d t u : Daemon σ} (h : Rests getDirs heaps serverFd d t)
    (h' : Rests getDirs heaps serverFd t u) : Rests getDirs heaps serverFd d u :=
  ⟨reachable_along_trans h.1 h'.1, h'.2.trans h.2⟩

theorem rests_step {e : Event} {d t : Daemon σ} (he : Settles e) (hpc : t.pc = d.pc)
    (h : step getDirs heaps serverFd e d = some t) : Rests getDirs heaps serverFd d t :=
  ⟨reachable_along_step he h, hpc⟩

theorem rests_inv {d t : Daemon σ} (hi : Inv serverFd d) (h : Rests getDirs heaps serverFd d t) :
    Inv serverFd t :=
  reachable_along_invariant _ (Inv serverFd) hi (fun e u v hu _ hv => step_inv e u v hu hv) h.1

theorem rests_child {d : Daemon σ} {pid : ℕ} {child : Child σ} {t : Daemon σ}
    (hpid : d.children pid = some child) (hpc : t.pc = d.pc)
    (h : childStep getDirs serverFd pid child d = some t) : Rests getDirs heaps serverFd d t := by
  refine @rests_step _ getDirs heaps serverFd (.child pid) _ _ trivial hpc ?_
  rw [step, hpid]
  exact h

theorem exit_ends {d : Daemon σ} {pid : ℕ} {child : Child σ} (hpid : d.children pid = some child)
    (hpc : child.pc = .exit) :
    ∃ t, Rests getDirs heaps serverFd d t ∧ t.children = Function.update d.children pid none := by
  refine ⟨d.dies pid, rests_child hpid rfl ?_, rfl⟩
  rw [childStep, hpc]

/-- A child that has left its loop closes its connection and ends. -/
theorem left_ends {d : Daemon σ} {pid : ℕ} {child : Child σ} (hpid : d.children pid = some child)
    (hpc : child.pc = .closeClientFd) :
    ∃ t, Rests getDirs heaps serverFd d t ∧ t.children = Function.update d.children pid none := by
  have hcloses : Rests getDirs heaps serverFd d (d.setChild pid
      { child with pc := .exit, sockets := child.sockets.close child.clientFd }) := by
    refine rests_child hpid rfl ?_
    rw [childStep, hpc]
  obtain ⟨t, ht, hchildren⟩ := @exit_ends _ getDirs heaps serverFd (d.setChild pid
    { child with pc := .exit, sockets := child.sockets.close child.clientFd }) pid _
    (Function.update_self _ _ _) rfl
  exact ⟨t, rests_trans hcloses ht, hchildren.trans (Function.update_idem _ _ _)⟩

/-- The loop of a child ends with the stream, if not before. -/
theorem loop_ends (n : ℕ) {d : Daemon σ} (hi : Inv serverFd d) {pid : ℕ} {child : Child σ}
    (hpid : d.children pid = some child) (hpc : child.pc = .handleClient)
    (hn : (d.peers child.connection).stream.length < n) :
    ∃ t, Rests getDirs heaps serverFd d t ∧ t.children = Function.update d.children pid none := by
  induction n generalizing d child with
  | zero => omega
  | succ n ih =>
    have hsocket := serving_socket hi hpid hpc
    have hserve : Rests getDirs heaps serverFd d (serve getDirs pid child d) := by
      have hsame : ∀ t, Served pid child d t → t.pc = d.pc := by
        rintro t (_ | _ | _) <;> rfl
      exact rests_child hpid (hsame _ (serve_cases pid child)) (by rw [childStep, hpc])
    cases hturn : Server.turn getDirs child.env (d.peers child.connection) with
    | error fault =>
      have hdies : serve getDirs pid child d = d.dies pid := by
        unfold serve
        simp only [hsocket, hturn]
      rw [hdies] at hserve
      exact ⟨d.dies pid, hserve, rfl⟩
    | ok next =>
      obtain ⟨processed, sock⟩ := next
      cases processed with
      | none =>
        have hleaves : (serve getDirs pid child d).children =
            Function.update d.children pid (some { child with pc := .closeClientFd }) := by
          unfold serve
          simp only [hsocket, hturn]
          rfl
        obtain ⟨t, ht, hchildren⟩ := @left_ends _ getDirs heaps serverFd _ pid
          { child with pc := .closeClientFd } (by rw [hleaves, Function.update_self]) rfl
        exact ⟨t, rests_trans hserve ht, by rw [hchildren, hleaves, Function.update_idem]⟩
      | some processed =>
        obtain ⟨path, env⟩ := processed
        have hshrinks := turn_shrinks hturn
        have hchildren : (serve getDirs pid child d).children =
            Function.update d.children pid (some { child with env := env }) := by
          unfold serve
          simp only [hsocket, hturn]
          rfl
        have hpeers : (serve getDirs pid child d).peers child.connection = sock := by
          unfold serve
          simp only [hsocket, hturn, Function.update_self]
        obtain ⟨t, ht, hend⟩ := @ih _ (rests_inv hi hserve) { child with env := env }
          (by rw [hchildren, Function.update_self]) hpc (by rw [hpeers]; omega)
        exact ⟨t, rests_trans hserve ht, by rw [hend, hchildren, Function.update_idem]⟩

theorem child_ends {d : Daemon σ} (hi : Inv serverFd d) {pid : ℕ} {child : Child σ}
    (hpid : d.children pid = some child) :
    ∃ t, Rests getDirs heaps serverFd d t ∧ t.children = Function.update d.children pid none := by
  cases hpc : child.pc with
  | closeServerFd =>
    have henters : Rests getDirs heaps serverFd d (d.setChild pid
        { child with pc := .handleClient, sockets := child.sockets.close serverFd }) := by
      refine rests_child hpid rfl ?_
      rw [childStep, hpc]
    obtain ⟨t, ht, hchildren⟩ := loop_ends _ (rests_inv hi henters)
      (Function.update_self _ _ _) rfl (Nat.lt_succ_self _)
    exact ⟨t, rests_trans henters ht, hchildren.trans (Function.update_idem _ _ _)⟩
  | handleClient => exact loop_ends _ hi hpid hpc (Nat.lt_succ_self _)
  | closeClientFd => exact left_ends hpid hpc
  | exit => exact exit_ends hpid hpc

theorem children_end (pids : Finset ℕ) {d : Daemon σ} (hi : Inv serverFd d)
    (h : ∀ pid, (d.children pid).isSome = true → pid ∈ pids) :
    ∃ t, Rests getDirs heaps serverFd d t ∧ ∀ pid, t.children pid = none := by
  induction pids using Finset.induction_on generalizing d with
  | empty =>
    refine ⟨d, rests_refl d, fun pid => ?_⟩
    by_contra hne
    exact absurd (h pid (Option.ne_none_iff_isSome.mp hne)) (Finset.notMem_empty pid)
  | insert pid pids hnew ih =>
    cases hpid : d.children pid with
    | none =>
      refine ih hi fun q hq => ?_
      rcases Finset.mem_insert.mp (h q hq) with rfl | hmem
      · rw [hpid] at hq
        cases hq
      · exact hmem
    | some child =>
      obtain ⟨t, ht, hchildren⟩ := @child_ends _ getDirs heaps serverFd d hi pid child hpid
      obtain ⟨u, hu, hnone⟩ := ih (rests_inv hi ht) fun q hq => by
        rw [hchildren] at hq
        by_cases hqp : q = pid
        · subst hqp
          rw [Function.update_self] at hq
          cases hq
        · rw [Function.update_of_ne hqp] at hq
          exact (Finset.mem_insert.mp (h q hq)).resolve_left hqp
      exact ⟨u, rests_trans ht hu, hnone⟩

/-- The handler collects every zombie before it returns. -/
theorem zombies_collected (zombies : List ℕ) {d : Daemon σ} (hz : d.zombies = zombies)
    (hreaping : d.reaping = true) :
    ∃ t, Rests getDirs heaps serverFd d t ∧ t.children = d.children ∧ t.zombies = [] ∧
      t.reaping = false := by
  induction zombies generalizing d with
  | nil =>
    refine ⟨{ d with reaping := false }, @rests_step _ getDirs heaps serverFd (.waitpid none) _ _ trivial rfl ?_, rfl, hz, rfl⟩
    rw [step, if_pos hreaping, reap, if_pos hz]
  | cons pid zombies ih =>
    have hreap : Rests getDirs heaps serverFd d { d with zombies := d.zombies.erase pid } := by
      refine @rests_step _ getDirs heaps serverFd (.waitpid (some pid)) _ _ trivial rfl ?_
      rw [step, if_pos hreaping, reap, if_pos (by rw [hz]; exact List.mem_cons_self)]
    obtain ⟨t, ht, hchildren, hend, hdone⟩ := @ih { d with zombies := d.zombies.erase pid }
      (by show d.zombies.erase pid = zombies; rw [hz, List.erase_cons_head]) hreaping
    exact ⟨t, rests_trans hreap ht, hchildren, hend, hdone⟩

/-- From every reachable state in which the daemon has not ended, its children
and its handler alone lead to a state without children and zombies, where a
connection is open only while `main` has it in hand. -/
theorem comes_to_rest (getDirs : Bytes → σ → Except Fault (Option Bytes × σ)) (heaps : ℕ → σ)
    (serverFd : ℕ) (peers : ℕ → Socket) (d : Daemon σ)
    (h : Reachable (step getDirs heaps serverFd) (started serverFd peers) d)
    (hpc : d.pc ≠ .ended) :
    ∃ t, Rests getDirs heaps serverFd d t ∧ (∀ pid, t.children pid = none) ∧ t.zombies = [] ∧
      t.reaping = false ∧ ∀ c, t.Open c ↔ t.pc.Has c := by
  have hi := reachable_invariant _ (Inv serverFd) (started_inv serverFd peers) step_inv h
  have hfew : FewChildren d := by
    refine reachable_invariant _ FewChildren ?_ few_step h
    exact Set.finite_empty.subset fun pid hpid => by cases hpid
  obtain ⟨t, ht, hnone⟩ := children_end hfew.toFinset hi fun pid hpid => hfew.mem_toFinset.mpr hpid
  have hit := rests_inv hi ht
  have hopen : ∀ u : Daemon σ, Inv serverFd u → (∀ pid, u.children pid = none) →
      ∀ c, u.Open c ↔ u.pc.Has c := by
    intro u hu hchildren c
    rw [open_iff hu]
    refine or_iff_left ?_
    rintro ⟨pid, child, hpid, -⟩
    rw [hchildren pid] at hpid
    cases hpid
  have hcollect : ∀ u : Daemon σ, Rests getDirs heaps serverFd d u → u.reaping = true →
      (∀ pid, u.children pid = none) →
      ∃ t, Rests getDirs heaps serverFd d t ∧ (∀ pid, t.children pid = none) ∧ t.zombies = [] ∧
        t.reaping = false ∧ ∀ c, t.Open c ↔ t.pc.Has c := by
    intro u hu hreaping hchildren
    obtain ⟨v, hv, hsame, hz, hdone⟩ := zombies_collected u.zombies rfl hreaping
    have hall := rests_trans hu hv
    have hv' : ∀ pid, v.children pid = none := fun pid => by rw [hsame, hchildren]
    exact ⟨v, hall, hv', hz, hdone, hopen v (rests_inv hi hall) hv'⟩
  cases hreaping : t.reaping with
  | true => exact hcollect t ht hreaping hnone
  | false =>
    by_cases hz : t.zombies = []
    · exact ⟨t, ht, hnone, hz, hreaping, hopen t hit hnone⟩
    · have hended : t.pc ≠ .ended := by
        rw [ht.2]
        exact hpc
      have hsigchld : t.sigchld = true := by
        rcases hit.zombies hz hended with hs | hr
        · exact hs
        · rw [hreaping] at hr
          cases hr
      have hdeliver : Rests getDirs heaps serverFd t { t with sigchld := false, reaping := true } := by
        refine @rests_step _ getDirs heaps serverFd (.deliver) _ _ trivial rfl ?_
        rw [step, if_pos ⟨hsigchld, hreaping, hended⟩]
      exact hcollect _ (rests_trans ht hdeliver) rfl hnone

theorem two_clients_rest : ∃ t, Rests listNothing (fun _ => 0) 3 twoClientsEnd t ∧
    (∀ pid, t.children pid = none) ∧ t.zombies = [] ∧ t.reaping = false ∧
      ∀ c, t.Open c ↔ t.pc.Has c :=
  comes_to_rest listNothing (fun _ => 0) 3 twoPeers twoClientsEnd two_clients_reachable
    (by decide +kernel)

end
end MainLoop
end ProgSistema.DirectoryServer
