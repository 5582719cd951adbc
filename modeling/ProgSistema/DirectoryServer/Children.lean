import ProgSistema.DirectoryServer.MainLoop
import ProgSistema.Lib.Semaphore
import ProgSistema.Lib.Slots

/-!
# Descriptors and children of the directory server

The table of each process is fixed by where the process is: the daemon has the
connection in hand only between `accept` and `close`, and a child keeps its own
connection alone. Zombies wait for a signal that is pending or being handled.
-/

set_option autoImplicit false

namespace ProgSistema.DirectoryServer.MainLoop
open CRuntime StreamSocket Runs Semaphore

def listeningOnly (serverFd : ℕ) : Sockets :=
  Function.update (fun _ => none) serverFd (some .listening)

def mainSockets (serverFd : ℕ) : Pc → Sockets
  | .loopTest | .accept | .closeServerFd => listeningOnly serverFd
  | .fork clientFd c | .closeClientFd clientFd c =>
    Function.update (listeningOnly serverFd) clientFd (some (.connection c))
  | .ended => fun _ => none

def childSockets (serverFd clientFd c : ℕ) : ChildPc → Sockets
  | .closeServerFd => Function.update (listeningOnly serverFd) clientFd (some (.connection c))
  | .handleClient | .closeClientFd => Function.update (fun _ => none) clientFd (some (.connection c))
  | .exit => fun _ => none

theorem listening_close (serverFd : ℕ) : (listeningOnly serverFd).close serverFd = fun _ => none := by
  rw [Sockets.close, listeningOnly, Function.update_idem]
  exact Function.update_eq_self serverFd _

theorem client_close {sockets : Sockets} {fd : ℕ} (hfree : sockets fd = none) (e : Endpoint) :
    Sockets.close (Function.update sockets fd (some e)) fd = sockets := by
  rw [Sockets.close, Function.update_idem]
  exact Function.update_eq_self_iff.mpr hfree.symm

theorem listening_free {serverFd fd : ℕ} : listeningOnly serverFd fd = none ↔ fd ≠ serverFd := by
  unfold listeningOnly
  by_cases h : fd = serverFd
  · subst h
    simp
  · simp [h]

theorem listening_connection {serverFd fd c : ℕ} :
    listeningOnly serverFd fd ≠ some (.connection c) := by
  unfold listeningOnly
  by_cases h : fd = serverFd
  · subst h
    simp
  · simp [h]

section
variable {σ : Type}

inductive Effect (getDirs : Bytes → σ → Except Fault (Option Bytes × σ)) (heaps : ℕ → σ)
    (serverFd : ℕ) (d : Daemon σ) : Daemon σ → Prop where
  | flags (daemonRunning sigchld reaping : Bool) (zombies : List ℕ)
      (h : zombies ≠ [] → (d.pc = .ended ∨ sigchld = true ∨ reaping = true) ∨
        zombies = d.zombies ∧ sigchld = d.sigchld ∧ reaping = d.reaping) :
      Effect getDirs heaps serverFd d
        { d with daemonRunning := daemonRunning, sigchld := sigchld, reaping := reaping,
                 zombies := zombies }
  | moves (pc : Pc) (hpc : d.pc = .loopTest ∨ d.pc = .accept)
      (hnext : pc = .loopTest ∨ pc = .accept ∨ pc = .closeServerFd) :
      Effect getDirs heaps serverFd d { d with pc := pc }
  | accepts (clientFd : ℕ) (hpc : d.pc = .accept) (hfree : d.sockets clientFd = none) :
      Effect getDirs heaps serverFd d
        { d with
          pc := .fork clientFd d.accepted,
          sockets := Function.update d.sockets clientFd (some (.connection d.accepted)),
          accepted := d.accepted+1 }
  | forks (clientFd c pid : ℕ) (hpc : d.pc = .fork clientFd c) (hfree : d.children pid = none) :
      Effect getDirs heaps serverFd d
        { d.setChild pid (forked heaps clientFd c d) with pc := .closeClientFd clientFd c }
  | forkFails (clientFd c : ℕ) (hpc : d.pc = .fork clientFd c) :
      Effect getDirs heaps serverFd d
        { d with pc := .closeClientFd clientFd c, refused := d.refused++[c] }
  | closesClient (clientFd c : ℕ) (hpc : d.pc = .closeClientFd clientFd c) :
      Effect getDirs heaps serverFd d
        { d with pc := .loopTest, sockets := d.sockets.close clientFd }
  | closesServer (hpc : d.pc = .closeServerFd) :
      Effect getDirs heaps serverFd d { d with pc := .ended, sockets := d.sockets.close serverFd }
  | enters (pid : ℕ) (child : Child σ) (hpid : d.children pid = some child)
      (hpc : child.pc = .closeServerFd) :
      Effect getDirs heaps serverFd d (d.setChild pid
        { child with pc := .handleClient, sockets := child.sockets.close serverFd })
  | serves (pid : ℕ) (child : Child σ) (hpid : d.children pid = some child)
      (hpc : child.pc = .handleClient) :
      Effect getDirs heaps serverFd d (serve getDirs pid child d)
  | exits (pid : ℕ) (child : Child σ) (hpid : d.children pid = some child)
      (hpc : child.pc = .closeClientFd) :
      Effect getDirs heaps serverFd d (d.setChild pid
        { child with pc := .exit, sockets := child.sockets.close child.clientFd })
  | dies (pid : ℕ) : Effect getDirs heaps serverFd d (d.dies pid)

inductive Served (pid : ℕ) (child : Child σ) (d : Daemon σ) : Daemon σ → Prop where
  | dies : Served pid child d (d.dies pid)
  | leaves (peers : ℕ → Socket) : Served pid child d { d.leaves pid child with peers := peers }
  | answers (env : σ) (peers : ℕ → Socket) (requests : ℕ → List Bytes) :
      Served pid child d { d.setChild pid { child with env := env } with
                           peers := peers, requests := requests }

section
variable {getDirs : Bytes → σ → Except Fault (Option Bytes × σ)} {heaps : ℕ → σ} {serverFd : ℕ}
  {d d' : Daemon σ}

theorem serve_cases (pid : ℕ) (child : Child σ) :
    Served pid child d (serve getDirs pid child d) := by
  unfold serve
  split
  · split
    · exact .dies
    · exact .leaves _
    · exact .answers _ _ _
  · exact .leaves d.peers

theorem main_cases {e : Event} (h : mainStep heaps serverFd e d = some d') :
    Effect getDirs heaps serverFd d d' := by
  unfold mainStep at h
  split at h
  · rename_i hpc
    cases h
    refine .moves _ (Or.inl hpc) ?_
    split
    · exact Or.inr (Or.inl rfl)
    · exact Or.inr (Or.inr rfl)
  · rename_i hpc
    rw [Option.ite_none_right_eq_some, Option.some.injEq] at h
    obtain ⟨hfree, rfl⟩ := h
    exact .accepts _ hpc hfree
  · rename_i hpc
    cases h
    refine .moves _ (Or.inr hpc) ?_
    split
    · exact Or.inl rfl
    · exact Or.inr (Or.inr rfl)
  · rename_i hpc
    rw [Option.ite_none_right_eq_some, Option.some.injEq] at h
    obtain ⟨⟨hfree, -⟩, rfl⟩ := h
    exact .forks _ _ _ hpc (Option.isNone_iff_eq_none.mp hfree)
  · rename_i hpc
    cases h
    exact .forkFails _ _ hpc
  · rename_i hpc
    cases h
    exact .closesClient _ _ hpc
  · rename_i hpc
    cases h
    exact .closesServer hpc
  · cases h

theorem child_cases {pid : ℕ} {child : Child σ} (hpid : d.children pid = some child)
    (h : childStep getDirs serverFd pid child d = some d') :
    Effect getDirs heaps serverFd d d' := by
  unfold childStep at h
  split at h
  · rename_i hpc
    cases h
    exact .enters pid child hpid hpc
  · rename_i hpc
    cases h
    exact .serves pid child hpid hpc
  · rename_i hpc
    cases h
    exact .exits pid child hpid hpc
  · cases h
    exact .dies pid

theorem step_cases {e : Event} (h : step getDirs heaps serverFd e d = some d') :
    Effect getDirs heaps serverFd d d' := by
  have hmain : (if d.reaping then none else mainStep heaps serverFd e d) = some d' →
      Effect getDirs heaps serverFd d d' := by
    intro h
    rw [Option.ite_none_left_eq_some] at h
    exact main_cases h.2
  cases e with
  | terminate =>
    rw [step, Option.ite_none_left_eq_some, Option.some.injEq] at h
    obtain ⟨-, rfl⟩ := h
    exact .flags _ _ _ _ fun _ => Or.inr ⟨rfl, rfl, rfl⟩
  | deliver =>
    rw [step, Option.ite_none_right_eq_some, Option.some.injEq] at h
    obtain ⟨-, rfl⟩ := h
    exact .flags _ _ _ _ fun _ => Or.inl (Or.inr (Or.inr rfl))
  | waitpid pid =>
    rw [step, Option.ite_none_right_eq_some] at h
    obtain ⟨hreaping, h⟩ := h
    cases pid with
    | some pid =>
      rw [reap, Option.ite_none_right_eq_some, Option.some.injEq] at h
      obtain ⟨-, rfl⟩ := h
      exact .flags _ _ _ _ fun _ => Or.inl (Or.inr (Or.inr hreaping))
    | none =>
      rw [reap, Option.ite_none_right_eq_some, Option.some.injEq] at h
      obtain ⟨hnone, rfl⟩ := h
      exact .flags _ _ _ _ fun hzombies => absurd hnone hzombies
  | child pid =>
    obtain ⟨child, hpid, hstep⟩ := Option.bind_eq_some_iff.mp h
    exact child_cases hpid hstep
  | kill pid =>
    rw [step, Option.ite_none_right_eq_some, Option.some.injEq] at h
    obtain ⟨-, rfl⟩ := h
    exact .dies pid
  | test | accept clientFd | acceptFails interrupted | fork childPid | forkFails | closeClientFd
  | closeServerFd => exact hmain h

end

def Daemon.serves (d : Daemon σ) (pid : ℕ) : Option ℕ := (d.children pid).map Child.connection

theorem serves_some {d : Daemon σ} {pid c : ℕ} :
    d.serves pid = some c ↔ ∃ child, d.children pid = some child ∧ child.connection = c :=
  Option.map_eq_some_iff

def Pc.Has (pc : Pc) (c : ℕ) : Prop :=
  ∃ clientFd, pc = .fork clientFd c ∨ pc = .closeClientFd clientFd c

def Daemon.Open (d : Daemon σ) (c : ℕ) : Prop :=
  (∃ fd, d.sockets fd = some (.connection c)) ∨
    ∃ pid child fd, d.children pid = some child ∧ child.sockets fd = some (.connection c)

structure ChildInv (serverFd accepted : ℕ) (pc : Pc) (child : Child σ) : Prop where
  sockets : child.sockets = childSockets serverFd child.clientFd child.connection child.pc
  client : child.clientFd ≠ serverFd
  accepted : child.connection < accepted
  forked : ∀ clientFd, pc ≠ .fork clientFd child.connection

structure Inv (serverFd : ℕ) (d : Daemon σ) : Prop where
  sockets : d.sockets = mainSockets serverFd d.pc
  current : ∀ clientFd c, d.pc = .fork clientFd c ∨ d.pc = .closeClientFd clientFd c →
    clientFd ≠ serverFd ∧ c+1 = d.accepted
  child : ∀ pid child, d.children pid = some child → ChildInv serverFd d.accepted d.pc child
  alone : Alone d.serves
  refused : ∀ c ∈ d.refused, c < d.accepted ∧ (∀ clientFd, d.pc ≠ .fork clientFd c) ∧
    ∀ pid, d.serves pid ≠ some c
  zombies : d.zombies ≠ [] → d.pc ≠ .ended → d.sigchld = true ∨ d.reaping = true

variable {serverFd : ℕ} {d d' : Daemon σ}

theorem started_inv (serverFd : ℕ) (peers : ℕ → Socket) :
    Inv serverFd (started serverFd peers : Daemon σ) := by
  refine ⟨rfl, ?_, ?_, ?_, ?_, ?_⟩
  · rintro clientFd c (h | h) <;> cases h
  · intro pid child h
    cases h
  · intro i j k h
    cases h
  · intro c h
    cases h
  · intro h
    exact absurd rfl h

/-- The child that has been set, and the others. -/
theorem child_after {pid q : ℕ} {child' child'' : Child σ}
    (h : (d.setChild pid child').children q = some child'') :
    (q = pid ∧ child'' = child') ∨ (q ≠ pid ∧ d.children q = some child'') := by
  by_cases hqp : q = pid
  · subst hqp
    exact Or.inl ⟨rfl, by simpa [Daemon.setChild, eq_comm] using h⟩
  · exact Or.inr ⟨hqp, by simpa [Daemon.setChild, hqp] using h⟩

/-- A child that lives on is another one. -/
theorem child_alive {pid q : ℕ} {child : Child σ} (h : (d.dies pid).children q = some child) :
    d.children q = some child := by
  by_cases hqp : q = pid
  · subst hqp
    simp [Daemon.dies] at h
  · simpa [Daemon.dies, hqp] using h

theorem set_child_serves (d : Daemon σ) (pid : ℕ) (child : Child σ) :
    (d.setChild pid child).serves = Function.update d.serves pid (some child.connection) := by
  funext q
  unfold Daemon.serves Daemon.setChild
  by_cases hq : q = pid
  · subst hq
    simp
  · simp [hq]

/-- A child moves on with its connection. -/
theorem set_child_inv (hi : Inv serverFd d) {pid : ℕ} {child child' : Child σ}
    (hpid : d.children pid = some child) (hconnection : child'.connection = child.connection)
    (hclient : child'.clientFd = child.clientFd)
    (hsockets : child'.sockets = childSockets serverFd child.clientFd child.connection child'.pc) :
    Inv serverFd (d.setChild pid child') := by
  have hold := hi.child pid child hpid
  have hserves : (d.setChild pid child').serves = d.serves := by
    rw [set_child_serves, hconnection]
    refine Function.update_eq_self_iff.mpr ?_
    rw [Daemon.serves, hpid]
    rfl
  refine ⟨hi.sockets, hi.current, ?_, by rw [hserves]; exact hi.alone, ?_, hi.zombies⟩
  · intro q child'' hq
    rcases child_after hq with ⟨rfl, rfl⟩ | ⟨-, hq⟩
    · refine ⟨?_, hclient ▸ hold.client, hconnection ▸ hold.accepted, hconnection ▸ hold.forked⟩
      rw [hclient, hconnection]
      exact hsockets
    · exact hi.child q child'' hq
  · rw [hserves]
    exact hi.refused

theorem dies_serves (d : Daemon σ) (pid : ℕ) :
    (d.dies pid).serves = Function.update d.serves pid none := by
  funext q
  unfold Daemon.serves Daemon.dies
  by_cases hq : q = pid
  · subst hq
    simp
  · simp [hq]

theorem dies_inv (hi : Inv serverFd d) (pid : ℕ) : Inv serverFd (d.dies pid) := by
  refine ⟨hi.sockets, hi.current, ?_, ?_, ?_, fun _ _ => Or.inl rfl⟩
  · exact fun q child hq => hi.child q child (child_alive hq)
  · rw [dies_serves]
    exact alone_update hi.alone pid none (by simp)
  · intro c hc
    obtain ⟨haccepted, hfork, hnone⟩ := hi.refused c hc
    refine ⟨haccepted, hfork, fun q hq => ?_⟩
    rw [dies_serves] at hq
    by_cases hqp : q = pid
    · subst hqp
      simp at hq
    · rw [Function.update_of_ne hqp] at hq
      exact hnone q hq

/-- Neither the connections nor the flags of the daemon matter. -/
theorem records_inv (hi : Inv serverFd d) {daemonRunning' : Bool} {peers' : ℕ → Socket}
    {requests' : ℕ → List Bytes} {left' : List ℕ} :
    Inv serverFd { d with daemonRunning := daemonRunning', peers := peers', requests := requests',
                          left := left' } :=
  ⟨hi.sockets, hi.current, hi.child, hi.alone, hi.refused, hi.zombies⟩

theorem served_inv (hi : Inv serverFd d) {pid : ℕ} {child : Child σ}
    (hpid : d.children pid = some child) (hpc : child.pc = .handleClient)
    (h : Served pid child d d') : Inv serverFd d' := by
  have hold := (hi.child pid child hpid).sockets
  cases h with
  | dies => exact dies_inv hi pid
  | leaves peers =>
    rw [hpc] at hold
    have hset : Inv serverFd (d.setChild pid { child with pc := .closeClientFd }) :=
      set_child_inv hi hpid rfl rfl hold
    exact records_inv hset
  | answers env peers requests =>
    have hset : Inv serverFd (d.setChild pid { child with env := env }) :=
      set_child_inv hi hpid rfl rfl hold
    exact records_inv hset

/-- A child stays as it is while the daemon moves on without `fork`. -/
theorem child_kept {accepted accepted' : ℕ} {pc pc' : Pc} {child : Child σ}
    (h : ChildInv serverFd accepted pc child) (haccepted : accepted ≤ accepted')
    (hpc : ∀ clientFd c, pc' = .fork clientFd c → accepted ≤ c) :
    ChildInv serverFd accepted' pc' child := by
  refine ⟨h.sockets, h.client, h.accepted.trans_le haccepted, fun clientFd hfork => ?_⟩
  have hnew := hpc clientFd child.connection hfork
  have hold := h.accepted
  omega

/-- The daemon moves on without `fork`. -/
theorem main_moves (hi : Inv serverFd d) {pc' : Pc} {sockets' : Sockets} {accepted' : ℕ}
    {refused' : List ℕ}
    (hsockets : sockets' = mainSockets serverFd pc') (haccepted : d.accepted ≤ accepted')
    (hcurrent : ∀ clientFd c, pc' = .fork clientFd c ∨ pc' = .closeClientFd clientFd c →
      clientFd ≠ serverFd ∧ c+1 = accepted')
    (hfork : ∀ clientFd c, pc' = .fork clientFd c → d.accepted ≤ c)
    (hrefused : ∀ c ∈ refused', c < d.accepted ∧ ∀ pid, d.serves pid ≠ some c)
    (hended : d.pc = .ended → pc' = .ended) :
    Inv serverFd { d with pc := pc', sockets := sockets', accepted := accepted',
                          refused := refused' } := by
  refine ⟨hsockets, hcurrent, ?_, hi.alone, fun c hc => ?_, fun hzombies hpc => ?_⟩
  · exact fun pid child hpid => child_kept (hi.child pid child hpid) haccepted hfork
  · obtain ⟨hlt, hserves⟩ := hrefused c hc
    refine ⟨hlt.trans_le haccepted, fun clientFd heq => ?_, hserves⟩
    have hge := hfork clientFd c heq
    omega
  · exact hi.zombies hzombies fun hend => hpc (hended hend)

theorem refused_served (hi : Inv serverFd d) :
    ∀ c ∈ d.refused, c < d.accepted ∧ ∀ pid, d.serves pid ≠ some c := fun c hc =>
  ⟨(hi.refused c hc).1, (hi.refused c hc).2.2⟩

/-- The connection that `fork` is called for has no child yet. -/
theorem fork_unserved (hi : Inv serverFd d) {clientFd c : ℕ} (hpc : d.pc = .fork clientFd c)
    (pid : ℕ) : d.serves pid ≠ some c := by
  intro hserves
  obtain ⟨child, hpid, rfl⟩ := serves_some.mp hserves
  exact (hi.child pid child hpid).forked clientFd hpc

theorem fork_inv (hi : Inv serverFd d) (heaps : ℕ → σ) {clientFd c pid : ℕ}
    (hpc : d.pc = .fork clientFd c) :
    Inv serverFd { d.setChild pid (forked heaps clientFd c d) with
                   pc := .closeClientFd clientFd c } := by
  obtain ⟨hclient, haccepted⟩ := hi.current clientFd c (Or.inl hpc)
  have hsockets := hi.sockets
  rw [hpc] at hsockets
  have hserves := set_child_serves d pid (forked heaps clientFd c d)
  refine ⟨hsockets, ?_, ?_, ?_, ?_, fun hzombies _ => ?_⟩
  · rintro clientFd' c' (h | h) <;> cases h
    exact ⟨hclient, haccepted⟩
  · intro q child hq
    rcases child_after hq with ⟨-, rfl⟩ | ⟨-, hq⟩
    · refine ⟨hsockets, hclient, ?_, fun _ h => by cases h⟩
      show c < d.accepted
      omega
    · exact child_kept (hi.child q child hq) le_rfl fun _ _ h => by cases h
  · show Alone (d.setChild pid (forked heaps clientFd c d)).serves
    rw [hserves]
    apply alone_update hi.alone
    intro c' hc' q _ hq
    obtain rfl : c = c' := Option.some.inj hc'
    exact fork_unserved hi hpc q hq
  · intro c' hc'
    obtain ⟨hlt, hfork, hnone⟩ := hi.refused c' hc'
    refine ⟨hlt, fun _ => Pc.noConfusion, fun q => ?_⟩
    show (d.setChild pid (forked heaps clientFd c d)).serves q ≠ some c'
    rw [hserves]
    refine (Function.forall_update_iff d.serves fun _ held => held ≠ some c').mpr ⟨?_, ?_⟩ q
    · intro heq
      obtain rfl : c = c' := Option.some.inj heq
      exact hfork clientFd hpc
    · exact fun q _ => hnone q
  · exact hi.zombies hzombies (by rw [hpc]; exact Pc.noConfusion)

theorem step_inv {getDirs : Bytes → σ → Except Fault (Option Bytes × σ)} {heaps : ℕ → σ}
    (e : Event) (d d' : Daemon σ) (hi : Inv serverFd d)
    (h : step getDirs heaps serverFd e d = some d') : Inv serverFd d' := by
  have hsockets := hi.sockets
  cases step_cases h with
  | flags daemonRunning sigchld reaping zombies hflags =>
    refine ⟨hi.sockets, hi.current, hi.child, hi.alone, hi.refused, fun hzombies hpc => ?_⟩
    rcases hflags hzombies with (hend | hflag) | ⟨rfl, rfl, rfl⟩
    · exact absurd hend hpc
    · exact hflag
    · exact hi.zombies hzombies hpc
  | moves pc hpc hnext =>
    refine main_moves hi ?_ le_rfl ?_ ?_ (refused_served hi) ?_
    · rw [hsockets]
      rcases hpc with hpc | hpc <;> rcases hnext with rfl | rfl | rfl <;> rw [hpc] <;> rfl
    · rintro clientFd c (rfl | rfl) <;> simp at hnext
    · rintro clientFd c rfl
      simp at hnext
    · intro hend
      rcases hpc with hpc | hpc <;> cases hpc.symm.trans hend
  | accepts clientFd hpc hfree =>
    rw [hpc] at hsockets
    refine main_moves hi (by rw [hsockets]; rfl) (Nat.le_succ _) ?_ ?_ (refused_served hi)
      (by simp [hpc])
    · rintro clientFd' c (hnext | hnext) <;> cases hnext
      rw [hsockets] at hfree
      exact ⟨listening_free.mp hfree, rfl⟩
    · intro clientFd' c hnext
      cases hnext
      exact le_rfl
  | forks clientFd c pid hpc hfree => exact fork_inv hi heaps hpc
  | forkFails clientFd c hpc =>
    rw [hpc] at hsockets
    obtain ⟨hclient, haccepted⟩ := hi.current clientFd c (Or.inl hpc)
    refine main_moves hi hsockets le_rfl ?_ (fun _ _ h => by cases h) ?_ (by simp [hpc])
    · rintro clientFd' c' (hnext | hnext) <;> cases hnext
      exact ⟨hclient, haccepted⟩
    · intro c' hc'
      rcases List.mem_append.mp hc' with hold | hnew
      · exact refused_served hi c' hold
      · obtain rfl := List.mem_singleton.mp hnew
        exact ⟨by omega, fork_unserved hi hpc⟩
  | closesClient clientFd c hpc =>
    rw [hpc] at hsockets
    obtain ⟨hclient, -⟩ := hi.current clientFd c (Or.inr hpc)
    refine main_moves hi ?_ le_rfl ?_ (fun _ _ h => by cases h) (refused_served hi) (by simp [hpc])
    · rw [hsockets]
      exact client_close (listening_free.mpr hclient) _
    · rintro clientFd' c' (hnext | hnext) <;> cases hnext
  | closesServer hpc =>
    rw [hpc] at hsockets
    refine main_moves hi ?_ le_rfl ?_ (fun _ _ h => by cases h) (refused_served hi) fun _ => rfl
    · rw [hsockets]
      exact listening_close serverFd
    · rintro clientFd' c' (hnext | hnext) <;> cases hnext
  | enters pid child hpid hpc =>
    have hold := hi.child pid child hpid
    refine set_child_inv hi hpid rfl rfl ?_
    rw [hold.sockets, hpc, childSockets, childSockets, Sockets.close,
      Function.update_comm hold.client]
    exact congrArg (Function.update · _ _) (listening_close serverFd)
  | serves pid child hpid hpc => exact served_inv hi hpid hpc (serve_cases pid child)
  | exits pid child hpid hpc =>
    refine set_child_inv hi hpid rfl rfl ?_
    rw [(hi.child pid child hpid).sockets, hpc]
    exact client_close rfl _
  | dies pid => exact dies_inv hi pid

theorem close_some {sockets : Sockets} {fd fd' : ℕ} {e : Endpoint}
    (h : sockets.close fd fd' = some e) : sockets fd' = some e := by
  unfold Sockets.close at h
  by_cases heq : fd' = fd
  · subst heq
    simp at h
  · rwa [Function.update_of_ne heq] at h

theorem open_set_child {pid c : ℕ} {child child' : Child σ} (hpid : d.children pid = some child)
    (hless : ∀ fd e, child'.sockets fd = some e → child.sockets fd = some e)
    (h : (d.setChild pid child').Open c) : d.Open c := by
  rcases h with hmain | ⟨q, child'', fd, hq, hfd⟩
  · exact Or.inl hmain
  · rcases child_after hq with ⟨rfl, rfl⟩ | ⟨-, hq⟩
    · exact Or.inr ⟨q, child, fd, hpid, hless fd _ hfd⟩
    · exact Or.inr ⟨q, child'', fd, hq, hfd⟩

theorem open_dies {pid c : ℕ} (h : (d.dies pid).Open c) : d.Open c := by
  rcases h with hmain | ⟨q, child, fd, hq, hfd⟩
  · exact Or.inl hmain
  · exact Or.inr ⟨q, child, fd, child_alive hq, hfd⟩

theorem open_served {pid c : ℕ} {child : Child σ} (hpid : d.children pid = some child)
    (h : Served pid child d d') (hopen : d'.Open c) : d.Open c := by
  cases h with
  | dies => exact open_dies hopen
  | leaves peers =>
    have hset : (d.setChild pid { child with pc := .closeClientFd }).Open c := hopen
    refine open_set_child hpid ?_ hset
    exact fun _ _ => id
  | answers env peers requests =>
    have hset : (d.setChild pid { child with env := env }).Open c := hopen
    refine open_set_child hpid ?_ hset
    exact fun _ _ => id

/-- No step opens a connection that had been accepted before. -/
theorem open_step {getDirs : Bytes → σ → Except Fault (Option Bytes × σ)} {heaps : ℕ → σ}
    {e : Event} {c : ℕ} (hc : c < d.accepted) (h : step getDirs heaps serverFd e d = some d')
    (hopen : d'.Open c) : d.Open c := by
  cases step_cases h with
  | flags daemonRunning sigchld reaping zombies hflags => exact hopen
  | moves pc hpc hnext => exact hopen
  | accepts clientFd hpc hfree =>
    rcases hopen with ⟨fd, hfd⟩ | hchild
    · rcases Slots.put_some.mp hfd with ⟨-, heq⟩ | ⟨-, hold⟩
      · cases heq
        exact absurd hc (lt_irrefl _)
      · exact Or.inl ⟨fd, hold⟩
    · exact Or.inr hchild
  | forks clientFd c' pid hpc hfree =>
    rcases hopen with hmain | ⟨q, child, fd, hq, hfd⟩
    · exact Or.inl hmain
    · rcases child_after hq with ⟨-, rfl⟩ | ⟨-, hq⟩
      · exact Or.inl ⟨fd, hfd⟩
      · exact Or.inr ⟨q, child, fd, hq, hfd⟩
  | forkFails clientFd c' hpc => exact hopen
  | closesClient clientFd c' hpc =>
    exact hopen.imp (fun ⟨fd, hfd⟩ => ⟨fd, close_some hfd⟩) id
  | closesServer hpc => exact hopen.imp (fun ⟨fd, hfd⟩ => ⟨fd, close_some hfd⟩) id
  | enters pid child hpid hpc => exact open_set_child hpid (fun _ _ => close_some) hopen
  | serves pid child hpid hpc => exact open_served hpid (serve_cases pid child) hopen
  | exits pid child hpid hpc => exact open_set_child hpid (fun _ _ => close_some) hopen
  | dies pid => exact open_dies hopen

theorem accepted_step {getDirs : Bytes → σ → Except Fault (Option Bytes × σ)} {heaps : ℕ → σ}
    {e : Event} (h : step getDirs heaps serverFd e d = some d') : d.accepted ≤ d'.accepted := by
  cases step_cases h with
  | accepts clientFd hpc hfree => exact Nat.le_succ _
  | serves pid child hpid hpc =>
    have hsame : ∀ d'', Served pid child d d'' → d''.accepted = d.accepted := by
      rintro d'' (_ | _ | _) <;> rfl
    exact (hsame _ (serve_cases pid child)).ge
  | _ => exact le_rfl

/-- A child has its connection and nothing else behind its own `close`. -/
theorem child_holds {child : Child σ} {accepted : ℕ} {pc : Pc}
    (h : ChildInv serverFd accepted pc child) {fd : ℕ} {e : Endpoint}
    (hfd : child.sockets fd = some e) :
    child.pc ≠ .exit ∧ (child.pc ≠ .closeServerFd → e ≠ .listening) ∧
      ∀ c, e = .connection c → fd = child.clientFd ∧ c = child.connection := by
  rw [h.sockets] at hfd
  cases hpc : child.pc with
  | closeServerFd =>
    rw [hpc] at hfd
    refine ⟨ChildPc.noConfusion, fun hne => absurd rfl hne, ?_⟩
    rintro c rfl
    rcases Slots.put_some.mp hfd with ⟨heq, hc⟩ | ⟨-, hold⟩
    · cases hc
      exact ⟨heq, rfl⟩
    · exact absurd hold listening_connection
  | handleClient | closeClientFd =>
    rw [hpc, childSockets] at hfd
    rcases Slots.put_some.mp hfd with ⟨heq, hc⟩ | ⟨-, hold⟩
    · subst hc
      refine ⟨ChildPc.noConfusion, fun _ => Endpoint.noConfusion, ?_⟩
      rintro c hc
      cases hc
      exact ⟨heq, rfl⟩
    · cases hold
  | exit =>
    rw [hpc] at hfd
    cases hfd

/-- A connection is open while the daemon has it in hand or the child that was
forked for it has not closed it. -/
theorem open_iff (hi : Inv serverFd d) (c : ℕ) :
    d.Open c ↔ d.pc.Has c ∨ ∃ pid child, d.children pid = some child ∧ child.connection = c ∧
      child.pc ≠ .exit := by
  constructor
  · rintro (⟨fd, hfd⟩ | ⟨pid, child, fd, hpid, hfd⟩)
    · rw [hi.sockets] at hfd
      have hput : ∀ clientFd c', Function.update (listeningOnly serverFd) clientFd
          (some (Endpoint.connection c')) fd = some (.connection c) → c' = c := by
        intro clientFd c' hput
        rcases Slots.put_some.mp hput with ⟨-, heq⟩ | ⟨-, hold⟩
        · cases heq
          rfl
        · exact absurd hold listening_connection
      cases hpc : d.pc with
      | loopTest | accept | closeServerFd =>
        rw [hpc] at hfd
        exact absurd hfd listening_connection
      | fork clientFd c' =>
        rw [hpc] at hfd
        obtain rfl := hput clientFd c' hfd
        exact Or.inl ⟨clientFd, Or.inl rfl⟩
      | closeClientFd clientFd c' =>
        rw [hpc] at hfd
        obtain rfl := hput clientFd c' hfd
        exact Or.inl ⟨clientFd, Or.inr rfl⟩
      | ended =>
        rw [hpc] at hfd
        cases hfd
    · obtain ⟨hexit, -, hown⟩ := child_holds (hi.child pid child hpid) hfd
      exact Or.inr ⟨pid, child, hpid, (hown c rfl).2.symm, hexit⟩
  · rintro (⟨clientFd, hpc⟩ | ⟨pid, child, hpid, rfl, hexit⟩)
    · refine Or.inl ⟨clientFd, ?_⟩
      rw [hi.sockets]
      rcases hpc with hpc | hpc <;> rw [hpc] <;> exact Function.update_self _ _ _
    · refine Or.inr ⟨pid, child, child.clientFd, hpid, ?_⟩
      rw [(hi.child pid child hpid).sockets]
      cases hpc : child.pc with
      | closeServerFd | handleClient | closeClientFd =>
        rw [childSockets]
        exact Function.update_self _ _ _
      | exit => exact absurd hpc hexit

/-- In every reachable state the daemon waits for connections with its
listening socket alone, a child has only the connection it was forked for and
no two children the same one, a connection that nobody has open any more is
never opened again, and zombies wait only until the signal has been handled. -/
theorem descriptors_kept (getDirs : Bytes → σ → Except Fault (Option Bytes × σ)) (heaps : ℕ → σ)
    (serverFd : ℕ) (peers : ℕ → Socket) (d : Daemon σ)
    (h : Reachable (step getDirs heaps serverFd) (started serverFd peers) d) :
    (d.pc = .loopTest ∨ d.pc = .accept →
      ∀ fd e, d.sockets fd = some e ↔ fd = serverFd ∧ e = .listening) ∧
    (∀ pid child, d.children pid = some child → ∀ fd e, child.sockets fd = some e →
      (child.pc ≠ .closeServerFd → e ≠ .listening) ∧
        ∀ c, e = .connection c → fd = child.clientFd ∧ c = child.connection) ∧
    (∀ pid pid' child child' fd fd' c, d.children pid = some child →
      d.children pid' = some child' → child.sockets fd = some (.connection c) →
        child'.sockets fd' = some (.connection c) → pid = pid' ∧ fd = fd') ∧
    (∀ c ∈ d.refused, ∀ pid, d.serves pid ≠ some c) ∧
    (∀ c < d.accepted, ¬ d.Open c → ∀ es t, exec (step getDirs heaps serverFd) es d = some t →
      ¬ t.Open c) ∧
    (d.pc ≠ .ended → d.sigchld = false → d.reaping = false → d.zombies = []) := by
  have hi := reachable_invariant _ (Inv serverFd) (started_inv serverFd peers) step_inv h
  refine ⟨fun hpc fd e => ?_, fun pid child hpid fd e hfd => ?_, ?_, ?_, ?_, ?_⟩
  · have hsockets : d.sockets = listeningOnly serverFd := by
      rw [hi.sockets]
      rcases hpc with hpc | hpc <;> rw [hpc] <;> rfl
    rw [hsockets, listeningOnly]
    constructor
    · intro hfd
      rcases Slots.put_some.mp hfd with ⟨heq, he⟩ | ⟨-, hold⟩
      · exact ⟨heq, he.symm⟩
      · cases hold
    · rintro ⟨rfl, rfl⟩
      exact Function.update_self _ _ _
  · exact (child_holds (hi.child pid child hpid) hfd).2
  · intro pid pid' child child' fd fd' c hpid hpid' hfd hfd'
    obtain ⟨hfdeq, hc⟩ := (child_holds (hi.child pid child hpid) hfd).2.2 c rfl
    obtain ⟨hfdeq', hc'⟩ := (child_holds (hi.child pid' child' hpid') hfd').2.2 c rfl
    obtain rfl := hi.alone pid pid' c (serves_some.mpr ⟨child, hpid, hc.symm⟩)
      (serves_some.mpr ⟨child', hpid', hc'.symm⟩)
    obtain rfl := Option.some.inj (hpid.symm.trans hpid')
    exact ⟨rfl, hfdeq.trans hfdeq'.symm⟩
  · exact fun c hc => (hi.refused c hc).2.2
  · intro c hc hclosed es t ht
    refine (exec_preserves _ (fun t => c < t.accepted ∧ ¬ t.Open c) ?_ es d t ⟨hc, hclosed⟩ ht).2
    rintro e u v ⟨hu, hnot⟩ hstep
    exact ⟨hu.trans_le (accepted_step hstep), fun hopen => hnot (open_step hu hstep hopen)⟩
  · intro hpc hsigchld hreaping
    by_contra hne
    rcases hi.zombies hne hpc with h | h
    · rw [hsigchld] at h
      cases h
    · rw [hreaping] at h
      cases h

/-! Two clients at the same time. The first one asks for the root directory, the
second one is cut off when its child is killed. -/

def listNothing (_ : Bytes) (n : ℕ) : Except Fault (Option Bytes × ℕ) := .ok (some [], n+1)

def twoPeers (c : ℕ) : Socket :=
  if c = 0 then ⟨[[0, 0], [0, 1, 47]], false, fun _ => .full, []⟩ else ⟨[], false, fun _ => .full, []⟩

def twoClients : List Event :=
  [.test, .accept 4, .fork 10, .closeClientFd, .test, .accept 4, .child 10, .fork 11, .child 10,
    .closeClientFd, .child 11, .child 10, .child 10, .child 10, .deliver, .kill 11, .waitpid (some 11),
    .waitpid (some 10), .waitpid none, .test]

theorem two_clients_run : (exec (step listNothing (fun _ => 0) 3) twoClients
    (started 3 twoPeers)).isSome = true := by
  decide +kernel

def twoClientsEnd : Daemon ℕ :=
  (exec (step listNothing (fun _ => 0) 3) twoClients (started 3 twoPeers)).get two_clients_run

theorem two_clients_reachable :
    Reachable (step listNothing (fun _ => 0) 3) (started 3 twoPeers) twoClientsEnd :=
  reachable_get two_clients_run

theorem two_clients_kept : twoClientsEnd.sockets 3 = some .listening :=
  ((descriptors_kept listNothing (fun _ => 0) 3 twoPeers twoClientsEnd two_clients_reachable).1
    (by decide +kernel) 3 .listening).mpr ⟨rfl, rfl⟩

end
end ProgSistema.DirectoryServer.MainLoop
