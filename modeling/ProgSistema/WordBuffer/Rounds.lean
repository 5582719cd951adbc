import ProgSistema.WordBuffer.Clients

/-!
# Rounds of a client

The two semaphores are held by the clients at certain positions. A client that
finds them free goes round its loop alone and leaves them as it found them;
the client that holds one of them alone comes to release it.
-/

set_option autoImplicit false

namespace ProgSistema.WordBuffer.Clients
open Runs Semaphore

def Pc.holdsMutex : Pc → Option Unit
  | .registerPost | .critical | .postMutex _ | .unregister => some ()
  | _ => none

def Pc.holdsTurn : Pc → Option Unit
  | .waitMutex | .critical | .postMutex _ | .postTurn _ => some ()
  | _ => none

def Pc.registered : Pc → Bool
  | .off | .registerWait | .ended => false
  | _ => true

def Pc.inLoop : Pc → Bool
  | .registerPost | .loopTest | .waitTurn | .waitMutex | .critical | .postMutex _
  | .postTurn _ => true
  | _ => false

structure Client.Knows (words : List Bytes) (id : ℕ) (c : Client) (k : Shared) : Prop where
  started : c.pc.inLoop = true → id < numProcesses ∧ words ≠ []
  waiting : c.pc = .registerWait → id < numProcesses ∧ words ≠ []
  leaving : c.pc = .postMutex true ∨ c.pc = .postTurn true → k.shutdownRequested = true

structure Inv {ι : Type} (words : List Bytes) (clientId : ι → ℕ) (s : Processes ι) : Prop where
  mutex : Balanced (fun _ => s.shared.mutexSem) fun i => (s.procs i).pc.holdsMutex
  turnSem : Balanced (fun _ => s.shared.turnSem) fun i => (s.procs i).pc.holdsTurn
  turn : s.shared.data.turn < numProcesses
  knows : ∀ i, (s.procs i).Knows words (clientId i) s.shared

structure Visited (id : ℕ) (k k' : Shared) (leave writes : Bool) : Prop where
  sems : k'.mutexSem = k.mutexSem ∧ k'.turnSem = k.turnSem
  leaves : leave = k'.shutdownRequested
  shutdown : k.shutdownRequested = true → k'.shutdownRequested = true
  skips : k.shutdownRequested = true ∨ k.data.turn ≠ id → writes = false ∧
    k'.data.turn = k.data.turn ∧ k'.shutdownRequested = k.shutdownRequested
  serves : k.shutdownRequested = false → k.data.turn = id →
    (writes = true ∧ k'.data.turn = (k.data.turn+1) % numProcesses ∧ leave = false) ∨
      (writes = false ∧ k'.data.turn = k.data.turn ∧ leave = true)

theorem critical_visited {words : List Bytes} (hwords : words ≠ []) (id rand : ℕ) (k : Shared) :
    Visited id k (criticalSection words id rand k).2.2 (criticalSection words id rand k).1
      (criticalSection words id rand k).2.1 := by
  have hword : ∃ word, getRandomWord words rand = some word := by
    have hlt : rand % words.length < words.length := Nat.mod_lt _ (List.length_pos_iff.mpr hwords)
    exact ⟨words[rand % words.length], List.getElem?_eq_getElem hlt⟩
  obtain ⟨word, hword⟩ := hword
  unfold criticalSection
  by_cases hshut : k.shutdownRequested = true
  · rw [if_pos hshut]
    exact ⟨⟨rfl, rfl⟩, hshut.symm, fun h => h, fun _ => ⟨rfl, rfl, rfl⟩,
      fun hno => absurd hshut (by simp [hno])⟩
  · rw [if_neg hshut]
    have hshut' : k.shutdownRequested = false := by simpa using hshut
    by_cases hturn : k.data.turn ≠ id
    · rw [if_pos hturn]
      exact ⟨⟨rfl, rfl⟩, hshut'.symm, fun h => h, fun _ => ⟨rfl, rfl, rfl⟩,
        fun _ heq => absurd heq hturn⟩
    · rw [if_neg hturn, hword]
      have hmine : ¬ (k.shutdownRequested = true ∨ k.data.turn ≠ id) := not_or.mpr ⟨hshut, hturn⟩
      dsimp only
      split
      · exact ⟨⟨rfl, rfl⟩, rfl, fun _ => rfl, fun h => absurd h hmine,
          fun _ _ => Or.inr ⟨rfl, rfl, rfl⟩⟩
      · refine ⟨⟨rfl, rfl⟩, hshut'.symm, fun h => h, fun h => absurd h hmine, fun _ _ => ?_⟩
        refine Or.inl ⟨rfl, ?_, rfl⟩
        unfold writeWord SharedData.passTurn
        split <;> rfl

theorem Visited.turn_lt {id : ℕ} {k k' : Shared} {leave writes : Bool}
    (h : Visited id k k' leave writes) (hturn : k.data.turn < numProcesses) :
    k'.data.turn < numProcesses := by
  by_cases hskip : k.shutdownRequested = true ∨ k.data.turn ≠ id
  · rw [(h.skips hskip).2.1]
    exact hturn
  · have hmine := not_or.mp hskip
    rcases h.serves (by simpa using hmine.1) (not_not.mp hmine.2) with ⟨-, hnext, -⟩ | ⟨-, hsame, -⟩
    · rw [hnext]
      exact Nat.mod_lt _ (by decide)
    · rw [hsame]
      exact hturn

theorem Client.Knows.mono {words : List Bytes} {id : ℕ} {c : Client} {k k' : Shared}
    (h : c.Knows words id k)
    (hshut : k.shutdownRequested = true → k'.shutdownRequested = true) : c.Knows words id k' :=
  ⟨h.started, h.waiting, fun hpc => hshut (h.leaving hpc)⟩

def Registered (e : Event) (c : Client) : Prop := e ≠ .sigint ∧ c.pc.registered = true

section Client
variable {words : List Bytes} {id rand : ℕ} {c c' : Client} {k k' : Shared}

theorem critical_sems (words : List Bytes) (id rand : ℕ) (k : Shared) :
    (criticalSection words id rand k).2.2.mutexSem = k.mutexSem ∧
      (criticalSection words id rand k).2.2.turnSem = k.turnSem := by
  unfold criticalSection
  split
  · exact ⟨rfl, rfl⟩
  · split
    · exact ⟨rfl, rfl⟩
    · split
      · exact ⟨rfl, rfl⟩
      · split
        · exact ⟨rfl, rfl⟩
        · exact ⟨rfl, rfl⟩

theorem client_mutex (h : client words id rand c k = some (c', k')) :
    Passes c.pc.holdsMutex c'.pc.holdsMutex k.mutexSem k'.mutexSem := by
  obtain ⟨pc, running, wrote⟩ := c
  cases pc with simp only [client] at h
  | off | loopTest =>
    cases h
    refine .keeps ?_ rfl
    dsimp only
    split <;> rfl
  | registerWait | waitMutex | unregisterWait =>
    split at h
    · cases h
    · rename_i hpos
      cases h
      exact .waits rfl hpos rfl rfl
  | registerPost | postMutex | unregister =>
    cases h
    exact .posts rfl rfl rfl
  | waitTurn =>
    split at h <;> cases h
    exact .keeps rfl rfl
  | critical =>
    cases h
    exact .keeps rfl (critical_sems words id rand k).1
  | postTurn leave =>
    cases h
    cases leave <;> exact .keeps rfl rfl
  | ended => cases h

theorem client_turn_sem (h : client words id rand c k = some (c', k')) :
    Passes c.pc.holdsTurn c'.pc.holdsTurn k.turnSem k'.turnSem := by
  obtain ⟨pc, running, wrote⟩ := c
  cases pc with simp only [client] at h
  | off | loopTest =>
    cases h
    refine .keeps ?_ rfl
    dsimp only
    split <;> rfl
  | registerWait | waitMutex | unregisterWait =>
    split at h <;> cases h
    exact .keeps rfl rfl
  | registerPost | postMutex | unregister =>
    cases h
    exact .keeps rfl rfl
  | waitTurn =>
    split at h
    · cases h
    · rename_i hpos
      cases h
      exact .waits rfl hpos rfl rfl
  | critical =>
    cases h
    exact .keeps rfl (critical_sems words id rand k).2
  | postTurn leave =>
    cases h
    cases leave <;> exact .posts rfl rfl rfl
  | ended => cases h

/-- Only the critical section touches the turn and asks for the shutdown. -/
theorem client_data (hk : c.Knows words id k) (h : client words id rand c k = some (c', k')) :
    (k.data.turn < numProcesses → k'.data.turn < numProcesses) ∧
      (k.shutdownRequested = true → k'.shutdownRequested = true) := by
  obtain ⟨pc, running, wrote⟩ := c
  cases pc with simp only [client] at h
  | critical =>
    have hv := critical_visited (hk.started rfl).2 id rand k
    cases h
    exact ⟨hv.turn_lt, hv.shutdown⟩
  | registerWait | waitTurn | waitMutex | unregisterWait =>
    split at h <;> cases h
    exact ⟨fun hturn => hturn, fun hshut => hshut⟩
  | ended => cases h
  | _ =>
    cases h
    exact ⟨fun hturn => hturn, fun hshut => hshut⟩

theorem client_knows (hk : c.Knows words id k) (h : client words id rand c k = some (c', k')) :
    c'.Knows words id k' := by
  obtain ⟨pc, running, wrote⟩ := c
  cases pc with simp only [client] at h
  | off =>
    cases h
    refine ⟨?_, ?_, ?_⟩ <;> dsimp only <;> split
    · exact nofun
    · exact nofun
    · exact fun _ => by assumption
    · exact nofun
    · exact nofun
    · exact nofun
  | registerWait =>
    split at h <;> cases h
    exact ⟨fun _ => hk.waiting rfl, nofun, nofun⟩
  | waitTurn | waitMutex =>
    split at h <;> cases h
    exact ⟨fun _ => hk.started rfl, nofun, nofun⟩
  | registerPost =>
    cases h
    exact ⟨fun _ => hk.started rfl, nofun, nofun⟩
  | loopTest =>
    cases h
    refine ⟨fun _ => hk.started rfl, ?_, ?_⟩ <;> dsimp only <;> split <;> exact nofun
  | critical =>
    have hv := critical_visited (hk.started rfl).2 id rand k
    cases h
    refine ⟨fun _ => hk.started rfl, nofun, fun hleave => ?_⟩
    rw [← hv.leaves]
    simpa using hleave
  | postMutex leave =>
    cases h
    refine ⟨fun _ => hk.started rfl, nofun, fun hleave => hk.leaving ?_⟩
    simpa using hleave
  | postTurn leave =>
    cases h
    refine ⟨fun _ => hk.started rfl, ?_, ?_⟩ <;> cases leave <;> exact nofun
  | unregisterWait =>
    split at h <;> cases h
    exact ⟨nofun, nofun, nofun⟩
  | unregister =>
    cases h
    exact ⟨nofun, nofun, nofun⟩
  | ended => cases h

end Client

section Step
variable {ι : Type} [DecidableEq ι] {words : List Bytes} {clientId : ι → ℕ} {s t : Processes ι}
  {i : ι} {c : Client} {k : Shared}

theorem inv_of (hi : Inv words clientId s)
    (hmutex : Balanced (fun _ => k.mutexSem)
      (Function.update (fun j => (s.procs j).pc.holdsMutex) i c.pc.holdsMutex))
    (hturnSem : Balanced (fun _ => k.turnSem)
      (Function.update (fun j => (s.procs j).pc.holdsTurn) i c.pc.holdsTurn))
    (hturn : k.data.turn < numProcesses)
    (hshut : s.shared.shutdownRequested = true → k.shutdownRequested = true)
    (hk : c.Knows words (clientId i) k) :
    Inv words clientId { procs := Function.update s.procs i c, shared := k } where
  mutex := by
    show Balanced (fun _ => k.mutexSem) fun j => (Function.update s.procs i c j).pc.holdsMutex
    rw [Sharing.keys_update fun c : Client => c.pc.holdsMutex]
    exact hmutex
  turnSem := by
    show Balanced (fun _ => k.turnSem) fun j => (Function.update s.procs i c j).pc.holdsTurn
    rw [Sharing.keys_update fun c : Client => c.pc.holdsTurn]
    exact hturnSem
  turn := hturn
  knows := (Function.forall_update_iff s.procs fun j c => c.Knows words (clientId j) k).mpr
    ⟨hk, fun j _ => (hi.knows j).mono hshut⟩

theorem client_inv {rand : ℕ} (hi : Inv words clientId s)
    (h : client words (clientId i) rand (s.procs i) s.shared = some (c, k)) :
    Inv words clientId { procs := Function.update s.procs i c, shared := k } := by
  obtain ⟨hturn, hshut⟩ := client_data (hi.knows i) h
  exact inv_of hi (balanced_passes hi.mutex (client_mutex h))
    (balanced_passes hi.turnSem (client_turn_sem h)) (hturn hi.turn) hshut
    (client_knows (hi.knows i) h)

theorem step_inv {a : ι × Event} (hi : Inv words clientId s)
    (h : Sharing.step (act words clientId) a s = some t) : Inv words clientId t := by
  obtain ⟨i, e⟩ := a
  obtain ⟨c, k, hact, rfl⟩ := Sharing.step_next _ h
  cases e with
  | run rand => exact client_inv hi hact
  | sigint =>
    dsimp only [act] at hact
    split at hact
    · cases hact
    · cases hact
      have hk := hi.knows i
      exact inv_of hi (balanced_keep hi.mutex rfl) (balanced_keep hi.turnSem rfl) hi.turn
        (fun h => h) ⟨hk.started, hk.waiting, hk.leaving⟩

theorem reachable_inv {k : Shared} (hk : ServerReady k)
    (h : Reachable (Sharing.step (act words clientId)) (noClients k) s) :
    Inv words clientId s := by
  apply reachable_invariant _ (Inv words clientId) _ (fun _ _ _ => step_inv) h
  have hsem : ∀ {value : ℕ}, value = 1 →
      Balanced (fun _ : Unit => value) (fun _ : ι => (none : Option Unit)) := by
    rintro value rfl
    refine ⟨⟨alone_of_empty fun _ => rfl, ?_, fun _ => le_rfl⟩, ?_⟩
    · intro i u hi
      cases hi
    · intro u hzero
      cases hzero
  exact ⟨hsem hk.mutexSem, hsem hk.turnSem, hk.turn, fun i => ⟨nofun, nofun, nofun⟩⟩

variable (words clientId) in
def Continues (s t : Processes ι) : Prop :=
  ReachableAlong (Sharing.step (act words clientId)) (fun a s => Registered a.2 (s.procs a.1)) s t

theorem continues_inv (hi : Inv words clientId s) (h : Continues words clientId s t) :
    Inv words clientId t :=
  reachable_along_invariant _ (Inv words clientId) hi (fun _ _ _ hi _ hstep => step_inv hi hstep) h

end Step

/-! What a client does alone. -/

section Alone
variable {ι : Type} {words : List Bytes} {clientId : ι → ℕ} {i : ι} {c : Client} {k : Shared}

structure Passed (id : ℕ) (c c' : Client) (k k' : Shared) : Prop where
  running : c'.running = c.running
  pc : c'.pc = if k'.shutdownRequested then .unregisterWait else .loopTest
  shutdown : k.shutdownRequested = true → k'.shutdownRequested = true
  skips : k.shutdownRequested = true ∨ k.data.turn ≠ id → c'.wrote = c.wrote ∧
    k'.data.turn = k.data.turn ∧ k'.shutdownRequested = k.shutdownRequested
  serves : k.shutdownRequested = false → k.data.turn = id →
    (c'.wrote = c.wrote+1 ∧ k'.data.turn = (k.data.turn+1) % numProcesses ∧
      k'.shutdownRequested = false) ∨ k'.shutdownRequested = true

variable (words clientId) in
def Goes (i : ι) (x y : Client × Shared) : Prop :=
  Sharing.Solo (act words clientId) Registered i x y

theorem goes_step {x y z : Client × Shared} (hreg : x.1.pc.registered = true)
    (h : client words (clientId i) 0 x.1 x.2 = some y) (hrest : Goes words clientId i y z) :
    Goes words clientId i x z :=
  have hok : Registered (.run 0) x.1 := ⟨by simp, hreg⟩
  Sharing.solo_step hok h hrest

theorem goes_post_turn (running : Bool) (wrote : ℕ) (leave : Bool) (k : Shared) :
    Goes words clientId i (⟨.postTurn leave, running, wrote⟩, k)
      (⟨if leave then .unregisterWait else .loopTest, running, wrote⟩,
        { k with turnSem := k.turnSem+1 }) :=
  goes_step rfl rfl .refl

theorem goes_post_mutex (running : Bool) (wrote : ℕ) (leave : Bool) (k : Shared) :
    Goes words clientId i (⟨.postMutex leave, running, wrote⟩, k)
      (⟨if leave then .unregisterWait else .loopTest, running, wrote⟩,
        { k with mutexSem := k.mutexSem+1, turnSem := k.turnSem+1 }) :=
  goes_step rfl rfl (goes_post_turn running wrote leave _)

theorem goes_critical (hwords : words ≠ []) (hpc : c.pc = .critical) :
    ∃ c' k', Goes words clientId i (c, k) (c', k') ∧ Passed (clientId i) c c' k k' ∧
      k'.mutexSem = k.mutexSem+1 ∧ k'.turnSem = k.turnSem+1 := by
  obtain ⟨pc, running, wrote⟩ := c
  cases hpc
  have hv := critical_visited hwords (clientId i) 0 k
  have hclient : client words (clientId i) 0 ⟨.critical, running, wrote⟩ k =
      some (⟨.postMutex (criticalSection words (clientId i) 0 k).1, running,
        wrote+(criticalSection words (clientId i) 0 k).2.1.toNat⟩,
        (criticalSection words (clientId i) 0 k).2.2) := rfl
  generalize criticalSection words (clientId i) 0 k = visit at hv hclient
  obtain ⟨leave, writes, k'⟩ := visit
  refine ⟨_, _, goes_step rfl hclient (goes_post_mutex running _ leave k'), ⟨rfl, ?_, ?_, ?_, ?_⟩,
    ?_, ?_⟩
  · exact congrArg (fun b => if b = true then Pc.unregisterWait else Pc.loopTest) hv.leaves
  · exact hv.shutdown
  · intro hskip
    obtain ⟨hwrites, hturn, hshut⟩ := hv.skips hskip
    exact ⟨by rw [hwrites]; rfl, hturn, hshut⟩
  · intro hshut hturn
    rcases hv.serves hshut hturn with ⟨hwrites, hnext, hleave⟩ | ⟨-, -, hleave⟩
    · exact Or.inl ⟨by rw [hwrites]; rfl, hnext, hv.leaves.symm.trans hleave⟩
    · exact Or.inr (hv.leaves.symm.trans hleave)
  · exact congrArg (·+1) hv.sems.1
  · exact congrArg (·+1) hv.sems.2

theorem goes_wait_mutex (hwords : words ≠ []) (hpc : c.pc = .waitMutex) (hmutex : k.mutexSem ≠ 0) :
    ∃ c' k', Goes words clientId i (c, k) (c', k') ∧ Passed (clientId i) c c' k k' ∧
      k'.mutexSem = k.mutexSem ∧ k'.turnSem = k.turnSem+1 := by
  obtain ⟨pc, running, wrote⟩ := c
  cases hpc
  have hclient : client words (clientId i) 0 ⟨.waitMutex, running, wrote⟩ k =
      some (⟨.critical, running, wrote⟩, { k with mutexSem := k.mutexSem-1 }) := if_neg hmutex
  have hrest : ∃ c' k', Goes words clientId i
      (⟨.critical, running, wrote⟩, { k with mutexSem := k.mutexSem-1 }) (c', k') ∧ _ :=
    goes_critical hwords rfl
  obtain ⟨c', k', hgoes, hp, hsem, hsem'⟩ := hrest
  refine ⟨c', k', goes_step rfl hclient hgoes, ⟨hp.running, hp.pc, hp.shutdown, hp.skips,
    hp.serves⟩, ?_, hsem'⟩
  rw [hsem]
  exact Nat.succ_pred_eq_of_ne_zero hmutex

theorem goes_wait_turn (hwords : words ≠ []) (hpc : c.pc = .waitTurn) (hmutex : k.mutexSem ≠ 0)
    (hturnSem : k.turnSem ≠ 0) :
    ∃ c' k', Goes words clientId i (c, k) (c', k') ∧ Passed (clientId i) c c' k k' ∧
      k'.mutexSem = k.mutexSem ∧ k'.turnSem = k.turnSem := by
  obtain ⟨pc, running, wrote⟩ := c
  cases hpc
  have hclient : client words (clientId i) 0 ⟨.waitTurn, running, wrote⟩ k =
      some (⟨.waitMutex, running, wrote⟩, { k with turnSem := k.turnSem-1 }) := if_neg hturnSem
  have hrest : ∃ c' k', Goes words clientId i
      (⟨.waitMutex, running, wrote⟩, { k with turnSem := k.turnSem-1 }) (c', k') ∧ _ :=
    goes_wait_mutex hwords rfl hmutex
  obtain ⟨c', k', hgoes, hp, hsem, hsem'⟩ := hrest
  refine ⟨c', k', goes_step rfl hclient hgoes, ⟨hp.running, hp.pc, hp.shutdown, hp.skips,
    hp.serves⟩, hsem, ?_⟩
  rw [hsem']
  exact Nat.succ_pred_eq_of_ne_zero hturnSem

theorem goes_leave (hpc : c.pc = .loopTest)
    (hstop : c.running = false ∨ k.shutdownRequested = true) :
    Goes words clientId i (c, k) ({ c with pc := .unregisterWait }, k) := by
  obtain ⟨pc, running, wrote⟩ := c
  cases hpc
  have htest : (running && !k.shutdownRequested) = false := by
    rcases hstop with hrunning | hshut
    · rw [show running = false from hrunning]
      rfl
    · rw [hshut, Bool.not_true, Bool.and_false]
  have hclient : client words (clientId i) 0 ⟨.loopTest, running, wrote⟩ k =
      some (⟨.unregisterWait, running, wrote⟩, k) := by
    simp only [client, htest]
    rfl
  exact goes_step rfl hclient .refl

/-- A client outside the critical section, with both semaphores free, goes once
round its loop, or leaves it when it has to stop. -/
theorem goes_round (hwords : words ≠ []) (hpc : c.pc = .loopTest ∨ c.pc = .waitTurn)
    (hmutex : k.mutexSem ≠ 0) (hturnSem : k.turnSem ≠ 0) :
    ∃ c' k', Goes words clientId i (c, k) (c', k') ∧
      (k'.mutexSem = k.mutexSem ∧ k'.turnSem = k.turnSem) ∧
      (Passed (clientId i) c c' k k' ∨
        (c'.pc = .unregisterWait ∧ c.pc = .loopTest) ∧
          (c.running = false ∨ k.shutdownRequested = true)) := by
  rcases hpc with hpc | hpc
  · by_cases hstop : c.running = false ∨ k.shutdownRequested = true
    · exact ⟨_, k, goes_leave hpc hstop, ⟨rfl, rfl⟩, Or.inr ⟨⟨rfl, hpc⟩, hstop⟩⟩
    · obtain ⟨hrunning, hshut⟩ := not_or.mp hstop
      obtain ⟨pc, running, wrote⟩ := c
      cases hpc
      have htest : (running && !k.shutdownRequested) = true := by
        rw [show running = true by simpa using hrunning,
          show k.shutdownRequested = false by simpa using hshut]
        rfl
      have hclient : client words (clientId i) 0 ⟨.loopTest, running, wrote⟩ k =
          some (⟨.waitTurn, running, wrote⟩, k) := by
        simp only [client, htest]
        rfl
      have hrest : ∃ c' k', Goes words clientId i (⟨.waitTurn, running, wrote⟩, k) (c', k') ∧ _ :=
        goes_wait_turn hwords rfl hmutex hturnSem
      obtain ⟨c', k', hgoes, hp, hsem, hsem'⟩ := hrest
      exact ⟨c', k', goes_step rfl hclient hgoes, ⟨hsem, hsem'⟩, Or.inl ⟨hp.running, hp.pc,
        hp.shutdown, hp.skips, hp.serves⟩⟩
  · obtain ⟨c', k', hgoes, hp, hsem, hsem'⟩ := goes_wait_turn hwords hpc hmutex hturnSem
    exact ⟨c', k', hgoes, ⟨hsem, hsem'⟩, Or.inl hp⟩

/-- The steps outside the critical section leave the text and the turn alone. -/
theorem client_outside {id rand : ℕ} {q p : Client} {k k' : Shared} (hpc : q.pc ≠ .critical)
    (h : client words id rand q k = some (p, k')) :
    k'.data = k.data ∧ k'.shutdownRequested = k.shutdownRequested := by
  obtain ⟨pc, running, wrote⟩ := q
  cases pc with
  | critical => exact absurd rfl hpc
  | ended => cases h
  | off | registerPost | loopTest | postMutex | postTurn | unregister =>
    cases h
    exact ⟨rfl, rfl⟩
  | registerWait | waitTurn | waitMutex | unregisterWait =>
    simp only [client] at h
    split at h
    · cases h
    · cases h
      exact ⟨rfl, rfl⟩

theorem client_visits {id rand : ℕ} {q p : Client} {k k' : Shared} (hwords : words ≠ [])
    (hpc : q.pc = .critical) (h : client words id rand q k = some (p, k')) :
    ∃ leave writes, Visited id k k' leave writes := by
  have hv := critical_visited hwords id rand k
  simp only [client, hpc] at h
  cases h
  exact ⟨_, _, hv⟩

theorem client_shutdown {id rand : ℕ} {q p : Client} {k k' : Shared} (hk : q.Knows words id k)
    (h : client words id rand q k = some (p, k')) (hshut : k.shutdownRequested = true) :
    k'.shutdownRequested = true := by
  by_cases hpc : q.pc = .critical
  · obtain ⟨leave, writes, hv⟩ := client_visits (hk.started (by rw [hpc]; rfl)).2 hpc h
    exact hv.shutdown hshut
  · exact (client_outside hpc h).2.trans hshut

/-- A registered client that is in its loop after a step was there before it. -/
theorem client_in_loop {id rand : ℕ} {q p : Client} {k k' : Shared}
    (hreg : q.pc.registered = true) (h : client words id rand q k = some (p, k'))
    (hloop : p.pc.inLoop = true) : q.pc.inLoop = true := by
  obtain ⟨pc, running, wrote⟩ := q
  cases pc with
  | registerPost | loopTest | waitTurn | waitMutex | critical | postMutex | postTurn => rfl
  | unregisterWait =>
    simp only [client] at h
    split at h
    · cases h
    · cases h
      cases hloop
  | unregister =>
    cases h
    cases hloop
  | off | registerWait | ended => cases hreg

end Alone

def Free {ι : Type} (s : Processes ι) : Prop := s.shared.mutexSem ≠ 0 ∧ s.shared.turnSem ≠ 0

/-- With both semaphores free, clients in their loop are at its beginning. -/
theorem free_loop {ι : Type} {words : List Bytes} {clientId : ι → ℕ} {s : Processes ι} {i : ι}
    (hi : Inv words clientId s) (hfree : Free s) (hloop : (s.procs i).pc.inLoop = true) :
    (s.procs i).pc = .loopTest ∨ (s.procs i).pc = .waitTurn := by
  have hmutex : (s.procs i).pc.holdsMutex ≠ some () := fun h =>
    hfree.1 (hi.mutex.taken i () h)
  have hturnSem : (s.procs i).pc.holdsTurn ≠ some () := fun h =>
    hfree.2 (hi.turnSem.taken i () h)
  cases hpc : (s.procs i).pc with
  | loopTest => exact Or.inl rfl
  | waitTurn => exact Or.inr rfl
  | registerPost | unregister =>
    rw [hpc] at hmutex
    exact absurd rfl hmutex
  | waitMutex | critical | postMutex | postTurn =>
    rw [hpc] at hturnSem
    exact absurd rfl hturnSem
  | off | registerWait | unregisterWait | ended =>
    rw [hpc] at hloop
    cases hloop

def Pc.entered : Pc → Bool
  | .waitMutex | .critical => true
  | _ => false

section Holder
variable {ι : Type} {words : List Bytes} {clientId : ι → ℕ} {s : Processes ι} {c : ι}

theorem entered_holds {pc : Pc} (h : pc.entered = true) : pc.holdsTurn = some () := by
  cases pc with
  | waitMutex | critical => rfl
  | _ => cases h

/-- Only one client holds the turn semaphore. -/
theorem holder_unique {h h' : ι} (hi : Inv words clientId s)
    (hholds : (s.procs h).pc.holdsTurn = some ()) (hentered : (s.procs h').pc.entered = true) :
    h' = h :=
  hi.turnSem.alone h' h () (entered_holds hentered) hholds

structure Left (q p : Client) (k k' : Shared) : Prop where
  running : p.running = q.running
  wrote : p.wrote = q.wrote
  pc : p.pc = .loopTest ∨ p.pc = .unregisterWait ∧ k'.shutdownRequested = true
  data : k'.data = k.data
  shutdown : k'.shutdownRequested = k.shutdownRequested

theorem holder_finishes {h : ι} (hi : Inv words clientId s)
    (hholds : (s.procs h).pc.holdsTurn = some ())
    (hmutex : (s.procs h).pc.holdsMutex = none → s.shared.mutexSem ≠ 0) :
    ∃ p k, Goes words clientId h (s.procs h, s.shared) (p, k) ∧
      (k.mutexSem ≠ 0 ∧ k.turnSem ≠ 0) ∧
      ((s.procs h).pc.entered = true ∧ Passed (clientId h) (s.procs h) p s.shared k ∨
        (s.procs h).pc.entered = false ∧ Left (s.procs h) p s.shared k) := by
  have hk := hi.knows h
  generalize s.procs h = q at hholds hmutex hk ⊢
  obtain ⟨pc, running, wrote⟩ := q
  cases pc with
  | waitMutex =>
    have hvisit : ∃ p k, Goes words clientId h (⟨.waitMutex, running, wrote⟩, s.shared) (p, k) ∧ _ :=
      goes_wait_mutex (hk.started rfl).2 rfl (hmutex rfl)
    obtain ⟨p, k, hgoes, hp, hsem, hsem'⟩ := hvisit
    exact ⟨p, k, hgoes, ⟨by rw [hsem]; exact hmutex rfl, by omega⟩, Or.inl ⟨rfl, hp⟩⟩
  | critical =>
    have hvisit : ∃ p k, Goes words clientId h (⟨.critical, running, wrote⟩, s.shared) (p, k) ∧ _ :=
      goes_critical (hk.started rfl).2 rfl
    obtain ⟨p, k, hgoes, hp, hsem, hsem'⟩ := hvisit
    exact ⟨p, k, hgoes, ⟨by omega, by omega⟩, Or.inl ⟨rfl, hp⟩⟩
  | postMutex leave =>
    refine ⟨_, _, goes_post_mutex running wrote leave s.shared, ⟨by simp, by simp⟩,
      Or.inr ⟨rfl, rfl, rfl, ?_, rfl, rfl⟩⟩
    cases leave with
    | false => exact Or.inl rfl
    | true => exact Or.inr ⟨rfl, hk.leaving (Or.inl rfl)⟩
  | postTurn leave =>
    refine ⟨_, _, goes_post_turn running wrote leave s.shared, ⟨hmutex rfl, by simp⟩,
      Or.inr ⟨rfl, rfl, rfl, ?_, rfl, rfl⟩⟩
    cases leave with
    | false => exact Or.inl rfl
    | true => exact Or.inr ⟨rfl, hk.leaving (Or.inr rfl)⟩
  | _ => cases hholds

/-- A client that holds the mutex only to register or to deregister releases
it, and nothing else changes. -/
theorem mutex_released {h : ι}
    (hholds : (s.procs h).pc.holdsMutex = some ()) (hout : (s.procs h).pc.holdsTurn = none) :
    ∃ p k, Goes words clientId h (s.procs h, s.shared) (p, k) ∧ k.mutexSem ≠ 0 ∧
      p.running = (s.procs h).running ∧ p.wrote = (s.procs h).wrote ∧
      p.pc.inLoop = (s.procs h).pc.inLoop ∧ p.pc.entered = (s.procs h).pc.entered ∧
      k.data = s.shared.data ∧ k.shutdownRequested = s.shared.shutdownRequested := by
  generalize s.procs h = q at hholds hout ⊢
  obtain ⟨pc, running, wrote⟩ := q
  cases pc with
  | registerPost =>
    exact ⟨_, _, goes_step rfl rfl .refl, by simp, rfl, rfl, rfl, rfl, rfl, rfl⟩
  | unregister =>
    exact ⟨_, _, goes_step rfl rfl .refl, by simp, rfl, rfl, rfl, rfl, rfl, rfl⟩
  | critical | postMutex => cases hout
  | _ => cases hholds

end Holder

theorem continues_alone {ι : Type} [DecidableEq ι] {words : List Bytes} {clientId : ι → ℕ}
    {s : Processes ι} {i : ι} {p : Client} {k : Shared}
    (h : Goes words clientId i (s.procs i, s.shared) (p, k)) :
    Continues words clientId s { procs := Function.update s.procs i p, shared := k } :=
  Sharing.solo_reachable h

end ProgSistema.WordBuffer.Clients
