import ProgSistema.Lib.Semaphore
import ProgSistema.SharedArray.Conservation

/-!
# The semaphore of the array

Every operation posts the semaphore that it has taken, except for a removal
that finds the array empty. Such a removal leaves the semaphore at zero with
nobody inside, and every process waits for ever after it.
-/

set_option autoImplicit false

namespace ProgSistema.SharedArray
open CRuntime Semaphore

variable {ι : Type} {role : ι → Role}

def Pc.key (pc : Pc) : Option Unit := if pc.inside then some () else none

def SemaphoreBalanced (s : Processes ι) : Prop :=
  Balanced (fun _ : Unit => s.shared.sem) fun i => (s.procs i).key

theorem key_inside {pc : Pc} (h : pc.inside = true) : pc.key = some () := if_pos h

theorem key_outside {pc : Pc} (h : pc.inside = false) : pc.key = none := by
  rw [Pc.key, h]
  rfl

theorem balanced_initialised (shm : SharedMemory) :
    SemaphoreBalanced (initialised shm : Processes ι) := by
  refine ⟨⟨alone_of_empty fun _ => rfl, ?_, fun _ => le_rfl⟩, ?_⟩
  · intro i k hk
    cases hk
  · intro k hk
    cases hk

theorem empty_removal_stops {s : Processes ι} {i : ι} {e : Event} {pc : Pc} {k : Shared ι}
    (hi : ArrayInv s) (hpc : s.procs i = .critical .remove) (hempty : s.shared.shm.items = 0)
    (h : act role i e (s.procs i) s.shared = some (pc, k)) : pc = .stopped ∧ k = s.shared := by
  rw [hpc] at h
  rcases act_cases h with ⟨hout, -⟩ | ⟨_, hwait, -⟩ | ⟨_, hadd, -⟩ | ⟨rand, -, heq⟩ | ⟨_, hpost, -⟩
  · cases hout
  · cases hwait
  · cases hadd
  · rcases call_remove_spec hi.conserved i rand with ⟨-, hstop⟩ | ⟨hsome, -⟩
    · rw [hstop] at heq
      exact ⟨congrArg Prod.fst heq, congrArg Prod.snd heq⟩
    · exact absurd hempty hsome
  · cases hpost

variable [DecidableEq ι]

theorem value_update (old new : ℕ) :
    (fun _ : Unit => new) = Function.update (fun _ => old) () new := by
  funext u
  cases u
  rw [Function.update_self]

/-- A step that stays on one side of the semaphore and leaves it alone. -/
theorem balanced_same {s : Processes ι} (hb : SemaphoreBalanced s) (i : ι) (pc : Pc)
    (k : Shared ι) (hpc : pc.key = (s.procs i).key) (hsem : k.sem = s.shared.sem) :
    SemaphoreBalanced (⟨Function.update s.procs i pc, k⟩ : Processes ι) := by
  show Balanced (fun _ => k.sem) fun j => (Function.update s.procs i pc j).key
  rw [Sharing.keys_keep Pc.key hpc, hsem]
  exact hb

def FindsRecord (a : ι × Event) (s : Processes ι) : Prop :=
  ¬ (s.procs a.1 = .critical .remove ∧ s.shared.shm.items = 0)

theorem step_balanced (a : ι × Event) (s t : Processes ι) (hi : ArrayInv s)
    (hb : SemaphoreBalanced s) (hfinds : FindsRecord a s)
    (h : Sharing.step (act role) a s = some t) : SemaphoreBalanced t := by
  obtain ⟨pc, k, hact, rfl⟩ := Sharing.step_next _ h
  rcases act_cases hact with ⟨hout, hout', -, rfl⟩ | ⟨call, hpc, rfl, hsem, rfl⟩ |
    ⟨record, hpc, heq⟩ | ⟨rand, hpc, heq⟩ | ⟨removed, hpc, rfl, rfl⟩
  · apply balanced_same hb
    · rw [key_outside hout, key_outside hout']
    · rfl
  · show Balanced (fun _ => s.shared.sem-1) fun j => (Function.update s.procs a.1 _ j).key
    rw [Sharing.keys_update Pc.key, value_update s.shared.sem]
    exact balanced_wait hb a.1 () (by rw [hpc]; rfl) hsem
  · obtain ⟨hnext, -, -, -, hsem⟩ := call_add_spec hi.conserved record
    rw [← heq] at hnext hsem
    apply balanced_same hb
    · rw [hpc, show pc = .semPost none from hnext]
      rfl
    · exact hsem
  · rcases call_remove_spec hi.conserved a.1 rand with ⟨hempty, -⟩ |
      ⟨-, record, hnext, -, -, -, -, hsem⟩
    · exact absurd ⟨hpc, hempty⟩ hfinds
    · rw [← heq] at hnext hsem
      apply balanced_same hb
      · rw [hpc, show pc = .semPost (some record) from hnext]
        rfl
      · exact hsem
  · show Balanced (fun _ => s.shared.sem+1) fun j => (Function.update s.procs a.1 _ j).key
    have hout : (afterPost removed).key = none := by
      unfold afterPost
      split <;> rfl
    rw [Sharing.keys_update Pc.key, value_update s.shared.sem, hout]
    exact balanced_post hb a.1 () (by rw [hpc]; rfl)

theorem reachable_balanced {shm : SharedMemory} {s : Processes ι}
    (h : Runs.ReachableAlong (Sharing.step (act role)) FindsRecord (initialised shm) s) :
    ArrayInv s ∧ SemaphoreBalanced s :=
  Runs.reachable_along_invariant _ (fun s => ArrayInv s ∧ SemaphoreBalanced s)
    ⟨array_inv_initialised shm, balanced_initialised shm⟩
    (fun a s t hi hfinds h =>
      ⟨step_array_inv a s t hi.1 h, step_balanced a s t hi.1 hi.2 hfinds h⟩) h

def NoneInside (s : Processes ι) : Prop := ∀ i, (s.procs i).inside = false

/-- While no removal finds the array empty, the semaphore is one whenever
nobody is inside, and nobody waits for nothing. The first removal that does
leaves the semaphore at zero with nobody inside. -/
theorem semaphore_free_outside (role : ι → Role) (shm : SharedMemory) (s : Processes ι)
    (h : Runs.ReachableAlong (Sharing.step (act role)) FindsRecord (initialised shm) s) :
    (NoneInside s → s.shared.sem = 1) ∧
      (∀ i call, s.procs i = .semWait call → s.shared.sem = 0 → ¬ NoneInside s) ∧
      ∀ a t, ¬ FindsRecord a s → Sharing.step (act role) a s = some t →
        t.shared.sem = 0 ∧ NoneInside t := by
  obtain ⟨hi, hb⟩ := reachable_balanced h
  have hone : NoneInside s → s.shared.sem = 1 := by
    intro hnone
    by_contra hne
    have hzero : s.shared.sem = 0 := by
      have hle := hb.binary ()
      omega
    obtain ⟨i, hheld⟩ := hb.owner () hzero
    rw [key_outside (hnone i)] at hheld
    cases hheld
  refine ⟨hone, ?_, ?_⟩
  · intro i call _ hzero hnone
    rw [hone hnone] at hzero
    cases hzero
  · intro a t hempty hstep
    obtain ⟨hpc, hitems⟩ := not_not.mp hempty
    have hheld : (s.procs a.1).key = some () := by rw [hpc]; rfl
    have htaken := hb.taken a.1 () hheld
    obtain ⟨pc, k, hact, rfl⟩ := Sharing.step_next _ hstep
    obtain ⟨rfl, rfl⟩ := empty_removal_stops hi hpc hitems hact
    refine ⟨htaken, ?_⟩
    apply (Function.forall_update_iff s.procs fun _ q => q.inside = false).mpr
    refine ⟨rfl, fun j hj => ?_⟩
    by_contra hin
    exact hj (hb.alone j a.1 () (key_inside (by simpa using hin)) hheld)

instance (a : Fin 3 × Event) (s : Processes (Fin 3)) : Decidable (FindsRecord a s) :=
  inferInstanceAs (Decidable (¬ _))

theorem one_record_along : Runs.Along (Sharing.step (act threeRoles)) FindsRecord
    [addOne ⟨text "10:00:00", 5⟩, removeOne 1 9].flatten
    (initialised ⟨fun _ => ⟨[], 0⟩, 0⟩) := by
  decide +kernel

theorem one_record_run : (Runs.exec (Sharing.step (act threeRoles))
    [addOne ⟨text "10:00:00", 5⟩, removeOne 1 9].flatten
    (initialised ⟨fun _ => ⟨[], 0⟩, 0⟩)).isSome = true := by
  decide +kernel

def oneRecordEnd : Processes (Fin 3) := (Runs.exec (Sharing.step (act threeRoles))
  [addOne ⟨text "10:00:00", 5⟩, removeOne 1 9].flatten
  (initialised ⟨fun _ => ⟨[], 0⟩, 0⟩)).get one_record_run

theorem free_after_removal : oneRecordEnd.shared.sem = 1 := by
  obtain ⟨hone, -, -⟩ := semaphore_free_outside threeRoles ⟨fun _ => ⟨[], 0⟩, 0⟩ oneRecordEnd
    (Runs.reachable_along_get one_record_run one_record_along)
  apply hone
  unfold NoneInside
  decide +kernel

def earlyConsumer : List (Fin 3 × Event) :=
  [(1, .consume), (1, .wait false), (1, .work 0), (0, .produce ⟨text "10:00:00", 5⟩)]

theorem early_consumer_run : (Runs.exec (Sharing.step (act threeRoles)) earlyConsumer
    (initialised ⟨fun _ => ⟨[], 0⟩, 0⟩)).isSome = true := by
  decide +kernel

def earlyConsumerEnd : Processes (Fin 3) :=
  (Runs.exec (Sharing.step (act threeRoles)) earlyConsumer
    (initialised ⟨fun _ => ⟨[], 0⟩, 0⟩)).get early_consumer_run

/-- The producer then waits for ever, with nobody inside. -/
theorem empty_removal_blocks : ¬ ∀ s : Processes (Fin 3),
    Runs.Reachable (Sharing.step (act threeRoles)) (initialised ⟨fun _ => ⟨[], 0⟩, 0⟩) s →
      (NoneInside s → s.shared.sem = 1) ∧
        ∀ i call, s.procs i = .semWait call → s.shared.sem = 0 → ¬ NoneInside s := by
  intro h
  obtain ⟨-, hblocked⟩ := h earlyConsumerEnd (Runs.reachable_get early_consumer_run)
  have hnone : NoneInside earlyConsumerEnd := by
    unfold NoneInside
    decide +kernel
  exact hblocked 0 (.add ⟨text "10:00:00", 5⟩) (by decide +kernel) (by decide +kernel) hnone

end ProgSistema.SharedArray
