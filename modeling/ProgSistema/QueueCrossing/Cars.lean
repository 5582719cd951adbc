import ProgSistema.QueueCrossing.Model

/-!
# One car at a time

A car that has taken the semaphore is alone. A program that starts while a car
is passing sets the semaphore to one again and lets the next car in, and so does
a wait that fails.
-/

set_option autoImplicit false

namespace ProgSistema.QueueCrossing
open UndoSemaphore

def Pc.ready : Pc → Bool
  | .loop | .semaphoreP | .entered | .leaving _ | .semaphoreV => true
  | _ => false

/-- No program initialises the semaphore while a car is passing, and no wait
fails. -/
def StepOk {ι : Type*} (a : ι × Action) (s : Crossing ι) : Prop :=
  (a.2 = .run → (s.procs a.1).pc = .setval true → ∀ j, (s.procs j).pc.between = false) ∧
    (a.2 = .fail → (s.procs a.1).pc ≠ .semaphoreP)

instance decidableStepOk {ι : Type*} [Fintype ι] (a : ι × Action) (s : Crossing ι) :
    Decidable (StepOk a s) :=
  inferInstanceAs (Decidable (_ ∧ _))

structure Knows {ι : Type*} (i : ι) (p : Process) (sem : Sem ι) : Prop where
  binary : p.pc.ready = true → Binary sem
  taken : p.pc.between = true → sem.semadj i = 1

def SemaphoreKnown {ι : Type*} (s : Crossing ι) : Prop := ∀ i, Knows i (s.procs i) s.shared

inductive Effect {ι : Type*} [DecidableEq ι] (i : ι) (a : Action) (p p' : Process)
    (sem : Sem ι) : Sem ι → Prop
  | none (hready : p'.pc.ready = true → p.pc.ready = true)
    (hbetween : p'.pc.between = true → p.pc.between = true) : Effect i a p p' sem sem
  | sets (ha : a = .run) (hpc : p.pc = .setval true) (hpc' : p'.pc = .loop) :
    Effect i a p p' sem (sem.setval 1)
  | waits (sem' : Sem ι) (hready : p.pc.ready = true) (hop : sem.semop i (-1) = some sem') :
    Effect i a p p' sem sem'
  | posts (sem' : Sem ι) (hpc : p.pc = .semaphoreV) (hpc' : p'.pc = .loop)
    (hop : sem.semop i 1 = some sem') : Effect i a p p' sem sem'
  | ends (hpc' : p'.pc = .ended) : Effect i a p p' sem (sem.undo i)

theorem between_ready {pc : Pc} (h : pc.between = true) : pc.ready = true := by
  cases pc <;> first | rfl | cases h

theorem known_exclusive {ι : Type*} {s : Crossing ι} (hs : SemaphoreKnown s) : AtMostOneCar s := by
  intro i j hi hj
  exact binary_alone ((hs i).binary (between_ready hi)) ((hs i).taken hi) ((hs j).taken hj)

theorem started_known {ι : Type*} (leftover : ℕ) :
    SemaphoreKnown (started leftover : Crossing ι) :=
  fun _ => ⟨(nomatch ·), (nomatch ·)⟩

section
variable {ι : Type*} [DecidableEq ι] {i j : ι} {a : Action} {p p' q : Process} {sem sem' : Sem ι}

theorem run_effect (h : act i .run p sem = some (p', sem')) : Effect i .run p p' sem sem' := by
  obtain ⟨pc, fine, loaded⟩ := p
  cases pc with
  | off | semget =>
    cases h
    exact .none (nomatch ·) (nomatch ·)
  | entered | leaving =>
    cases h
    exact .none (fun _ => rfl) fun _ => rfl
  | setval found =>
    cases found with
    | false => cases h
    | true =>
      cases h
      exact .sets rfl rfl rfl
  | loop =>
    cases h
    refine .none (fun _ => rfl) fun hbetween => ?_
    dsimp only at hbetween
    split at hbetween <;> cases hbetween
  | semaphoreP =>
    simp only [act, Option.map_eq_some_iff] at h
    obtain ⟨_, hop, heq⟩ := h
    cases heq
    exact .waits _ rfl hop
  | semaphoreV =>
    simp only [act, Option.map_eq_some_iff] at h
    obtain ⟨_, hop, heq⟩ := h
    cases heq
    exact .posts _ rfl rfl hop
  | ended => cases h

theorem act_effect (hwait : a = .fail → p.pc ≠ .semaphoreP)
    (h : act i a p sem = some (p', sem')) : Effect i a p p' sem sem' := by
  cases a with
  | run => exact run_effect h
  | fail =>
    obtain ⟨pc, fine, loaded⟩ := p
    cases pc with
    | off | semget =>
      cases h
      exact .none (nomatch ·) (nomatch ·)
    | setval =>
      cases h
      exact .ends rfl
    | semaphoreP => exact absurd rfl (hwait rfl)
    | semaphoreV =>
      cases h
      exact .none (fun _ => rfl) (nomatch ·)
    | loop | entered | leaving | ended => cases h
  | thread =>
    simp only [act] at h
    split at h
    · cases h
    · split at h <;> cases h <;> exact .none id id
  | kill =>
    simp only [act] at h
    split at h <;> cases h
    exact .ends rfl

theorem effect_self (hk : Knows i p sem) (he : Effect i a p p' sem sem') : Knows i p' sem' := by
  cases he with
  | none hready hbetween => exact ⟨fun h => hk.binary (hready h), fun h => hk.taken (hbetween h)⟩
  | sets _ _ hpc' =>
    refine ⟨fun _ => binary_setval sem, fun h => ?_⟩
    rw [hpc'] at h
    cases h
  | waits next hready hop =>
    obtain ⟨hbinary, htaken⟩ := semop_wait (hk.binary hready) hop
    exact ⟨fun _ => hbinary, fun _ => htaken⟩
  | posts next hpc hpc' hop =>
    have hbinary := hk.binary (by rw [hpc]; rfl)
    have htaken := hk.taken (by rw [hpc]; rfl)
    refine ⟨fun _ => semop_post hbinary htaken hop, fun h => ?_⟩
    rw [hpc'] at h
    cases h
  | ends hpc' =>
    constructor <;> intro h <;> rw [hpc'] at h <;> cases h

theorem effect_others (hk : Knows i p sem) (hq : Knows j q sem) (hj : j ≠ i)
    (hclear : a = .run → p.pc = .setval true → q.pc.between = false)
    (he : Effect i a p p' sem sem') : Knows j q sem' := by
  cases he with
  | none => exact hq
  | sets ha hpc =>
    refine ⟨fun _ => binary_setval sem, fun h => ?_⟩
    rw [hclear ha hpc] at h
    cases h
  | waits next _ hop =>
    refine ⟨fun h => (semop_wait (hq.binary h) hop).1, fun h => ?_⟩
    rw [semop_others hop hj]
    exact hq.taken h
  | posts next hpc _ hop =>
    have htaken := hk.taken (by rw [hpc]; rfl)
    refine ⟨fun h => semop_post (hq.binary h) htaken hop, fun h => ?_⟩
    rw [semop_others hop hj]
    exact hq.taken h
  | ends =>
    refine ⟨fun h => binary_undo (hq.binary h) i, fun h => ?_⟩
    rw [undo_others sem hj]
    exact hq.taken h

theorem step_known (a : ι × Action) (s t : Crossing ι) (hs : SemaphoreKnown s)
    (hok : StepOk a s) (h : Sharing.step act a s = some t) : SemaphoreKnown t := by
  apply Sharing.knowledge_step Knows h
  · intro p' sem' hact
    exact effect_self (hs a.1) (act_effect hok.2 hact)
  · intro p' sem' j hj hact
    exact effect_others (hs a.1) (hs j) hj (fun ha hpc => hok.1 ha hpc j) (act_effect hok.2 hact)

/-- At most one car is passing in every run without a failing wait where no
program initialises the semaphore while a car is passing. -/
theorem at_most_one_car {leftover : ℕ} {s : Crossing ι}
    (h : Runs.ReachableAlong (Sharing.step act) StepOk (started leftover) s) : AtMostOneCar s :=
  known_exclusive (Runs.reachable_along_invariant _ SemaphoreKnown (started_known leftover)
    step_known h)

end

def firstCar : List (Fin 4 × Action) :=
  [(0, .run), (0, .run), (0, .run), (0, .thread), (0, .thread), (0, .run), (0, .run)]

def secondCar : List (Fin 4 × Action) :=
  [(1, .run), (1, .run), (1, .run), (1, .thread), (1, .thread), (1, .run), (1, .run)]

theorem car_alone_after_starts : AtMostOneCar
    ((Runs.exec (Sharing.step act) ([(1, .run), (1, .run), (1, .run)]++firstCar)
      (started 7)).get (by decide +kernel)) :=
  at_most_one_car (Runs.reachable_along_get _ (by decide +kernel))

theorem late_start_two_cars :
    ¬ ∀ (leftover : ℕ) (s : Crossing (Fin 4)),
      Runs.Reachable (Sharing.step act) (started leftover) s → AtMostOneCar s := by
  intro hall
  have hone := hall 0 ((Runs.exec (Sharing.step act) (firstCar++secondCar) (started 0)).get
    (by decide +kernel)) (Runs.reachable_get _)
  exact absurd (hone 0 1 (by decide +kernel) (by decide +kernel)) (by decide)

end ProgSistema.QueueCrossing
