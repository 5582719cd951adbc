import ProgSistema.Benchmark.Starts

/-!
# The joins of the benchmark

While every worker finds its scenario running before the scenario is stopped,
some thread can always go on towards the end, and every join of `main` can
complete. A worker that misses the start makes `main` wait for ever.
-/

set_option autoImplicit false

namespace ProgSistema.Benchmark

def Cleared (k : Scenario) (s : State) : Prop := k.base+9 ≤ s.measurement.position

def WaitsForEver (w : Worker) (s : State) : Prop :=
  ∀ t, Runs.Reachable step s t → (t.worker w).passed = false

structure NoHang (s : State) : Prop where
  waiting : ∀ w, Cleared w.scenario s → s.worker w ≠ .waiting
  forEver : ∀ w, Cleared w.scenario s → ¬ WaitsForEver w s
  joins : ∃ t, Runs.Reachable step s t ∧ t.main = .ended

def WorkerPc.rank : WorkerPc → ℕ
  | ended => 0
  | unlockFinal => 1
  | updateFinal _ => 2
  | lockFinal _ => 3
  | testRunning _ => 4
  | unlockUpdate => 5
  | update _ => 6
  | lockUpdate _ => 7
  | multiply _ => 8
  | unlockStart => 9
  | waiting => 9
  | testStart => 10
  | woken => 11
  | lockStart => 11
  | absent => 12

def State.workerRank (s : State) : ℕ := ∑ w, (s.worker w).rank

/-- A broadcast sends four workers back by at most two steps each. -/
def State.rank (s : State) : ℕ :=
  9*(26-s.measurement.position)+(12-s.main.position)+s.workerRank

def WorkerPc.advances (running : Bool) : WorkerPc → Bool
  | absent | waiting | ended => false
  | testRunning _ => !running
  | _ => true

def WorkerPc.locks : WorkerPc → Bool
  | lockStart | woken | lockUpdate _ | lockFinal _ => true
  | _ => false

theorem next_rank {running : Bool} {pc : WorkerPc} (h : pc.advances running = true) :
    (pc.next running).rank < pc.rank := by
  cases pc with
  | absent | waiting | ended => cases h
  | multiply n =>
    rw [WorkerPc.next]
    split <;> simp [WorkerPc.rank]
  | testRunning n =>
    rw [WorkerPc.next]
    split
    · rename_i hrunning
      rw [hrunning] at h
      cases h
    · split <;> simp [WorkerPc.rank]
  | _ => cases running <;> simp [WorkerPc.next, WorkerPc.rank]

theorem worker_runs {w : Worker} {s : State} (ha : (s.worker w).advances (s.running w.scenario))
    (hfree : (s.worker w).locks = true → s.mutex = none) :
    ∃ t, workerThread w s = some t := by
  unfold workerThread
  cases hpc : s.worker w with (rw [hpc] at ha hfree; dsimp only)
  | absent | waiting | ended => cases ha
  | lockStart | woken | lockUpdate n | lockFinal n =>
    rw [State.lock, if_pos (hfree rfl)]
    exact ⟨_, rfl⟩
  | _ => exact ⟨_, rfl⟩

theorem worker_rank {w : Worker} {s t : State}
    (ha : (s.worker w).advances (s.running w.scenario)) (h : workerThread w s = some t) :
    t.rank < s.rank := by
  have hstep := worker_step h
  have hlt : t.workerRank < s.workerRank := by
    apply Finset.sum_lt_sum
    · intro v _
      rw [hstep.worker]
      by_cases hv : v = w
      · rw [hv, Function.update_self]
        exact (next_rank ha).le
      · rw [Function.update_of_ne hv]
    · refine ⟨w, Finset.mem_univ w, ?_⟩
      rw [hstep.worker, Function.update_self]
      exact next_rank ha
  unfold State.rank
  rw [hstep.measurement, hstep.main]
  omega

theorem signalled_rank (pc : WorkerPc) : (signalled pc).rank ≤ pc.rank+2 := by
  cases pc <;> simp [signalled, WorkerPc.rank]

theorem measurement_rank {s t : State} (h : measurementThread s = some t) : t.rank < s.rank := by
  have hstep := measurement_step h
  have hworkers : t.workerRank ≤ s.workerRank+8 := by
    have hsum : t.workerRank ≤ ∑ w, ((s.worker w).rank+2) := by
      apply Finset.sum_le_sum
      intro w _
      rcases measurement_worker hstep w with hsame | hwoken
      · rw [hsame]
        exact Nat.le_add_right _ _
      · rw [hwoken]
        exact signalled_rank _
    rw [Finset.sum_add_distrib] at hsum
    exact hsum
  have hpos := hstep.position
  have hlast := position_le t.measurement
  unfold State.rank
  rw [hstep.main]
  omega

theorem main_rank {s t : State} (hi : PhaseInv s) (h : mainThread s = some t) :
    t.rank < s.rank := by
  have hbounded := main_position_le (main_phase_inv hi h).bounded
  unfold State.rank
  cases main_step hi.bounded h with
  | measurement hpc ht =>
    rw [ht, hi.created.mpr hpc, hpc]
    show 9*(26-1)+(12-1)+s.workerRank < 9*(26-0)+(12-0)+s.workerRank
    omega
  | worker w pc hbirth hnext _ ht =>
    have hworkers : t.workerRank ≤ s.workerRank := by
      rw [ht]
      apply Finset.sum_le_sum
      intro v _
      show (Function.update s.worker w .lockStart v).rank ≤ _
      by_cases hv : v = w
      · rw [hv, Function.update_self, (hi.born w).mpr hbirth.le]
        decide
      · rw [Function.update_of_ne hv]
    have hmeasurement : t.measurement = s.measurement := by rw [ht]; rfl
    have hmain : t.main.position = s.main.position+1 := by
      rw [ht, hbirth]
      exact hnext
    rw [hmeasurement]
    omega
  | goesOn pc hpos hnext _ hbirth hjoin hended ht =>
    have hmain : t.main.position = s.main.position+1 := by
      rw [ht]
      exact hnext
    have hworkers : t.workerRank = s.workerRank := by rw [ht]; rfl
    have hmeasurement : t.measurement = s.measurement := by rw [ht]; rfl
    rw [hmeasurement, hworkers]
    omega

theorem measurement_runs {s : State} (habsent : s.measurement ≠ .absent)
    (hended : s.measurement ≠ .ended) (hfree : s.measurement.inside = false → s.mutex = none) :
    ∃ t, measurementThread s = some t := by
  unfold measurementThread
  cases hpc : s.measurement with rw [hpc] at hfree
  | absent => exact absurd hpc habsent
  | ended => exact absurd hpc hended
  | lockReset k | lockStop k =>
    dsimp only
    rw [State.lock, if_pos (hfree rfl)]
    exact ⟨_, rfl⟩
  | printThroughput k => cases k <;> exact ⟨_, rfl⟩
  | _ => exact ⟨_, rfl⟩

/-- `main` waits only for a thread that has not ended. -/
theorem main_runs {s : State} (hmain : s.main ≠ .ended)
    (hworkers : ∀ w, s.main.position = w.join → s.worker w = .ended)
    (hmeasurement : s.main = .joinMeasurement → s.measurement = .ended) :
    ∃ t, mainThread s = some t := by
  unfold mainThread
  cases hpc : s.main with rw [hpc] at hworkers
  | createMeasurement | createSingle => exact ⟨_, rfl⟩
  | joinSingle =>
    dsimp only
    rw [if_pos (hworkers .single rfl)]
    exact ⟨_, rfl⟩
  | createMulti i =>
    dsimp only
    split <;> exact ⟨_, rfl⟩
  | joinMulti i =>
    dsimp only
    split
    · rename_i hi
      rw [if_pos (hworkers (.multi ⟨i, hi⟩) rfl)]
      exact ⟨_, rfl⟩
    · exact ⟨_, rfl⟩
  | joinMeasurement =>
    dsimp only
    rw [if_pos (hmeasurement hpc)]
    exact ⟨_, rfl⟩
  | ended => exact absurd hpc hmain

def Leads (s t : State) : Prop :=
  ∃ a, StopsLate a s ∧ step a s = some t ∧ t.rank < s.rank

theorem worker_leads {s : State} {w : Worker}
    (ha : (s.worker w).advances (s.running w.scenario))
    (hfree : (s.worker w).locks = true → s.mutex = none) : ∃ t, Leads s t := by
  obtain ⟨t, ht⟩ := worker_runs ha hfree
  exact ⟨t, .run (.worker w), nofun, ht, worker_rank ha ht⟩

theorem measurement_leads {s : State} (habsent : s.measurement ≠ .absent)
    (hended : s.measurement ≠ .ended) (hfree : s.measurement.inside = false → s.mutex = none)
    (hlate : StopsLate (.run .measurement) s) : ∃ t, Leads s t := by
  obtain ⟨t, ht⟩ := measurement_runs habsent hended hfree
  exact ⟨t, .run .measurement, hlate, ht, measurement_rank ht⟩

theorem main_leads {s : State} (hi : PhaseInv s) (hmain : s.main ≠ .ended)
    (hworkers : ∀ w, s.main.position = w.join → s.worker w = .ended)
    (hmeasurement : s.main = .joinMeasurement → s.measurement = .ended) : ∃ t, Leads s t := by
  obtain ⟨t, ht⟩ := main_runs hmain hworkers hmeasurement
  exact ⟨t, .run .main, nofun, ht, main_rank hi ht⟩

/-- The owner of the mutex can go on. -/
theorem owner_leads {s : State} (hi : PhaseInv s) {i : Thread} (hmutex : s.mutex = some i) :
    ∃ t, Leads s t := by
  have hinside := (hi.owned i).mpr hmutex
  cases i with
  | main => cases hinside
  | measurement =>
    have hin : s.measurement.inside = true := hinside
    refine measurement_leads ?_ ?_ (fun h => ?_) fun _ k hk => ?_
    · intro hpc
      rw [hpc] at hin
      cases hin
    · intro hpc
      rw [hpc] at hin
      cases hin
    · rw [hin] at h
      cases h
    · rw [hk] at hin
      cases hin
  | worker w =>
    have hin : (s.worker w).inside = true := hinside
    cases hpc : s.worker w with rw [hpc] at hin
    | testStart | unlockStart | update n | unlockUpdate | updateFinal n | unlockFinal =>
      exact worker_leads (by rw [hpc]; rfl) (by rw [hpc]; nofun)
    | _ => cases hin

theorem rests_cases {running : Bool} {pc : WorkerPc} (h : pc.advances running = false) :
    pc = .absent ∨ pc = .waiting ∨ pc = .ended ∨ ∃ n, pc = .testRunning n ∧ running = true := by
  cases pc with
  | absent => exact .inl rfl
  | waiting => exact .inr (.inl rfl)
  | ended => exact .inr (.inr (.inl rfl))
  | testRunning n => exact .inr (.inr (.inr ⟨n, rfl, by simpa [WorkerPc.advances] using h⟩))
  | _ => cases h

theorem stopped_passed {s : State} (hi : Good s) {w : Worker}
    (hpos : w.scenario.base+8 < s.measurement.position)
    (hrest : (s.worker w).advances (s.running w.scenario) = false) : s.worker w = .ended := by
  have hpassed := hi.passed w hpos.le
  rcases rests_cases hrest with hpc | hpc | hpc | ⟨n, hpc, hrunning⟩
  · rw [hpc] at hpassed
    cases hpassed
  · rw [hpc] at hpassed
    cases hpassed
  · exact hpc
  · have hrange := (hi.phases.running w.scenario).mp hrunning
    omega

/-- The measurement thread is about to stop a scenario, all workers rest, and
one that has still to come makes `main` go on. -/
theorem missing_leads {s : State} (hi : Good s) {w : Worker}
    (hstop : s.measurement = .lockStop w.scenario) (hmissing : (s.worker w).passed = false)
    (hrest : ∀ v, (s.worker v).advances (s.running v.scenario) = false) : ∃ t, Leads s t := by
  have hpos : s.measurement.position = w.scenario.base+7 := by rw [hstop]; rfl
  have habsent : s.worker w = .absent := by
    rcases rests_cases (hrest w) with hpc | hpc | hpc | ⟨n, hpc, -⟩
    · exact hpc
    · have hwaiting := hi.phases.waiting w hpc
      omega
    · rw [hpc] at hmissing
      cases hmissing
    · rw [hpc] at hmissing
      cases hmissing
  have hbirth := (hi.phases.born w).mp habsent
  have hearly := birth_bounds w
  apply main_leads hi.phases
  · intro hcon
    rw [hcon] at hbirth
    exact absurd (show 12 ≤ w.birth from hbirth) (by omega)
  · intro v hv
    have hjoin := join_bounds v
    have hsingle : v = .single := by
      cases v with
      | single => rfl
      | multi i => exact absurd (show 7 ≤ (Worker.multi i).join from Nat.le_add_right 7 i) (by omega)
    have htwo : w.scenario.base = 12 := by
      cases w with
      | single => exact absurd (show s.main.position ≤ 1 from hbirth) (by omega)
      | multi i => rfl
    apply stopped_passed hi _ (hrest v)
    rw [hsingle, hpos, htwo]
    decide
  · intro hcon
    rw [hcon] at hbirth
    exact absurd (show 11 ≤ w.birth from hbirth) (by omega)

theorem free_leads {s : State} (hi : Good s) (hmain : s.main ≠ .ended) (hfree : s.mutex = none) :
    ∃ t, Leads s t := by
  by_cases hadvances : ∃ w, (s.worker w).advances (s.running w.scenario) = true
  · obtain ⟨w, hw⟩ := hadvances
    exact worker_leads hw fun _ => hfree
  · have hrest : ∀ w, (s.worker w).advances (s.running w.scenario) = false := by
      intro w
      simpa using fun h => hadvances ⟨w, h⟩
    by_cases habsent : s.measurement = .absent
    · have hcreate := hi.phases.created.mp habsent
      apply main_leads hi.phases hmain
      · intro w hw
        have hjoin := join_bounds w
        rw [hcreate] at hw
        exact absurd (show 0 = w.join from hw) (by omega)
      · intro hcon
        rw [hcreate] at hcon
        cases hcon
    · by_cases hended : s.measurement = .ended
      · refine main_leads hi.phases hmain (fun w _ => ?_) fun _ => hended
        apply stopped_passed hi _ (hrest w)
        rw [hended]
        cases w with
        | single => decide
        | multi i => exact show 12+8 < 26 by decide
      · by_cases hlate : StopsLate (.run .measurement) s
        · exact measurement_leads habsent hended (fun _ => hfree) hlate
        · simp only [StopsLate, not_forall] at hlate
          obtain ⟨-, k, hstop, w, rfl, hmissed⟩ := hlate
          exact missing_leads hi hstop (by simpa using hmissed) hrest

theorem good_leads {s : State} (hi : Good s) (hmain : s.main ≠ .ended) : ∃ t, Leads s t := by
  cases hmutex : s.mutex with
  | none => exact free_leads hi hmain hmutex
  | some i => exact owner_leads hi.phases hmutex

/-- The steps that lead towards the end reach it. -/
theorem joins_complete {s : State} (hi : Good s) :
    ∃ t, Runs.Reachable step s t ∧ t.main = .ended := by
  induction hrank : s.rank using Nat.strong_induction_on generalizing s with
  | _ n ih =>
    by_cases hmain : s.main = .ended
    · exact ⟨s, ⟨[], rfl⟩, hmain⟩
    · obtain ⟨t, a, hok, hstep, hlt⟩ := good_leads hi hmain
      obtain ⟨u, hreach, hended⟩ := ih t.rank (hrank ▸ hlt) (step_good a s t hi hok hstep) rfl
      obtain ⟨as, has⟩ := hreach
      refine ⟨u, ⟨a::as, ?_⟩, hended⟩
      rw [Runs.exec, hstep]
      exact has

theorem good_no_hang {s : State} (hi : Good s) : NoHang s := by
  have hpassed : ∀ w, Cleared w.scenario s → (s.worker w).passed = true :=
    fun w hw => hi.passed w (Nat.le_of_succ_le hw)
  refine ⟨fun w hw hpc => ?_, fun w hw hwaits => ?_, joins_complete hi⟩
  · have hyes := hpassed w hw
    rw [hpc] at hyes
    cases hyes
  · have hno := hwaits s ⟨[], rfl⟩
    rw [hpassed w hw] at hno
    cases hno

/-- `main` does not end without having joined the worker that waits. -/
theorem broken_hangs {s : State} (hi : Broken s) : ¬ NoHang s := by
  intro hno
  obtain ⟨t, hreach, hmain⟩ := hno.joins
  obtain ⟨hphases, w, -, hmissed⟩ := Runs.reachable_invariant step Broken hi step_broken hreach
  have hjoin := join_bounds w
  have hended := hphases.joined w (by rw [hmain]; exact show w.join < 12 by omega)
  rw [hended] at hmissed
  cases hmissed

/-- The benchmark does not hang exactly in the runs in which no scenario is
stopped before all its workers have found it running. -/
theorem no_hang_iff (as : List Action) (s : State) (h : Runs.exec step as started = some s) :
    NoHang s ↔ Runs.Along step StopsLate as started := by
  rcases Runs.good_or_broken step Good Broken step_good step_breaks step_broken good_started h with
    ⟨halong, hgood⟩ | ⟨hnot, hbroken⟩
  · exact iff_of_true (good_no_hang hgood) halong
  · exact iff_of_false (broken_hangs hbroken) hnot

/-- The measurement thread has started and stopped the first scenario before
`main` creates the worker. -/
def lateWorker : List Action :=
  .run .main::List.replicate 9 (.run .measurement)++
    [.run .main, .run (.worker .single), .run (.worker .single)]

theorem late_worker_run : (Runs.exec step lateWorker started).isSome = true := by
  decide +kernel

def lateWorkerEnd : State := (Runs.exec step lateWorker started).get late_worker_run

theorem late_worker_hangs : ¬ NoHang lateWorkerEnd := by
  intro hno
  have hwaiting : lateWorkerEnd.worker .single = .waiting := by decide +kernel
  exact hno.waiting .single (by unfold Cleared; decide +kernel) hwaiting

theorem late_worker_misses_start : ¬ Runs.Along step StopsLate lateWorker started :=
  mt (no_hang_iff lateWorker lateWorkerEnd (Option.some_get late_worker_run).symm).mpr
    late_worker_hangs

theorem late_worker_waits : ¬ ∀ s, Reachable s → NoHang s :=
  fun h => late_worker_hangs (h lateWorkerEnd (Runs.reachable_get late_worker_run))

end ProgSistema.Benchmark
