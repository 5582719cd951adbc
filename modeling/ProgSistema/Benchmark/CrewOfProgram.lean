import ProgSistema.Benchmark.CrewCounts

/-!
# The program as a crew of four

Each step of the program is one of the crew of its four workers, or two of
them where a worker adds to a count, or none where `main` waits.
-/

set_option autoImplicit false

namespace ProgSistema.Benchmark

def holder : Thread → Option (Holder Worker)
  | .main => none
  | .measurement => some .measurement
  | .worker w => some (.worker w)

def State.crew (s : State) : Crew Worker where
  measurement := s.measurement
  worker := s.worker
  loaded _ := none
  count := s.count
  running := s.running
  mutex := s.mutex.bind holder
  executed := s.executed

theorem crew_lock {s t : State} {i : Thread} {j : Holder Worker} (hholder : holder i = some j)
    (h : s.lock i = some t) : s.crew.lock j = some t.crew := by
  obtain ⟨hfree, rfl⟩ := lock_some h
  unfold Crew.lock State.crew
  rw [hfree]
  dsimp only [Option.bind]
  rw [hholder]
  rfl

theorem crew_locks {s t : State} {i : Thread} {j : Holder Worker} {f : State → State}
    {g : Crew Worker → Crew Worker} (hholder : holder i = some j)
    (hf : ∀ u, (f u).crew = g u.crew) (h : (s.lock i).map f = some t) :
    (s.crew.lock j).map g = some t.crew := by
  obtain ⟨u, hu, rfl⟩ := Option.map_eq_some_iff.mp h
  rw [crew_lock hholder hu, hf]
  rfl

theorem crew_measurement {s t : State} (h : measurementThread s = some t) :
    Crew.measurementThread s.crew = some t.crew := by
  have hcrew : s.crew.measurement = s.measurement := rfl
  unfold Crew.measurementThread
  unfold measurementThread at h
  rw [hcrew]
  cases hpc : s.measurement with rw [hpc] at h
  | absent | ended => cases h
  | lockReset k => exact crew_locks (g := (·.setMeasurement (.reset k))) rfl (fun _ => rfl) h
  | lockStop k => exact crew_locks (g := (·.setMeasurement (.stop k))) rfl (fun _ => rfl) h
  | printThroughput k => cases k <;> (cases h; rfl)
  | _ =>
    cases h
    rfl

theorem crew_worker_moves {w : Worker} {s t : State} (hadds : (s.worker w).adds = none)
    (h : workerThread w s = some t) :
    Crew.workerThread Worker.scenario w s.crew = some t.crew := by
  have hcrew : s.crew.worker w = s.worker w := rfl
  have hrunning : s.crew.running = s.running := rfl
  unfold Crew.workerThread
  unfold workerThread at h
  rw [hcrew, hrunning]
  cases hpc : s.worker w with (rw [hpc] at h; dsimp only at h ⊢)
  | absent | waiting | ended => cases h
  | update n | updateFinal n =>
    rw [hpc] at hadds
    cases hadds
  | lockStart | woken => exact crew_locks (g := (·.setWorker w .testStart)) rfl (fun _ => rfl) h
  | lockUpdate n => exact crew_locks (g := (·.setWorker w (.update n))) rfl (fun _ => rfl) h
  | lockFinal n => exact crew_locks (g := (·.setWorker w (.updateFinal n))) rfl (fun _ => rfl) h
  | testStart =>
    cases h
    split <;> rfl
  | _ =>
    cases h
    rfl

/-- An addition to a count is a load and a store of the crew. -/
theorem crew_worker_adds {w : Worker} {s t : State} (hadds : (s.worker w).adds ≠ none)
    (h : workerThread w s = some t) :
    Runs.exec (Crew.step Worker.scenario) [.worker w, .worker w] s.crew = some t.crew := by
  have hempty : s.crew.loaded w = none := rfl
  have hsame : Function.update s.crew.loaded w none = s.crew.loaded := Function.update_eq_self w _
  unfold workerThread at h
  cases hpc : s.worker w with (rw [hpc] at h hadds; dsimp only at h)
  | update n | updateFinal n =>
    cases h
    have hcrew : s.crew.worker w = _ := hpc
    simp only [Runs.exec, Crew.step, Crew.workerThread, hcrew, Crew.addCount, hempty,
      Option.bind_some, Function.update_self, Function.update_idem, hsame]
    rfl
  | _ => exact absurd rfl hadds

theorem crew_step {a : Action} {s t : State} (hi : PhaseInv s) (h : step a s = some t) :
    ∃ as, Runs.exec (Crew.step Worker.scenario) as s.crew = some t.crew := by
  cases a with
  | run i =>
    cases i with
    | main =>
      cases main_step hi.bounded h with
      | measurement hpc ht =>
        have habsent : s.crew.measurement = .absent := hi.created.mpr hpc
        refine ⟨[.createMeasurement], ?_⟩
        rw [Runs.exec, Crew.step, if_pos habsent, ht]
        rfl
      | worker w pc hbirth hnext hbounded ht =>
        have habsent : s.crew.worker w = .absent := (hi.born w).mpr hbirth.le
        refine ⟨[.createWorker w], ?_⟩
        rw [Runs.exec, Crew.step, if_pos habsent, ht]
        rfl
      | goesOn pc hpos hnext hbounded hbirth hjoin hended ht =>
        refine ⟨[], ?_⟩
        rw [ht]
        rfl
    | measurement =>
      refine ⟨[.measurement], ?_⟩
      rw [Runs.exec, Crew.step, crew_measurement h]
      rfl
    | worker w =>
      by_cases hadds : (s.worker w).adds = none
      · refine ⟨[.worker w], ?_⟩
        rw [Runs.exec, Crew.step, crew_worker_moves hadds h]
        rfl
      · exact ⟨_, crew_worker_adds hadds h⟩
  | wakeUp w =>
    obtain ⟨hpc, rfl⟩ := wake_step h
    have hwaiting : s.crew.worker w = .waiting := hpc
    refine ⟨[.wakeUp w], ?_⟩
    rw [Runs.exec, Crew.step, if_pos hwaiting]
    rfl

/-- Whatever the program reaches, its crew reaches. -/
theorem crew_reachable {s : State} (h : Reachable s) :
    Crew.Reachable Worker.scenario s.crew := by
  have hboth : PhaseInv s ∧ Crew.Reachable Worker.scenario s.crew := by
    refine Runs.reachable_invariant step
      (fun s => PhaseInv s ∧ Crew.Reachable Worker.scenario s.crew)
      ⟨phase_inv_started, [], rfl⟩ ?_ h
    rintro a s t ⟨hi, as, has⟩ hstep
    obtain ⟨bs, hbs⟩ := crew_step hi hstep
    refine ⟨step_phase_inv a s t hi hstep, as++bs, ?_⟩
    rw [Runs.exec_append, has]
    exact hbs
  exact hboth.2

end ProgSistema.Benchmark
