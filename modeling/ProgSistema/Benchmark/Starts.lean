import ProgSistema.Benchmark.Phases

/-!
# Workers that miss the start

A worker that has not found its scenario running when the measurement thread
takes the mutex to stop the scenario never finds it running.
-/

set_option autoImplicit false

namespace ProgSistema.Benchmark

def StopsLate (a : Action) (s : State) : Prop :=
  a = .run .measurement → ∀ k, s.measurement = .lockStop k →
    ∀ w : Worker, w.scenario = k → (s.worker w).passed = true

/-- A worker passes the wait only where it finds its scenario running. -/
theorem step_passed {a : Action} {s t : State} (hi : PhaseInv s) (h : step a s = some t)
    (w : Worker) :
    (t.worker w).passed = true ↔ (s.worker w).passed = true ∨
      a = .run (.worker w) ∧ s.worker w = .testStart ∧ s.running w.scenario = true := by
  cases a with
  | run i =>
    cases i with
    | main =>
      have hsame : (t.worker w).passed = (s.worker w).passed := by
        cases main_step hi.bounded h with
        | measurement hpc ht => rw [ht]; rfl
        | goesOn pc hpos hnext hbounded hbirth hjoin hended ht => rw [ht]; rfl
        | worker v pc hbirth hnext hbounded ht =>
          rw [ht]
          show (Function.update s.worker v .lockStart w).passed = _
          by_cases hw : w = v
          · have habsent : s.worker v = .absent := (hi.born v).mpr hbirth.le
            rw [hw, Function.update_self, habsent]
            rfl
          · rw [Function.update_of_ne hw]
      rw [hsame]
      simp
    | measurement =>
      have hsame : (t.worker w).passed = (s.worker w).passed := by
        rcases measurement_worker (measurement_step h) w with hsame | hwoken
        · rw [hsame]
        · rw [hwoken, signalled_passed]
      rw [hsame]
      simp
    | worker v =>
      rw [(worker_step h).worker]
      by_cases hw : w = v
      · subst hw
        rw [Function.update_self, passed_next]
        simp
      · rw [Function.update_of_ne hw]
        simp [Ne.symm hw]
  | wakeUp v =>
    obtain ⟨hpc, rfl⟩ := wake_step h
    have hsame : (Function.update s.worker v .woken w).passed = (s.worker w).passed := by
      by_cases hw : w = v
      · rw [hw, Function.update_self, hpc]
        rfl
      · rw [Function.update_of_ne hw]
    show (Function.update s.worker v .woken w).passed = true ↔ _
    rw [hsame]
    simp

theorem step_position {a : Action} {s t : State} (hi : PhaseInv s) (h : step a s = some t) :
    (a = .run .measurement ∧ t.measurement.position = s.measurement.position+1) ∨
    (a ≠ .run .measurement ∧ t.measurement.position = s.measurement.position) ∨
    (s.measurement.position = 0 ∧ t.measurement.position = 1) := by
  cases a with
  | run i =>
    cases i with
    | main =>
      cases main_step hi.bounded h with
      | measurement hpc ht =>
        rw [ht, hi.created.mpr hpc]
        exact .inr (.inr ⟨rfl, rfl⟩)
      | worker v pc hbirth hnext hbounded ht =>
        rw [ht]
        exact .inr (.inl ⟨nofun, rfl⟩)
      | goesOn pc hpos hnext hbounded hbirth hjoin hended ht =>
        rw [ht]
        exact .inr (.inl ⟨nofun, rfl⟩)
    | measurement => exact .inl ⟨rfl, (measurement_step h).position⟩
    | worker v =>
      rw [(worker_step h).measurement]
      exact .inr (.inl ⟨nofun, rfl⟩)
  | wakeUp v =>
    obtain ⟨-, rfl⟩ := wake_step h
    exact .inr (.inl ⟨nofun, rfl⟩)

structure Good (s : State) : Prop where
  phases : PhaseInv s
  passed : ∀ w : Worker, w.scenario.base+8 ≤ s.measurement.position → (s.worker w).passed = true

structure Broken (s : State) : Prop where
  phases : PhaseInv s
  missed : ∃ w : Worker, w.scenario.base+8 ≤ s.measurement.position ∧
    (s.worker w).passed = false

theorem good_started : Good started :=
  ⟨phase_inv_started, fun _ h => absurd h (Nat.not_succ_le_zero _)⟩

theorem step_good (a : Action) (s t : State) (hi : Good s) (hok : StopsLate a s)
    (h : step a s = some t) : Good t := by
  refine ⟨step_phase_inv a s t hi.phases h, fun w hw => ?_⟩
  rw [step_passed hi.phases h w]
  refine .inl ?_
  by_cases hold : w.scenario.base+8 ≤ s.measurement.position
  · exact hi.passed w hold
  · rcases step_position hi.phases h with ⟨hrun, hpos⟩ | ⟨-, hpos⟩ | ⟨-, hpos⟩
    · have hstop : s.measurement.position = (MeasurementPc.lockStop w.scenario).position := by
        show _ = w.scenario.base+7
        omega
      exact hok hrun w.scenario (position_injective hstop) w rfl
    · omega
    · omega

theorem step_breaks (a : Action) (s t : State) (hi : Good s) (hnot : ¬ StopsLate a s)
    (h : step a s = some t) : Broken t := by
  refine ⟨step_phase_inv a s t hi.phases h, ?_⟩
  simp only [StopsLate, not_forall] at hnot
  obtain ⟨rfl, k, hpc, w, rfl, hmissed⟩ := hnot
  refine ⟨w, ?_, ?_⟩
  · rw [(measurement_step h).position, hpc]
    exact le_rfl
  · rw [Bool.eq_false_iff, ne_eq, step_passed hi.phases h w]
    simp [hmissed]

theorem step_broken (a : Action) (s t : State) (hi : Broken s) (h : step a s = some t) :
    Broken t := by
  obtain ⟨hphases, w, hpos, hmissed⟩ := hi
  refine ⟨step_phase_inv a s t hphases h, w, ?_, ?_⟩
  · rcases step_position hphases h with ⟨-, hnext⟩ | ⟨-, hnext⟩ | ⟨hzero, -⟩
    · omega
    · omega
    · omega
  · rw [Bool.eq_false_iff, ne_eq, step_passed hphases h w]
    rintro (hpassed | ⟨-, hpc, hrunning⟩)
    · rw [hmissed] at hpassed
      cases hpassed
    · have hrange := (hphases.running w.scenario).mp hrunning
      have hstop : s.measurement = .stop w.scenario :=
        position_injective (show _ = w.scenario.base+8 by omega)
      have hmeasurement : s.inside .measurement = true := by
        show s.measurement.inside = true
        rw [hstop]
        rfl
      have hworker : s.inside (.worker w) = true := by
        show (s.worker w).inside = true
        rw [hpc]
        rfl
      cases Mutex.owned_unique hphases.owned hmeasurement hworker

end ProgSistema.Benchmark
