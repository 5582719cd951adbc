import ProgSistema.Benchmark.Counts
import ProgSistema.Benchmark.Starts

/-!
# What the benchmark measures

The measurement thread reads a count right after it has stopped the scenario,
and again later. A read misses what a worker has not added yet, and what a
worker multiplies that has seen the scenario run for the last time.
-/

set_option autoImplicit false

namespace ProgSistema.Benchmark
open CRuntime

def Settled (k : Scenario) (s : State) : Prop :=
  (∀ w : Worker, w.scenario = k → (s.worker w).pending = 0 ∧ (s.worker w).multiplies = 0) ∧
    total s.executed k < 2^63

def ReadsSettled (a : Action) (s : State) : Prop :=
  a = .run .measurement → ∀ k, s.measurement.readsCount = some k → Settled k s

def Final (s : State) : Prop := ∀ t, Runs.Reachable step s t → t.executed = s.executed

def Measured (s : State) : Prop := ∀ r ∈ s.reads, r.2 = total s.executed r.1

theorem step_idle_or_works {a : Action} {s t : State} (hi : PhaseInv s)
    (h : step a s = some t) : Idle s t ∨ ∃ w, WorkerStep w s t := by
  cases a with
  | run i =>
    cases i with
    | main => exact .inl (main_idle hi h).1
    | measurement => exact .inl (measurement_idle (measurement_step h))
    | worker w => exact .inr ⟨w, worker_step h⟩
  | wakeUp w => exact .inl (wake_idle h).1

theorem step_reads {a : Action} {s t : State} (hi : PhaseInv s) (h : step a s = some t) :
    (t.reads = s.reads ∧ (a = .run .measurement → s.measurement.readsCount = none)) ∨
    (a = .run .measurement ∧ Idle s t ∧ ∃ k, s.measurement.readsCount = some k ∧
      t.reads = s.reads++[(k, s.count k)]) := by
  cases a with
  | run i =>
    cases i with
    | main => exact .inl ⟨(main_idle hi h).2.2, nofun⟩
    | measurement =>
      have hstep := measurement_step h
      have hreads := hstep.reads
      cases hk : s.measurement.readsCount with
      | none =>
        rw [hk] at hreads
        exact .inl ⟨hreads, fun _ => rfl⟩
      | some k =>
        rw [hk] at hreads
        exact .inr ⟨rfl, measurement_idle hstep, k, rfl, hreads⟩
    | worker w => exact .inl ⟨(worker_step h).reads, nofun⟩
  | wakeUp w => exact .inl ⟨(wake_idle h).2.2, nofun⟩

theorem reads_after_stop {pc : MeasurementPc} {k : Scenario} (h : pc.readsCount = some k) :
    k.base+9 ≤ pc.position := by
  cases pc with
  | printCount k' | printThroughput k' =>
    cases h
    rw [MeasurementPc.position]
    omega
  | speedupTwo | speedupOne =>
    cases h
    decide
  | _ => cases h

theorem position_mono {a : Action} {s t : State} (hi : PhaseInv s) (h : step a s = some t) :
    s.measurement.position ≤ t.measurement.position := by
  rcases step_position hi h with ⟨-, hpos⟩ | ⟨-, hpos⟩ | ⟨hzero, -⟩
  · omega
  · omega
  · omega

structure Quiet (k : Scenario) (s : State) : Prop where
  stopped : k.base+9 ≤ s.measurement.position
  still : ∀ w : Worker, w.scenario = k →
    (s.worker w).pending = 0 ∧ (s.worker w).multiplies = 0

theorem next_quiet {pc : WorkerPc} (hpending : pc.pending = 0) (hworks : pc.multiplies = 0) :
    (pc.next false).pending = 0 ∧ (pc.next false).multiplies = 0 := by
  cases pc with
  | multiply n => cases hworks
  | testRunning n =>
    have hzero : n = 0 := hpending
    rw [hzero]
    exact ⟨rfl, rfl⟩
  | lockUpdate n | lockFinal n => exact ⟨hpending, rfl⟩
  | _ => exact ⟨rfl, rfl⟩

theorem step_quiet {a : Action} {s t : State} {k : Scenario} (hi : PhaseInv s)
    (hq : Quiet k s) (h : step a s = some t) :
    Quiet k t ∧ total t.executed k = total s.executed k := by
  have hstopped := hq.stopped.trans (position_mono hi h)
  rcases step_idle_or_works hi h with hidle | ⟨v, hstep⟩
  · refine ⟨⟨hstopped, fun w hw => ?_⟩, by rw [hidle.executed]⟩
    rw [hidle.pending w, hidle.multiplies w]
    exact hq.still w hw
  · constructor
    · refine ⟨hstopped, fun w hw => ?_⟩
      rw [hstep.worker]
      by_cases hv : w = v
      · subst hv
        obtain ⟨hpending, hworks⟩ := hq.still w hw
        have hrunning : s.running w.scenario = false := by
          rw [Bool.eq_false_iff, ne_eq, hi.running, hw]
          have hpos := hq.stopped
          omega
        rw [Function.update_self, hrunning]
        exact next_quiet hpending hworks
      · rw [Function.update_of_ne hv]
        exact hq.still w hw
    · rw [hstep.executed, total_add]
      split
      · rename_i hv
        rw [(hq.still v hv).2, add_zero]
      · rfl

structure MeasuredInv (s : State) : Prop where
  counts : CountInv s
  measured : Measured s
  quiet : ∀ r ∈ s.reads, Quiet r.1 s

theorem settled_read {s : State} {k : Scenario} (hi : CountInv s) (h : Settled k s) :
    s.count k = total s.executed k := by
  have hsame : total s.flushed k = total s.executed k := by
    refine total_congr fun w hw => ?_
    rw [State.flushed, (h.1 w hw).1, Nat.sub_zero]
  rw [hi.count k, hsame]
  exact to_long_of_lt h.2

theorem step_measured_inv (a : Action) (s t : State) (hi : MeasuredInv s)
    (hok : ReadsSettled a s) (h : step a s = some t) : MeasuredInv t := by
  have hphases := hi.counts.phases
  have hold : ∀ r ∈ s.reads, r.2 = total t.executed r.1 ∧ Quiet r.1 t := by
    intro r hr
    obtain ⟨hquiet, hsame⟩ := step_quiet hphases (hi.quiet r hr) h
    exact ⟨by rw [hsame, hi.measured r hr], hquiet⟩
  have hcounts := step_count_inv a s t hi.counts h
  rcases step_reads hphases h with ⟨hreads, -⟩ | ⟨hrun, hidle, k, hk, hreads⟩
  · refine ⟨hcounts, fun r hr => ?_, fun r hr => ?_⟩
    · exact (hold r (hreads ▸ hr)).1
    · exact (hold r (hreads ▸ hr)).2
  · have hsettled := hok hrun k hk
    have hnew : (s.count k = total t.executed k) ∧ Quiet k t := by
      refine ⟨by rw [hidle.executed, settled_read hi.counts hsettled], ?_⟩
      refine ⟨(reads_after_stop hk).trans (position_mono hphases h), fun w hw => ?_⟩
      rw [hidle.pending w, hidle.multiplies w]
      exact hsettled.1 w hw
    have hall : ∀ r ∈ t.reads, r.2 = total t.executed r.1 ∧ Quiet r.1 t := by
      intro r hr
      rw [hreads] at hr
      rcases List.mem_append.mp hr with hr | hr
      · exact hold r hr
      · rw [List.mem_singleton.mp hr]
        exact hnew
    exact ⟨hcounts, fun r hr => (hall r hr).1, fun r hr => (hall r hr).2⟩

def Missed (r : Scenario × ℤ) (s : State) : Prop :=
  r.2 < total s.executed r.1 ∨
    r.2 ≤ total s.executed r.1 ∧ ∃ w : Worker, w.scenario = r.1 ∧ (s.worker w).multiplies = 1

theorem step_missed {a : Action} {s t : State} {r : Scenario × ℤ} (hi : PhaseInv s)
    (hm : Missed r s) (h : step a s = some t) : Missed r t := by
  rcases step_idle_or_works hi h with hidle | ⟨v, hstep⟩
  · unfold Missed
    simp only [hidle.executed, hidle.multiplies]
    exact hm
  · have htotal := total_add s.executed v (s.worker v).multiplies r.1
    rw [← hstep.executed] at htotal
    rcases hm with hlt | ⟨hle, w, hw, hworks⟩
    · refine .inl (hlt.trans_le ?_)
      rw [htotal]
      exact_mod_cast Nat.le_add_right _ _
    · by_cases hv : w = v
      · subst hv
        rw [if_pos hw, hworks] at htotal
        refine .inl (hle.trans_lt ?_)
        rw [htotal]
        exact_mod_cast Nat.lt_succ_self _
      · refine .inr ⟨hle.trans ?_, w, hw, ?_⟩
        · rw [htotal]
          exact_mod_cast Nat.le_add_right _ _
        · rw [hstep.worker, Function.update_of_ne hv]
          exact hworks

theorem unsettled_missed {s : State} {k : Scenario} (hi : CountInv s) (h : ¬ Settled k s) :
    Missed (k, s.count k) s := by
  have hflushed : total s.flushed k ≤ total s.executed k :=
    total_le fun w _ => Nat.sub_le _ _
  have hread : s.count k ≤ total s.flushed k := by
    rw [hi.count k]
    exact to_long_le _
  by_cases hworks : ∃ w : Worker, w.scenario = k ∧ (s.worker w).multiplies ≠ 0
  · obtain ⟨w, hw, hne⟩ := hworks
    refine .inr ⟨hread.trans (by exact_mod_cast hflushed), w, hw, ?_⟩
    cases hpc : s.worker w <;> rw [hpc] at hne <;> first | rfl | exact absurd rfl hne
  · by_cases hpending : ∃ w : Worker, w.scenario = k ∧ (s.worker w).pending ≠ 0
    · obtain ⟨w, hw, hne⟩ := hpending
      have hle := hi.pending w
      have hlt : total s.flushed k < total s.executed k := by
        refine total_lt (fun v _ => Nat.sub_le _ _) hw ?_
        rw [State.flushed]
        omega
      exact .inl (hread.trans_lt (by exact_mod_cast hlt))
    · have hlarge : 2^63 ≤ total s.executed k := by
        by_contra hlt
        refine h ⟨fun w hw => ⟨?_, ?_⟩, not_le.mp hlt⟩
        · by_contra hne
          exact hpending ⟨w, hw, hne⟩
        · by_contra hne
          exact hworks ⟨w, hw, hne⟩
      refine .inl ?_
      show s.count k < _
      rw [hi.count k]
      exact (to_long_lt _).trans_le (by exact_mod_cast hlarge)

structure MissedInv (s : State) : Prop where
  counts : CountInv s
  missed : ∃ r ∈ s.reads, Missed r s

theorem step_misses (a : Action) (s t : State) (hi : MeasuredInv s) (hnot : ¬ ReadsSettled a s)
    (h : step a s = some t) : MissedInv t := by
  simp only [ReadsSettled, not_forall] at hnot
  obtain ⟨rfl, k, hk, hunsettled⟩ := hnot
  have hphases := hi.counts.phases
  refine ⟨step_count_inv _ s t hi.counts h, (k, s.count k), ?_, ?_⟩
  · rw [(measurement_step h).reads, hk]
    exact List.mem_append_right _ (List.mem_singleton.mpr rfl)
  · exact step_missed hphases (unsettled_missed hi.counts hunsettled) h

theorem step_missed_inv (a : Action) (s t : State) (hi : MissedInv s) (h : step a s = some t) :
    MissedInv t := by
  obtain ⟨hcounts, r, hr, hmissed⟩ := hi
  refine ⟨step_count_inv a s t hcounts h, r, ?_, step_missed hcounts.phases hmissed h⟩
  rcases step_reads hcounts.phases h with ⟨hreads, -⟩ | ⟨-, -, k, -, hreads⟩
  · rw [hreads]
    exact hr
  · rw [hreads]
    exact List.mem_append_left _ hr

/-- A worker about to multiply does so in some continuation. -/
theorem final_idle {s : State} (hfinal : Final s) (w : Worker) :
    (s.worker w).multiplies ≠ 1 := by
  intro hworks
  cases hpc : s.worker w with
  | multiply n =>
    obtain ⟨t, ht⟩ : ∃ t, workerThread w s = some t := by
      unfold workerThread
      rw [hpc]
      exact ⟨_, rfl⟩
    have hsame := hfinal t ⟨[.run (.worker w)], by rw [Runs.exec, step, ht]; rfl⟩
    have hmore := congrFun (worker_step ht).executed w
    rw [hsame, Function.update_self, hworks] at hmore
    omega
  | _ =>
    rw [hpc] at hworks
    cases hworks

theorem missed_not_measured {s : State} (hi : MissedInv s) (hfinal : Final s) : ¬ Measured s := by
  obtain ⟨-, r, hr, hmissed⟩ := hi
  intro hmeasured
  rcases hmissed with hlt | ⟨-, w, -, hworks⟩
  · exact hlt.ne (hmeasured r hr)
  · exact final_idle hfinal w hworks

theorem measured_started : MeasuredInv started :=
  ⟨count_inv_started, nofun, nofun⟩

/-- When no more is multiplied, every count that the measurement thread has
printed or used is that of the multiplications executed, exactly if each has
been read when the workers had nothing left. -/
theorem measured_iff (as : List Action) (s : State) (h : Runs.exec step as started = some s)
    (hfinal : Final s) : Measured s ↔ Runs.Along step ReadsSettled as started := by
  rcases Runs.good_or_broken step MeasuredInv MissedInv step_measured_inv step_misses
    step_missed_inv measured_started h with ⟨halong, hgood⟩ | ⟨hnot, hmissed⟩
  · exact iff_of_true hgood.measured halong
  · exact iff_of_false (missed_not_measured hmissed hfinal) hnot

/-- When `main` has ended no thread runs. -/
theorem ended_final {s : State} (hi : PhaseInv s) (hmain : s.main = .ended) : Final s := by
  have hworkers : ∀ w, s.worker w = .ended := by
    intro w
    have hjoin := join_bounds w
    exact hi.joined w (by rw [hmain]; exact show w.join < 12 by omega)
  have hstuck : ∀ a, step a s = none := by
    intro a
    cases a with
    | run i =>
      cases i with
      | main => rw [step, mainThread, hmain]
      | measurement => rw [step, measurementThread, hi.completed hmain]
      | worker w => rw [step, workerThread, hworkers w]
    | wakeUp w =>
      have hne : WorkerPc.ended ≠ .waiting := by decide
      rw [step, hworkers w, if_neg hne]
  rintro t ⟨as, has⟩
  cases as with
  | nil =>
    cases has
    rfl
  | cons a as =>
    rw [Runs.exec, hstuck a] at has
    cases has

def runs (t : Thread) (n : ℕ) : List Action := List.replicate n (.run t)

def eachMulti (n : ℕ) : List Action :=
  (List.finRange numThreadsScenario2).flatMap fun i => runs (.worker (.multi i)) n

/-- The only worker of the first scenario multiplies once and adds it after
the measurement thread has read the count. -/
def lateRemainder : List Action :=
  runs .main 1++runs .measurement 5++runs .main 1++runs (.worker .single) 5++
    runs .measurement 5++runs (.worker .single) 4++runs .main 5++runs .measurement 7++
    eachMulti 3++runs .measurement 4++eachMulti 1++runs .measurement 4++runs .main 5

theorem late_remainder_run : (Runs.exec step lateRemainder started).isSome = true := by
  decide +kernel

def lateRemainderEnd : State := (Runs.exec step lateRemainder started).get late_remainder_run

theorem late_remainder_final : Final lateRemainderEnd := by
  have hinv : PhaseInv lateRemainderEnd := Runs.reachable_invariant step PhaseInv
    phase_inv_started step_phase_inv (Runs.reachable_get late_remainder_run)
  exact ended_final hinv (by decide +kernel)

/-- The count printed is zero, and one multiplication has been executed. -/
theorem late_remainder_not_measured : ¬ Measured lateRemainderEnd := by
  intro hmeasured
  have hread : (Scenario.one, 0) ∈ lateRemainderEnd.reads := by decide +kernel
  have hone : total lateRemainderEnd.executed .one = 1 := by decide +kernel
  have hzero := hmeasured _ hread
  rw [hone] at hzero
  cases hzero

theorem late_remainder_unsettled : ¬ Runs.Along step ReadsSettled lateRemainder started :=
  mt (measured_iff lateRemainder lateRemainderEnd (Option.some_get late_remainder_run).symm
    late_remainder_final).mpr late_remainder_not_measured

theorem late_remainder_missed :
    ¬ ∀ s, Reachable s → Final s → Measured s :=
  fun h => late_remainder_not_measured
    (h lateRemainderEnd (Runs.reachable_get late_remainder_run) late_remainder_final)

end ProgSistema.Benchmark
