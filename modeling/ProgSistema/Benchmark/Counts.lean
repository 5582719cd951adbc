import ProgSistema.Benchmark.Phases

/-!
# The counts of the scenarios

A worker adds its multiplications to the count of its scenario by the thousand,
and the rest after it has seen the stop. The count is the number of those that
have been added, as a `long long`.
-/

set_option autoImplicit false

namespace ProgSistema.Benchmark
open CRuntime

def total (f : Worker → ℕ) (k : Scenario) : ℕ := ∑ w with w.scenario = k, f w

def WorkerPc.pending : WorkerPc → ℕ
  | testRunning localCount | multiply localCount | lockUpdate localCount => localCount
  | update localCount | lockFinal localCount | updateFinal localCount => localCount
  | _ => 0

section Total

theorem total_congr {f g : Worker → ℕ} {k : Scenario}
    (h : ∀ w : Worker, w.scenario = k → f w = g w) : total f k = total g k :=
  Finset.sum_congr rfl fun w hw => h w (Finset.mem_filter.mp hw).2

theorem total_le {f g : Worker → ℕ} {k : Scenario}
    (h : ∀ w : Worker, w.scenario = k → f w ≤ g w) : total f k ≤ total g k :=
  Finset.sum_le_sum fun w hw => h w (Finset.mem_filter.mp hw).2

theorem total_lt {f g : Worker → ℕ} {k : Scenario}
    (h : ∀ w : Worker, w.scenario = k → f w ≤ g w) {w : Worker} (hw : w.scenario = k)
    (hlt : f w < g w) : total f k < total g k :=
  Finset.sum_lt_sum (fun v hv => h v (Finset.mem_filter.mp hv).2)
    ⟨w, Finset.mem_filter.mpr ⟨Finset.mem_univ w, hw⟩, hlt⟩

theorem total_zero {f : Worker → ℕ} {k : Scenario}
    (h : ∀ w : Worker, w.scenario = k → f w = 0) : total f k = 0 :=
  Finset.sum_eq_zero fun w hw => h w (Finset.mem_filter.mp hw).2

theorem sum_update_add {ι M : Type*} [DecidableEq ι] [AddCommMonoid M] (s : Finset ι) (f : ι → M)
    (i : ι) (x : M) :
    ∑ j ∈ s, Function.update f i (f i+x) j = (∑ j ∈ s, f j)+if i ∈ s then x else 0 := by
  by_cases hi : i ∈ s
  · rw [if_pos hi, Finset.sum_update_of_mem hi, Finset.sdiff_singleton_eq_erase,
      add_right_comm, Finset.add_sum_erase _ f hi]
  · rw [if_neg hi, add_zero, Finset.sum_update_of_notMem hi]

theorem total_add (f : Worker → ℕ) (w : Worker) (n : ℕ) (k : Scenario) :
    total (Function.update f w (f w+n)) k = total f k+if w.scenario = k then n else 0 := by
  unfold total
  rw [sum_update_add]
  simp

end Total

theorem to_long_add (x : ℤ) (n : ℕ) : toLong (toLong x+n) = toLong (x+n) := Int.bmod_add_bmod

theorem to_long_of_lt {n : ℕ} (h : n < 2^63) : toLong n = n :=
  Int.bmod_eq_of_le (by omega) (by omega)

theorem to_long_lt (x : ℤ) : toLong x < 2^63 := Int.bmod_lt (by decide)

theorem to_long_le (n : ℕ) : toLong n ≤ n := by
  by_cases h : n < 2^63
  · exact (to_long_of_lt h).le
  · have hlt := to_long_lt n
    omega

def WorkerPc.Counts : WorkerPc → Prop
  | testRunning localCount | multiply localCount => localCount < 1000
  | lockUpdate localCount | update localCount => localCount = 1000
  | _ => True

theorem next_counts {running : Bool} {pc : WorkerPc} (h : pc.Counts) :
    (pc.next running).Counts := by
  cases pc with
  | testRunning n =>
    rw [WorkerPc.next]
    split
    · exact h
    · split <;> trivial
  | multiply n =>
    have hlt : n < 1000 := h
    rw [WorkerPc.next]
    split
    · exact show n+1 = 1000 by omega
    · exact show n+1 < 1000 by omega
  | lockUpdate n => exact h
  | unlockStart => exact show 0 < 1000 by decide
  | unlockUpdate => exact show 0 < 1000 by decide
  | _ => cases running <;> trivial

/-- What a worker multiplies it has to add, and what it adds it has no more. -/
theorem next_pending (running : Bool) {pc : WorkerPc} (h : pc.Counts) :
    (pc.next running).pending+pc.adds.getD 0 = pc.pending+pc.multiplies := by
  cases pc with
  | testRunning n =>
    rw [WorkerPc.next]
    split
    · rfl
    · split
      · rfl
      · rename_i hn
        exact (Nat.eq_zero_of_not_pos hn).symm
  | multiply n =>
    rw [WorkerPc.next]
    split <;> rfl
  | update n =>
    have heq : n = 1000 := h
    rw [heq]
    rfl
  | updateFinal n => exact Nat.zero_add n
  | _ => cases running <;> rfl

theorem waits_idle {pc : WorkerPc} (h : pc.passed = false) : pc.multiplies = 0 := by
  cases pc <;> first | rfl | cases h

def State.flushed (s : State) (w : Worker) : ℕ := s.executed w-(s.worker w).pending

structure CountInv (s : State) : Prop where
  phases : PhaseInv s
  counts : ∀ w, (s.worker w).Counts
  pending : ∀ w, (s.worker w).pending ≤ s.executed w
  fresh : ∀ w, (s.worker w).passed = false → s.executed w = 0
  count : ∀ k, s.count k = toLong (total s.flushed k)

theorem count_inv_started : CountInv started := by
  refine ⟨phase_inv_started, fun _ => trivial, fun _ => le_rfl, fun _ _ => rfl, fun k => ?_⟩
  have hzero : total started.flushed k = 0 := total_zero fun _ _ => rfl
  rw [hzero]
  rfl

theorem worker_flushed {w : Worker} {s t : State} (hi : CountInv s) (h : WorkerStep w s t) :
    t.flushed = Function.update s.flushed w (s.flushed w+(s.worker w).adds.getD 0) := by
  funext v
  unfold State.flushed
  rw [h.executed, h.worker]
  by_cases hv : v = w
  · have hnext := next_pending (s.running w.scenario) (hi.counts w)
    have hle := hi.pending w
    rw [hv, Function.update_self, Function.update_self, Function.update_self]
    omega
  · rw [Function.update_of_ne hv, Function.update_of_ne hv, Function.update_of_ne hv]

theorem worker_count_inv {w : Worker} {s t : State} (hi : CountInv s)
    (h : workerThread w s = some t) : CountInv t := by
  have hstep := worker_step h
  have hnext := next_pending (s.running w.scenario) (hi.counts w)
  have hle := hi.pending w
  refine ⟨worker_phase_inv hi.phases h, ?_, ?_, ?_, fun k => ?_⟩
  · rw [hstep.worker]
    apply (Function.forall_update_iff s.worker fun _ q => q.Counts).mpr
    exact ⟨next_counts (hi.counts w), fun v _ => hi.counts v⟩
  · intro v
    rw [hstep.worker, hstep.executed]
    by_cases hv : v = w
    · rw [hv, Function.update_self, Function.update_self]
      omega
    · rw [Function.update_of_ne hv, Function.update_of_ne hv]
      exact hi.pending v
  · intro v
    rw [hstep.worker, hstep.executed]
    by_cases hv : v = w
    · rw [hv, Function.update_self, Function.update_self]
      intro hnot
      rw [Bool.eq_false_iff, ne_eq, passed_next, not_or] at hnot
      have hbefore : (s.worker w).passed = false := by simpa using hnot.1
      rw [hi.fresh w hbefore, waits_idle hbefore]
    · rw [Function.update_of_ne hv, Function.update_of_ne hv]
      exact hi.fresh v
  · rw [worker_flushed hi hstep, total_add, hstep.count]
    cases hadds : (s.worker w).adds with
    | none =>
      rw [Option.getD_none, ite_self, add_zero]
      exact hi.count k
    | some n =>
      rw [Option.getD_some]
      dsimp only
      by_cases hk : w.scenario = k
      · rw [hk, Function.update_self, if_pos rfl, hi.count k, to_long_add]
        rfl
      · rw [Function.update_of_ne (Ne.symm hk), if_neg hk, add_zero]
        exact hi.count k

theorem signalled_pending (pc : WorkerPc) : (signalled pc).pending = pc.pending := by
  cases pc <;> rfl

theorem signalled_multiplies (pc : WorkerPc) : (signalled pc).multiplies = pc.multiplies := by
  cases pc <;> rfl

theorem signalled_counts {pc : WorkerPc} (h : pc.Counts) : (signalled pc).Counts := by
  cases pc <;> exact h

structure Idle (s t : State) : Prop where
  executed : t.executed = s.executed
  counts : ∀ w, (s.worker w).Counts → (t.worker w).Counts
  passed : ∀ w, (t.worker w).passed = (s.worker w).passed
  pending : ∀ w, (t.worker w).pending = (s.worker w).pending
  multiplies : ∀ w, (t.worker w).multiplies = (s.worker w).multiplies

theorem idle_flushed {s t : State} (h : Idle s t) : t.flushed = s.flushed := by
  funext w
  rw [State.flushed, State.flushed, h.executed, h.pending w]

theorem idle_count_inv {s t : State} (hi : CountInv s) (hphases : PhaseInv t) (h : Idle s t)
    (hcount : ∀ k, t.count k = toLong (total s.flushed k)) : CountInv t := by
  refine ⟨hphases, fun w => h.counts w (hi.counts w), fun w => ?_, fun w hw => ?_, fun k => ?_⟩
  · rw [h.pending w, h.executed]
    exact hi.pending w
  · rw [h.passed w] at hw
    rw [h.executed]
    exact hi.fresh w hw
  · rw [idle_flushed h]
    exact hcount k

theorem measurement_idle {s t : State} (h : MeasurementStep s t) : Idle s t := by
  refine ⟨h.executed, fun w hw => ?_, fun w => ?_, fun w => ?_, fun w => ?_⟩ <;>
    rcases measurement_worker h w with hsame | hwoken
  · rwa [hsame]
  · rw [hwoken]
    exact signalled_counts hw
  · rw [hsame]
  · rw [hwoken, signalled_passed]
  · rw [hsame]
  · rw [hwoken, signalled_pending]
  · rw [hsame]
  · rw [hwoken, signalled_multiplies]

/-- A worker is created, or woken. -/
theorem set_worker_idle {s : State} {w : Worker} {pc : WorkerPc} (m : MainPc)
    (hcounts : pc.Counts) (hpassed : pc.passed = (s.worker w).passed)
    (hpending : pc.pending = (s.worker w).pending)
    (hworks : pc.multiplies = (s.worker w).multiplies) :
    Idle s ((s.setWorker w pc).setMain m) := by
  refine ⟨rfl, ?_, ?_, ?_, ?_⟩
  · apply (Function.forall_update_iff s.worker fun v q => (s.worker v).Counts → q.Counts).mpr
    exact ⟨fun _ => hcounts, fun _ _ h => h⟩
  · apply (Function.forall_update_iff s.worker fun v q => q.passed = (s.worker v).passed).mpr
    exact ⟨hpassed, fun _ _ => rfl⟩
  · apply (Function.forall_update_iff s.worker fun v q => q.pending = (s.worker v).pending).mpr
    exact ⟨hpending, fun _ _ => rfl⟩
  · apply (Function.forall_update_iff s.worker
      fun v q => q.multiplies = (s.worker v).multiplies).mpr
    exact ⟨hworks, fun _ _ => rfl⟩

theorem main_idle {s t : State} (hi : PhaseInv s) (h : mainThread s = some t) :
    Idle s t ∧ t.count = s.count ∧ t.reads = s.reads := by
  cases main_step hi.bounded h with
  | measurement hpc ht =>
    rw [ht]
    exact ⟨⟨rfl, fun _ h => h, fun _ => rfl, fun _ => rfl, fun _ => rfl⟩, rfl, rfl⟩
  | worker w pc hbirth hnext hbounded ht =>
    have habsent : s.worker w = .absent := (hi.born w).mpr hbirth.le
    rw [ht]
    refine ⟨set_worker_idle pc trivial ?_ ?_ ?_, rfl, rfl⟩ <;> (rw [habsent]; rfl)
  | goesOn pc hpos hnext hbounded hbirth hjoin hended ht =>
    rw [ht]
    exact ⟨⟨rfl, fun _ h => h, fun _ => rfl, fun _ => rfl, fun _ => rfl⟩, rfl, rfl⟩

theorem wake_idle {s t : State} {w : Worker} (h : step (.wakeUp w) s = some t) :
    Idle s t ∧ t.count = s.count ∧ t.reads = s.reads := by
  obtain ⟨hpc, rfl⟩ := wake_step h
  refine ⟨set_worker_idle s.main trivial ?_ ?_ ?_, rfl, rfl⟩ <;> (rw [hpc]; rfl)

/-- Where the measurement thread clears a count, none of the workers of the
scenario has found it running. -/
theorem measurement_count {s t : State} (hi : CountInv s) (h : MeasurementStep s t)
    (k : Scenario) : t.count k = toLong (total s.flushed k) := by
  rw [h.count]
  cases hpc : s.measurement with
  | reset k' =>
    by_cases hk : k = k'
    · subst hk
      have hzero : total s.flushed k = 0 := by
        refine total_zero fun w hw => ?_
        have hnot : (s.worker w).passed = false := by
          by_contra hpassed
          have hpos := hi.phases.passed w (by simpa using hpassed)
          rw [hpc, hw, MeasurementPc.position] at hpos
          omega
        rw [State.flushed, hi.fresh w hnot, Nat.zero_sub]
      dsimp only
      rw [Function.update_self, hzero]
      rfl
    · dsimp only
      rw [Function.update_of_ne hk]
      exact hi.count k
  | _ => exact hi.count k

theorem step_count_inv (a : Action) (s t : State) (hi : CountInv s) (h : step a s = some t) :
    CountInv t := by
  have hphases := step_phase_inv a s t hi.phases h
  cases a with
  | run i =>
    cases i with
    | main =>
      obtain ⟨hidle, hcount, -⟩ := main_idle hi.phases h
      refine idle_count_inv hi hphases hidle fun k => ?_
      rw [hcount]
      exact hi.count k
    | measurement =>
      have hstep := measurement_step h
      exact idle_count_inv hi hphases (measurement_idle hstep) (measurement_count hi hstep)
    | worker w => exact worker_count_inv hi h
  | wakeUp w =>
    obtain ⟨hidle, hcount, -⟩ := wake_idle h
    refine idle_count_inv hi hphases hidle fun k => ?_
    rw [hcount]
    exact hi.count k

end ProgSistema.Benchmark
