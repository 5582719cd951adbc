import ProgSistema.Benchmark.Crew

/-!
# The counts of any number of workers

What the workers of a scenario have multiplied is in the count or is still to
be added, in whatever order the threads act. The sum is one of `long long`.
-/

set_option autoImplicit false

namespace ProgSistema.Benchmark
open CRuntime

theorem adds_inside {pc : WorkerPc} (h : pc.adds ≠ none) : pc.inside = true := by
  cases pc <;> first | rfl | exact absurd rfl h

theorem adds_idle {pc : WorkerPc} {n : ℕ} (h : pc.adds = some n) : pc.multiplies = 0 := by
  cases pc <;> first | rfl | cases h

theorem adds_next_inside {pc : WorkerPc} {n : ℕ} (h : pc.adds = some n) (running : Bool) :
    (pc.next running).inside = true := by
  cases pc <;> first | rfl | cases h

namespace Crew
variable {W : Type*}

def inside (s : Crew W) : Holder W → Bool
  | .measurement => s.measurement.inside
  | .worker w => (s.worker w).inside

def flushed (s : Crew W) (w : W) : ℤ := (s.executed w : ℤ)-(s.worker w).pending

def total {M : Type*} [AddCommMonoid M] [Fintype W] (scenario : W → Scenario) (f : W → M)
    (k : Scenario) : M :=
  ∑ w with scenario w = k, f w

theorem inside_measurement {s t : Crew W} [DecidableEq W]
    (h : ∀ w, (t.worker w).inside = (s.worker w).inside) :
    t.inside = Function.update s.inside .measurement t.measurement.inside := by
  funext i
  cases i with
  | measurement => rw [Function.update_self]; rfl
  | worker w =>
    rw [Function.update_of_ne (show Holder.worker w ≠ .measurement from nofun)]
    exact h w

theorem inside_worker {s t : Crew W} [DecidableEq W] {w : W} {pc : WorkerPc}
    (hmeasurement : t.measurement = s.measurement)
    (hworker : t.worker = Function.update s.worker w pc) :
    t.inside = Function.update s.inside (.worker w) pc.inside := by
  funext i
  cases i with
  | measurement => exact congrArg MeasurementPc.inside hmeasurement
  | worker v =>
    show (t.worker v).inside = _
    rw [hworker]
    by_cases hv : v = w
    · rw [hv, Function.update_self, Function.update_self]
    · rw [Function.update_of_ne hv, Function.update_of_ne fun h => hv (Holder.worker.inj h)]
      rfl

variable [Fintype W] {scenario : W → Scenario}

structure CountInv (scenario : W → Scenario) (s : Crew W) : Prop where
  owned : Mutex.Owned s.inside s.mutex
  running : ∀ k, s.running k = true → k.base+3 < s.measurement.position
  passed : ∀ w, (s.worker w).passed = true → (scenario w).base+3 < s.measurement.position
  counts : ∀ w, (s.worker w).Counts
  pending : ∀ w, (s.worker w).pending ≤ s.executed w
  fresh : ∀ w, (s.worker w).passed = false → s.executed w = 0
  loaded : ∀ w x, s.loaded w = some x →
    (s.worker w).adds ≠ none ∧ x = s.count (scenario w)
  count : ∀ k, s.count k = toLong (total scenario s.flushed k)

theorem count_inv_started : CountInv scenario started := by
  refine ⟨?_, nofun, nofun, fun _ => trivial, fun _ => le_rfl, fun _ _ => rfl, nofun, ?_⟩
  · apply Mutex.owned_free
    intro i
    cases i <;> rfl
  · intro k
    have hzero : total scenario (started : Crew W).flushed k = 0 :=
      Finset.sum_eq_zero fun _ _ => rfl
    rw [hzero]
    rfl

structure Alike (pc pc' : WorkerPc) : Prop where
  passed : pc'.passed = pc.passed
  pending : pc'.pending = pc.pending
  inside : pc'.inside = pc.inside
  adds : pc'.adds = pc.adds
  counts : pc.Counts → pc'.Counts

theorem alike_refl (pc : WorkerPc) : Alike pc pc := ⟨rfl, rfl, rfl, rfl, id⟩

theorem signalled_alike (pc : WorkerPc) : Alike pc (signalled pc) := by
  refine ⟨signalled_passed pc, signalled_pending pc, signalled_inside pc, ?_, signalled_counts⟩
  cases pc <;> rfl

/-- A step that moves no worker on, and at most clears a count. -/
theorem quiet_inv {s t : Crew W} (hi : CountInv scenario s)
    (hexecuted : t.executed = s.executed) (hloaded : t.loaded = s.loaded)
    (hworker : ∀ w, Alike (s.worker w) (t.worker w)) (howned : Mutex.Owned t.inside t.mutex)
    (hposition : s.measurement.position ≤ t.measurement.position)
    (hrunning : ∀ k, t.running k = true → k.base+3 < t.measurement.position)
    (hcount : ∀ k, t.count k = s.count k ∨
      total scenario s.flushed k = 0 ∧ t.count k = 0 ∧ ∀ w, (s.worker w).adds = none) :
    CountInv scenario t := by
  have hflushed : t.flushed = s.flushed := by
    funext w
    rw [flushed, flushed, hexecuted, (hworker w).pending]
  refine ⟨howned, hrunning, ?_, ?_, ?_, ?_, ?_, ?_⟩
  · intro w hw
    rw [(hworker w).passed] at hw
    exact (hi.passed w hw).trans_le hposition
  · exact fun w => (hworker w).counts (hi.counts w)
  · intro w
    rw [(hworker w).pending, hexecuted]
    exact hi.pending w
  · intro w hw
    rw [(hworker w).passed] at hw
    rw [hexecuted, hi.fresh w hw]
  · intro w x hx
    rw [hloaded] at hx
    obtain ⟨hadds, heq⟩ := hi.loaded w x hx
    rw [(hworker w).adds]
    rcases hcount (scenario w) with hsame | ⟨-, -, hnone⟩
    · rw [hsame]
      exact ⟨hadds, heq⟩
    · exact absurd (hnone w) hadds
  · intro k
    rw [hflushed]
    rcases hcount k with hsame | ⟨hzero, hclear, -⟩
    · rw [hsame]
      exact hi.count k
    · rw [hclear, hzero]
      rfl

/-- Where the measurement thread clears a count, no worker of the scenario has
started, and none is adding to a count. -/
theorem measurement_count [DecidableEq W] {s t : Crew W} (hi : CountInv scenario s)
    (h : MeasurementStep s t) (k : Scenario) : t.count k = s.count k ∨
      total scenario s.flushed k = 0 ∧ t.count k = 0 ∧ ∀ w, (s.worker w).adds = none := by
  rw [h.count]
  cases hpc : s.measurement with
  | reset k' =>
    by_cases hk : k = k'
    · subst hk
      dsimp only
      rw [Function.update_self]
      refine .inr ⟨Finset.sum_eq_zero fun w hw => ?_, rfl, fun w => ?_⟩
      · have hnot : (s.worker w).passed = false := by
          by_contra hpassed
          have hpos := hi.passed w (by simpa using hpassed)
          rw [hpc, (Finset.mem_filter.mp hw).2, MeasurementPc.position] at hpos
          omega
        have hle := hi.pending w
        rw [hi.fresh w hnot] at hle
        rw [flushed, hi.fresh w hnot, Nat.le_zero.mp hle]
        rfl
      · by_contra hadds
        have hreset : s.inside .measurement = true := by
          show s.measurement.inside = true
          rw [hpc]
          rfl
        have hadding : s.inside (.worker w) = true := adds_inside hadds
        cases Mutex.owned_unique hi.owned hreset hadding
    · dsimp only
      rw [Function.update_of_ne hk]
      exact .inl rfl
  | _ => exact .inl rfl

theorem measurement_running [DecidableEq W] {s t : Crew W} (hi : CountInv scenario s)
    (h : MeasurementStep s t) (k : Scenario) (hk : t.running k = true) :
    k.base+3 < t.measurement.position := by
  have hpos := h.position
  rw [h.running] at hk
  cases hpc : s.measurement with
  | setRunning k' =>
    rw [hpc] at hk hpos
    by_cases heq : k = k'
    · rw [MeasurementPc.position] at hpos
      rw [heq]
      omega
    · dsimp only at hk
      rw [Function.update_of_ne heq] at hk
      have hold := hi.running k hk
      rw [hpc] at hold
      omega
  | stop k' =>
    rw [hpc] at hk
    by_cases heq : k = k'
    · dsimp only at hk
      rw [heq, Function.update_self] at hk
      cases hk
    · dsimp only at hk
      rw [Function.update_of_ne heq] at hk
      have hold := hi.running k hk
      omega
  | _ =>
    rw [hpc] at hk
    have hold := hi.running k hk
    omega

/-- While a worker adds to a count, it alone may have loaded one. -/
theorem others_not_loaded {s : Crew W} {v w : W} {n : ℕ} (hi : CountInv scenario s) (hv : v ≠ w)
    (hadds : (s.worker w).adds = some n) : s.loaded v = none := by
  cases hloaded : s.loaded v with
  | none => rfl
  | some x =>
    obtain ⟨hadding, -⟩ := hi.loaded v x hloaded
    have hin : s.inside (.worker v) = true := adds_inside hadding
    have hself : s.inside (.worker w) = true := adds_inside (by rw [hadds]; simp)
    exact absurd (Holder.worker.inj (Mutex.owned_unique hi.owned hin hself)) hv

/-- Before the measurement thread is created no scenario runs. -/
theorem create_inv {s : Crew W} (hi : CountInv scenario s) (habsent : s.measurement = .absent) :
    CountInv scenario (s.setMeasurement (.lockReset .one)) := by
  have hlow : ∀ k, s.running k ≠ true := by
    intro k hk
    have hpos := hi.running k hk
    rw [habsent] at hpos
    exact absurd hpos (Nat.not_lt_zero _)
  have hinside : (s.setMeasurement (.lockReset .one)).inside = s.inside := by
    funext i
    cases i with
    | measurement => exact (congrArg MeasurementPc.inside habsent).symm
    | worker w => rfl
  refine quiet_inv hi rfl rfl (fun w => alike_refl _) ?_ ?_ (fun k hk => absurd hk (hlow k))
    fun k => .inl rfl
  · rw [hinside]
    exact hi.owned
  · rw [habsent]
    exact Nat.zero_le _

section
variable [DecidableEq W]

theorem total_add (f : W → ℤ) (w : W) (n : ℤ) (k : Scenario) :
    total scenario (Function.update f w (f w+n)) k =
      total scenario f k+if scenario w = k then n else 0 := by
  unfold total
  rw [sum_update_add]
  simp

/-- A worker that goes on has added what it has no more. -/
theorem flushed_next {s t : Crew W} {w : W} (hi : CountInv scenario s) (running : Bool)
    (hworker : t.worker = Function.update s.worker w ((s.worker w).next running))
    (hexecuted : t.executed =
      Function.update s.executed w (s.executed w+(s.worker w).multiplies)) :
    t.flushed = Function.update s.flushed w (s.flushed w+((s.worker w).adds.getD 0 : ℕ)) := by
  funext v
  unfold flushed
  rw [hexecuted, hworker]
  by_cases hv : v = w
  · have hnext := next_pending running (hi.counts w)
    rw [hv, Function.update_self, Function.update_self, Function.update_self]
    omega
  · rw [Function.update_of_ne hv, Function.update_of_ne hv, Function.update_of_ne hv]

/-- What does not depend on the counts survives where a worker goes on. -/
theorem next_inv {s t : Crew W} {w : W} (hi : CountInv scenario s)
    (hmeasurement : t.measurement = s.measurement) (hrunning : t.running = s.running)
    (hworker : t.worker = Function.update s.worker w
      ((s.worker w).next (s.running (scenario w))))
    (hexecuted : t.executed = Function.update s.executed w (s.executed w+(s.worker w).multiplies))
    (howned : Mutex.Owned t.inside t.mutex)
    (hloaded : ∀ v x, t.loaded v = some x → v ≠ w ∧ s.loaded v = some x ∧
      t.count (scenario v) = s.count (scenario v))
    (hcount : ∀ k, t.count k = toLong (total scenario t.flushed k)) : CountInv scenario t := by
  refine ⟨howned, ?_, ?_, ?_, ?_, ?_, ?_, hcount⟩
  · rw [hrunning, hmeasurement]
    exact hi.running
  · rw [hworker, hmeasurement]
    apply (Function.forall_update_iff s.worker fun v q => q.passed = true → _ < _).mpr
    refine ⟨fun hpassed => ?_, fun v _ => hi.passed v⟩
    rcases (passed_next _ _).mp hpassed with hold | ⟨-, hnow⟩
    · exact hi.passed w hold
    · exact hi.running _ hnow
  · rw [hworker]
    apply (Function.forall_update_iff s.worker fun v q => q.Counts).mpr
    exact ⟨next_counts (hi.counts w), fun v _ => hi.counts v⟩
  · intro v
    rw [hworker, hexecuted]
    by_cases hv : v = w
    · have hnext := next_pending (s.running (scenario w)) (hi.counts w)
      have hle := hi.pending w
      rw [hv, Function.update_self, Function.update_self]
      omega
    · rw [Function.update_of_ne hv, Function.update_of_ne hv]
      exact hi.pending v
  · intro v
    rw [hworker, hexecuted]
    by_cases hv : v = w
    · rw [hv, Function.update_self, Function.update_self]
      intro hnot
      rw [Bool.eq_false_iff, ne_eq, passed_next, not_or] at hnot
      have hbefore : (s.worker w).passed = false := by simpa using hnot.1
      rw [hi.fresh w hbefore, waits_idle hbefore]
    · rw [Function.update_of_ne hv, Function.update_of_ne hv]
      exact hi.fresh v
  · intro v x hx
    obtain ⟨hv, hold, hsame⟩ := hloaded v x hx
    rw [hworker, Function.update_of_ne hv, hsame]
    exact hi.loaded v x hold

theorem load_inv {s : Crew W} {w : W} {n : ℕ} (hi : CountInv scenario s)
    (hadds : (s.worker w).adds = some n) : CountInv scenario
      { s with loaded := Function.update s.loaded w (some (s.count (scenario w))) } := by
  refine ⟨hi.owned, hi.running, hi.passed, hi.counts, hi.pending, hi.fresh, ?_, hi.count⟩
  apply (Function.forall_update_iff s.loaded fun v y => ∀ x, y = some x →
    (s.worker v).adds ≠ none ∧ x = s.count (scenario v)).mpr
  refine ⟨fun x hx => ⟨?_, (Option.some.inj hx).symm⟩, fun v _ => hi.loaded v⟩
  rw [hadds]
  exact Option.some_ne_none n

/-- The count has not changed since the worker loaded it, so that the store
adds to it. -/
theorem store_inv {s t : Crew W} {w : W} {n : ℕ} {x : ℤ} (hi : CountInv scenario s)
    (hadds : (s.worker w).adds = some n) (hloaded : s.loaded w = some x)
    (ht : t = { s with
      count := Function.update s.count (scenario w) (toLong (x+n)),
      loaded := Function.update s.loaded w none,
      worker := Function.update s.worker w ((s.worker w).next (s.running (scenario w))) }) :
    CountInv scenario t := by
  obtain ⟨-, hx⟩ := hi.loaded w x hloaded
  have hexecuted : t.executed =
      Function.update s.executed w (s.executed w+(s.worker w).multiplies) := by
    rw [executed_still (adds_idle hadds), ht]
  have hmoved : t.worker = Function.update s.worker w
      ((s.worker w).next (s.running (scenario w))) := by rw [ht]
  refine next_inv hi (by rw [ht]) (by rw [ht]) hmoved hexecuted ?_ ?_ ?_
  · have hself : (s.worker w).inside = true := adds_inside (by rw [hadds]; simp)
    rw [inside_worker (by rw [ht]) hmoved]
    exact Mutex.owned_step hi.owned
      (.keeps ((adds_next_inside hadds _).trans hself.symm) (by rw [ht]))
  · intro v y hy
    rw [ht] at hy
    dsimp only at hy
    by_cases hv : v = w
    · rw [hv, Function.update_self] at hy
      cases hy
    · rw [Function.update_of_ne hv, others_not_loaded hi hv hadds] at hy
      cases hy
  · intro k
    rw [flushed_next hi _ hmoved hexecuted, total_add, hadds, Option.getD_some, ht]
    dsimp only
    by_cases hk : scenario w = k
    · rw [hk, Function.update_self, if_pos rfl, hx, hk, hi.count k, to_long_add]
    · rw [Function.update_of_ne (Ne.symm hk), if_neg hk, add_zero]
      exact hi.count k

theorem worker_inv {s t : Crew W} {w : W} (hi : CountInv scenario s)
    (h : WorkerStep scenario w s t) : CountInv scenario t := by
  cases h with
  | loads hadds hloaded ht =>
    rw [ht]
    exact load_inv hi hadds
  | stores hadds hloaded ht => exact store_inv hi hadds hloaded ht
  | goesOn mutex hadds hmutex ht =>
    have hmoved : t.worker = Function.update s.worker w
        ((s.worker w).next (s.running (scenario w))) := by rw [ht]
    have hexecuted : t.executed =
        Function.update s.executed w (s.executed w+(s.worker w).multiplies) := by rw [ht]
    refine next_inv hi (by rw [ht]) (by rw [ht]) hmoved hexecuted ?_ ?_ ?_
    · rw [inside_worker (by rw [ht]) hmoved]
      exact Mutex.owned_step hi.owned (by rw [ht]; exact hmutex)
    · intro v y hy
      rw [ht] at hy
      refine ⟨?_, hy, by rw [ht]⟩
      rintro rfl
      exact (hi.loaded v y hy).1 hadds
    · intro k
      rw [flushed_next hi _ hmoved hexecuted, hadds, Option.getD_none, Nat.cast_zero, add_zero,
        Function.update_eq_self, ht]
      exact hi.count k

/-- A worker is created, or woken. -/
theorem set_worker_inv {s : Crew W} {w : W} {pc : WorkerPc} (hi : CountInv scenario s)
    (h : Alike (s.worker w) pc) : CountInv scenario (s.setWorker w pc) := by
  have halike : ∀ v, Alike (s.worker v) (Function.update s.worker w pc v) :=
    (Function.forall_update_iff s.worker fun v q => Alike (s.worker v) q).mpr
      ⟨h, fun v _ => alike_refl (s.worker v)⟩
  have hinside : (s.setWorker w pc).inside = s.inside := by
    have hself : s.inside (.worker w) = pc.inside := h.inside.symm
    rw [inside_worker (s := s) (t := s.setWorker w pc) rfl rfl, ← hself, Function.update_eq_self]
  refine quiet_inv hi rfl rfl halike ?_ le_rfl hi.running fun k => .inl rfl
  rw [hinside]
  exact hi.owned

theorem measurement_inv {s t : Crew W} (hi : CountInv scenario s) (h : MeasurementStep s t) :
    CountInv scenario t := by
  have halike : ∀ w, Alike (s.worker w) (t.worker w) := by
    intro w
    rcases measurement_worker h w with hsame | hwoken
    · rw [hsame]
      exact alike_refl _
    · rw [hwoken]
      exact signalled_alike _
  refine quiet_inv hi h.executed h.loaded halike ?_ ?_ (measurement_running hi h)
    (measurement_count hi h)
  · rw [inside_measurement fun w => (halike w).inside]
    exact Mutex.owned_step hi.owned h.mutex
  · rw [h.position]
    exact Nat.le_succ _

theorem step_inv (a : Action W) (s t : Crew W) (hi : CountInv scenario s)
    (h : step scenario a s = some t) : CountInv scenario t := by
  cases a with
  | createMeasurement =>
    rw [step] at h
    split at h
    · rename_i habsent
      cases h
      exact create_inv hi habsent
    · cases h
  | createWorker w | wakeUp w =>
    rw [step] at h
    split at h
    · rename_i hpc
      cases h
      exact set_worker_inv hi (by rw [hpc]; exact ⟨rfl, rfl, rfl, rfl, id⟩)
    · cases h
  | measurement => exact measurement_inv hi (measurement_step h)
  | worker w => exact worker_inv hi (worker_step h)

/-- The count of a scenario and what its workers have still to add make up
what they have multiplied, up to the range of a `long long`. None of them has
multiplied before the count was cleared, each has counted less than a thousand
when it tests the flag, and all have been counted when they have ended. -/
theorem multiplications_counted (scenario : W → Scenario) (s : Crew W)
    (h : Reachable scenario s) (k : Scenario) :
    s.count k = toLong (total scenario s.flushed k) ∧
      (total scenario s.executed k < 2^63 →
        s.count k+(total scenario (fun w => (s.worker w).pending) k : ℕ) =
          (total scenario s.executed k : ℕ)) ∧
      (s.measurement.position ≤ k.base+2 → total scenario s.executed k = 0) ∧
      (∀ w n, s.worker w = .testRunning n → n < 1000) ∧
      ((∀ w, scenario w = k → s.worker w = .ended) →
        s.count k = toLong (total scenario s.executed k : ℕ) ∧
          (total scenario s.executed k < 2^63 →
            s.count k = (total scenario s.executed k : ℕ))) := by
  have hi := Runs.reachable_invariant _ (CountInv scenario) count_inv_started step_inv h
  have hflushed : total scenario s.flushed k = (total scenario s.executed k : ℕ)-
      (total scenario (fun w => (s.worker w).pending) k : ℕ) := by
    unfold total flushed
    rw [Finset.sum_sub_distrib, Nat.cast_sum, Nat.cast_sum]
  have hpending : total scenario (fun w => (s.worker w).pending) k ≤ total scenario s.executed k :=
    Finset.sum_le_sum fun w _ => hi.pending w
  have hexact : total scenario s.executed k < 2^63 → s.count k = total scenario s.flushed k := by
    intro hlt
    rw [hi.count k]
    exact (to_long_eq_iff _).mpr ⟨by omega, by omega⟩
  refine ⟨hi.count k, fun hlt => ?_, fun hpos => ?_, fun w n hw => ?_, fun hended => ?_⟩
  · rw [hexact hlt, hflushed]
    omega
  · refine Finset.sum_eq_zero fun w hw => hi.fresh w ?_
    by_contra hpassed
    have hlate := hi.passed w (by simpa using hpassed)
    rw [(Finset.mem_filter.mp hw).2] at hlate
    omega
  · have hcounts := hi.counts w
    rw [hw] at hcounts
    exact hcounts
  · have hnone : total scenario (fun w => (s.worker w).pending) k = 0 := by
      refine Finset.sum_eq_zero fun w hw => ?_
      rw [hended w (Finset.mem_filter.mp hw).2]
      rfl
    rw [hnone, Nat.cast_zero, sub_zero] at hflushed
    rw [← hflushed]
    exact ⟨hi.count k, hexact⟩

end

def single (_ : Fin 1) : Scenario := .one

def pair (_ : Fin 2) : Scenario := .one

def oneMultiplied : List (Action (Fin 2)) :=
  [.createMeasurement, .createWorker 0, .createWorker 1]++List.replicate 4 .measurement++
    List.replicate 5 (.worker 0)

theorem one_multiplied_run :
    (Runs.exec (step pair) oneMultiplied started).isSome = true := by
  decide +kernel

def oneMultipliedEnd : Crew (Fin 2) :=
  (Runs.exec (step pair) oneMultiplied started).get one_multiplied_run

theorem one_multiplication_counted : oneMultipliedEnd.count .one+
    (total pair (fun w => (oneMultipliedEnd.worker w).pending) .one : ℕ) =
      (total pair oneMultipliedEnd.executed .one : ℕ) :=
  (multiplications_counted pair oneMultipliedEnd (Runs.reachable_get one_multiplied_run)
    .one).2.1 (by decide +kernel)

def midway (m n : ℕ) : Crew (Fin 1) where
  measurement := .sleeping .one
  worker _ := .testRunning n
  loaded _ := none
  count := Function.update (fun _ => 0) .one (toLong (1000*m : ℕ))
  running := Function.update (fun _ => false) .one true
  mutex := none
  executed _ := 1000*m+n

theorem update_single {β : Type*} (f : Fin 1 → β) (x : β) : Function.update f 0 x = fun _ => x :=
  Function.update_eq_const_of_subsingleton 0 x f

theorem midway_start : Reachable single (midway 0 0) := by
  refine ⟨.createMeasurement::.createWorker 0::List.replicate 5 .measurement++
    List.replicate 3 (.worker 0), ?_⟩
  simp [Runs.exec, step, started, setMeasurement, setWorker, measurementThread, workerThread, lock,
    unlock, update_single, signalled, single, midway, List.replicate, toLong]

theorem midway_multiplies (m n : ℕ) (hn : n < 999) :
    Runs.exec (step single) [.worker 0, .worker 0] (midway m n) = some (midway m (n+1)) := by
  have hmod : (n+1) % 1000 ≠ 0 := by omega
  simp [Runs.exec, step, workerThread, midway, setWorker, multiply, update_single, single, hmod]
  rfl

theorem midway_adds (m : ℕ) :
    Runs.exec (step single) (List.replicate 6 (.worker 0)) (midway m 999) =
      some (midway (m+1) 0) := by
  have hcount : toLong (toLong (1000*m)+(1000 : ℕ)) = toLong (1000*(m+1)) := by
    rw [to_long_add, Nat.cast_ofNat, mul_add, mul_one]
  simp [Runs.exec, step, workerThread, midway, setWorker, multiply, update_single, single,
    List.replicate, lock, unlock, addCount]
  exact ⟨congrArg _ hcount, funext fun _ => rfl⟩

theorem midway_reachable (m n : ℕ) (hn : n ≤ 999) : Reachable single (midway m n) := by
  have hgrows : ∀ m n, n ≤ 999 → Reachable single (midway m 0) → Reachable single (midway m n) := by
    intro m n hn hstart
    induction n with
    | zero => exact hstart
    | succ n ih =>
      obtain ⟨as, has⟩ := ih (by omega)
      refine ⟨as++[.worker 0, .worker 0], ?_⟩
      rw [Runs.exec_append, has]
      exact midway_multiplies m n (by omega)
  refine hgrows m n hn ?_
  clear hn
  induction m with
  | zero => exact midway_start
  | succ m ih =>
    obtain ⟨as, has⟩ := hgrows m 999 le_rfl ih
    refine ⟨as++List.replicate 6 (.worker 0), ?_⟩
    rw [Runs.exec_append, has]
    exact midway_adds m

/-- After 2^63 multiplications the count is not their number. -/
theorem count_overflows : ¬ ∀ (s : Crew (Fin 1)) (k : Scenario), Reachable single s →
    s.count k+(total single (fun w => (s.worker w).pending) k : ℕ) =
      (total single s.executed k : ℕ) := by
  intro h
  have hsame := h (midway (2^63) 0) .one (midway_reachable _ 0 (Nat.zero_le _))
  have hcount : (midway (2^63) 0).count .one = 0 := by decide
  have hpending : total single (fun w => ((midway (2^63) 0).worker w).pending) .one = 0 := rfl
  have hexecuted : total single (midway (2^63) 0).executed .one = 1000*2^63 := rfl
  rw [hcount, hpending, hexecuted] at hsame
  cases hsame

end Crew

end ProgSistema.Benchmark
