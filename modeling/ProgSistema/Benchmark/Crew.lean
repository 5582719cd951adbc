import ProgSistema.Benchmark.Counts

/-!
# Any number of workers

The same threads for any number of workers, each in one of the two scenarios
and created at any time. The addition to a count is a load and a store, which
only the mutex holds together.
-/

set_option autoImplicit false

namespace ProgSistema.Benchmark
open CRuntime

inductive Holder (W : Type*) where
  | measurement
  | worker (w : W)
  deriving DecidableEq, Repr

/-- `loaded` is what a worker has read of the count that it is adding to, and
`executed`, the multiplications of each worker, only records. -/
structure Crew (W : Type*) where
  measurement : MeasurementPc
  worker : W → WorkerPc
  loaded : W → Option ℤ
  count : Scenario → ℤ
  running : Scenario → Bool
  mutex : Option (Holder W)
  executed : W → ℕ

namespace Crew
variable {W : Type*}

def lock (s : Crew W) (i : Holder W) : Option (Crew W) :=
  if s.mutex = none then some { s with mutex := some i } else none

def unlock (s : Crew W) : Crew W := { s with mutex := none }

def setMeasurement (s : Crew W) (pc : MeasurementPc) : Crew W := { s with measurement := pc }

def measurementThread (s : Crew W) : Option (Crew W) :=
  match s.measurement with
  | .absent => none
  | .lockReset k => (s.lock .measurement).map (·.setMeasurement (.reset k))
  | .reset k =>
    some ({ s with count := Function.update s.count k 0 }.setMeasurement (.setRunning k))
  | .setRunning k =>
    some ({ s with running := Function.update s.running k true }.setMeasurement (.unlockReset k))
  | .unlockReset k => some (s.unlock.setMeasurement (.broadcast k))
  | .broadcast k =>
    some ({ s with worker := fun w => signalled (s.worker w) }.setMeasurement (.sleeping k))
  | .sleeping k => some (s.setMeasurement (.lockStop k))
  | .lockStop k => (s.lock .measurement).map (·.setMeasurement (.stop k))
  | .stop k =>
    some ({ s with running := Function.update s.running k false }.setMeasurement (.unlockStop k))
  | .unlockStop k => some (s.unlock.setMeasurement (.printCount k))
  | .printCount k => some (s.setMeasurement (.printThroughput k))
  | .printThroughput .one => some (s.setMeasurement .pause)
  | .pause => some (s.setMeasurement (.lockReset .two))
  | .printThroughput .two => some (s.setMeasurement .speedupTwo)
  | .speedupTwo => some (s.setMeasurement .speedupOne)
  | .speedupOne => some (s.setMeasurement .ended)
  | .ended => none

theorem lock_some {s t : Crew W} {i : Holder W} (h : s.lock i = some t) :
    s.mutex = none ∧ t = { s with mutex := some i } := by
  unfold lock at h
  split at h
  · rename_i hfree
    cases h
    exact ⟨hfree, rfl⟩
  · cases h

structure MeasurementStep (s t : Crew W) : Prop where
  executed : t.executed = s.executed
  loaded : t.loaded = s.loaded
  position : t.measurement.position = s.measurement.position+1
  mutex : Mutex.Passes .measurement s.measurement.inside t.measurement.inside s.mutex t.mutex
  worker : t.worker = match s.measurement with
    | .broadcast _ => fun w => signalled (s.worker w)
    | _ => s.worker
  running : t.running = match s.measurement with
    | .setRunning k => Function.update s.running k true
    | .stop k => Function.update s.running k false
    | _ => s.running
  count : t.count = match s.measurement with
    | .reset k => Function.update s.count k 0
    | _ => s.count

theorem measurement_step {s t : Crew W} (h : measurementThread s = some t) :
    MeasurementStep s t := by
  unfold measurementThread at h
  cases hpc : s.measurement with rw [hpc] at h
  | absent | ended => cases h
  | lockReset k | lockStop k =>
    obtain ⟨u, hu, rfl⟩ := Option.map_eq_some_iff.mp h
    obtain ⟨hfree, rfl⟩ := lock_some hu
    refine ⟨rfl, rfl, ?_, .takes hfree rfl rfl, ?_, ?_, ?_⟩ <;> (rw [hpc]; rfl)
  | unlockReset k | unlockStop k =>
    cases h
    refine ⟨rfl, rfl, ?_, .releases ?_ rfl rfl, ?_, ?_, ?_⟩ <;> (rw [hpc]; rfl)
  | printThroughput k =>
    cases k <;>
      (cases h; refine ⟨rfl, rfl, ?_, .keeps ?_ rfl, ?_, ?_, ?_⟩ <;> (rw [hpc]; rfl))
  | _ =>
    cases h
    refine ⟨rfl, rfl, ?_, .keeps ?_ rfl, ?_, ?_, ?_⟩ <;> (rw [hpc]; rfl)

/-- The measurement thread leaves a worker alone, or wakes it. -/
theorem measurement_worker {s t : Crew W} (h : MeasurementStep s t) (w : W) :
    t.worker w = s.worker w ∨ t.worker w = signalled (s.worker w) := by
  rw [h.worker]
  cases s.measurement with
  | broadcast k => exact .inr rfl
  | _ => exact .inl rfl

section
variable [DecidableEq W]

def setWorker (s : Crew W) (w : W) (pc : WorkerPc) : Crew W :=
  { s with worker := Function.update s.worker w pc }

def multiply (s : Crew W) (w : W) : Crew W :=
  { s with executed := Function.update s.executed w (s.executed w+1) }

def addCount (s : Crew W) (k : Scenario) (w : W) (n : ℕ) (after : WorkerPc) : Crew W :=
  match s.loaded w with
  | none => { s with loaded := Function.update s.loaded w (some (s.count k)) }
  | some x =>
    { s with count := Function.update s.count k (toLong (x+n)),
             loaded := Function.update s.loaded w none }.setWorker w after

def workerThread (scenario : W → Scenario) (w : W) (s : Crew W) : Option (Crew W) :=
  let k := scenario w
  match s.worker w with
  | .absent => none
  | .lockStart => (s.lock (.worker w)).map (·.setWorker w .testStart)
  | .testStart =>
    some (if s.running k then s.setWorker w .unlockStart else s.unlock.setWorker w .waiting)
  | .waiting => none
  | .woken => (s.lock (.worker w)).map (·.setWorker w .testStart)
  | .unlockStart => some (s.unlock.setWorker w (.testRunning 0))
  | .testRunning localCount =>
    some (s.setWorker w (if s.running k then .multiply localCount
      else if localCount > 0 then .lockFinal localCount else .ended))
  | .multiply localCount =>
    let localCount := localCount+1
    some ((s.multiply w).setWorker w
      (if localCount % 1000 = 0 then .lockUpdate localCount else .testRunning localCount))
  | .lockUpdate localCount => (s.lock (.worker w)).map (·.setWorker w (.update localCount))
  | .update _ => some (s.addCount k w 1000 .unlockUpdate)
  | .unlockUpdate => some (s.unlock.setWorker w (.testRunning 0))
  | .lockFinal localCount => (s.lock (.worker w)).map (·.setWorker w (.updateFinal localCount))
  | .updateFinal localCount => some (s.addCount k w localCount .unlockFinal)
  | .unlockFinal => some (s.unlock.setWorker w .ended)
  | .ended => none

/-- The threads are created at any time, and a wait may return without a
signal. -/
inductive Action (W : Type*) where
  | createMeasurement
  | createWorker (w : W)
  | wakeUp (w : W)
  | measurement
  | worker (w : W)
  deriving DecidableEq, Repr

def step (scenario : W → Scenario) : Action W → Crew W → Option (Crew W)
  | .createMeasurement, s =>
    if s.measurement = .absent then some (s.setMeasurement (.lockReset .one)) else none
  | .createWorker w, s => if s.worker w = .absent then some (s.setWorker w .lockStart) else none
  | .wakeUp w, s => if s.worker w = .waiting then some (s.setWorker w .woken) else none
  | .measurement, s => measurementThread s
  | .worker w, s => workerThread scenario w s

def started : Crew W where
  measurement := .absent
  worker _ := .absent
  loaded _ := none
  count _ := 0
  running _ := false
  mutex := none
  executed _ := 0

abbrev Reachable (scenario : W → Scenario) (s : Crew W) : Prop :=
  Runs.Reachable (step scenario) started s

inductive WorkerStep (scenario : W → Scenario) (w : W) (s t : Crew W) : Prop where
  | loads {n : ℕ} (hadds : (s.worker w).adds = some n) (hloaded : s.loaded w = none)
      (ht : t = { s with loaded := Function.update s.loaded w (some (s.count (scenario w))) })
  | stores {n : ℕ} {x : ℤ} (hadds : (s.worker w).adds = some n) (hloaded : s.loaded w = some x)
      (ht : t = { s with
        count := Function.update s.count (scenario w) (toLong (x+n)),
        loaded := Function.update s.loaded w none,
        worker := Function.update s.worker w ((s.worker w).next (s.running (scenario w))) })
  | goesOn (mutex : Option (Holder W)) (hadds : (s.worker w).adds = none)
      (hmutex : Mutex.Passes (.worker w) (s.worker w).inside
        ((s.worker w).next (s.running (scenario w))).inside s.mutex mutex)
      (ht : t = { s with
        worker := Function.update s.worker w ((s.worker w).next (s.running (scenario w))),
        mutex := mutex,
        executed := Function.update s.executed w (s.executed w+(s.worker w).multiplies) })

theorem executed_still {s : Crew W} {w : W} {pc : WorkerPc} (h : pc.multiplies = 0) :
    Function.update s.executed w (s.executed w+pc.multiplies) = s.executed := by
  rw [h, add_zero, Function.update_eq_self]

variable {scenario : W → Scenario} {w : W} {s t : Crew W} {pc : WorkerPc}

theorem worker_goes_on (mutex : Option (Holder W)) (hadds : (s.worker w).adds = none)
    (hworks : (s.worker w).multiplies = 0)
    (hnext : (s.worker w).next (s.running (scenario w)) = pc)
    (hmutex : Mutex.Passes (.worker w) (s.worker w).inside pc.inside s.mutex mutex) :
    WorkerStep scenario w s ({ s with mutex := mutex }.setWorker w pc) := by
  refine .goesOn mutex hadds (hnext ▸ hmutex) ?_
  rw [executed_still hworks, hnext]
  rfl

theorem worker_locks (h : (s.lock (.worker w)).map (·.setWorker w pc) = some t)
    (hadds : (s.worker w).adds = none) (hworks : (s.worker w).multiplies = 0)
    (hnext : (s.worker w).next (s.running (scenario w)) = pc) (hin : pc.inside = true) :
    WorkerStep scenario w s t := by
  obtain ⟨u, hu, rfl⟩ := Option.map_eq_some_iff.mp h
  obtain ⟨hfree, rfl⟩ := lock_some hu
  exact worker_goes_on _ hadds hworks hnext (.takes hfree hin rfl)

theorem worker_adds {n : ℕ} (hadds : (s.worker w).adds = some n)
    (hnext : (s.worker w).next (s.running (scenario w)) = pc)
    (h : s.addCount (scenario w) w n pc = t) : WorkerStep scenario w s t := by
  rw [← h]
  unfold addCount
  cases hloaded : s.loaded w with
  | none => exact .loads hadds hloaded rfl
  | some x =>
    refine .stores hadds hloaded ?_
    rw [hnext]
    rfl

theorem worker_step (h : workerThread scenario w s = some t) : WorkerStep scenario w s t := by
  unfold workerThread at h
  cases hpc : s.worker w with (rw [hpc] at h; dsimp only at h)
  | absent | waiting | ended => cases h
  | lockStart | woken | lockUpdate n | lockFinal n =>
    exact worker_locks h (by rw [hpc]; rfl) (by rw [hpc]; rfl) (by rw [hpc]; rfl) rfl
  | testStart =>
    split at h
    · rename_i hrunning
      cases h
      refine worker_goes_on s.mutex (by rw [hpc]; rfl) (by rw [hpc]; rfl) ?_ ?_
      · rw [hpc, hrunning]
        rfl
      · rw [hpc]
        exact .keeps rfl rfl
    · rename_i hrunning
      cases h
      refine worker_goes_on none (by rw [hpc]; rfl) (by rw [hpc]; rfl) ?_ ?_
      · rw [hpc, eq_false_of_ne_true hrunning]
        rfl
      · rw [hpc]
        exact .releases rfl rfl rfl
  | unlockStart | unlockUpdate | unlockFinal =>
    cases h
    refine worker_goes_on none ?_ ?_ ?_ (.releases ?_ rfl rfl) <;> (rw [hpc]; rfl)
  | testRunning n =>
    cases h
    refine worker_goes_on s.mutex (by rw [hpc]; rfl) (by rw [hpc]; rfl) (by rw [hpc]; rfl) ?_
    rw [hpc]
    split
    · exact .keeps rfl rfl
    · split <;> exact .keeps rfl rfl
  | multiply n =>
    cases h
    refine .goesOn s.mutex (by rw [hpc]; rfl) (.keeps ?_ rfl) ?_
    · rw [hpc, WorkerPc.next]
      split <;> rfl
    · rw [hpc]
      rfl
  | update n | updateFinal n =>
    exact worker_adds (by rw [hpc]; rfl) (by rw [hpc]; rfl) (Option.some.inj h)

end

end Crew

end ProgSistema.Benchmark
