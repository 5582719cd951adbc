import ProgSistema.Benchmark.Model
import ProgSistema.Lib.Mutex

/-!
# The phases of the benchmark

`main` and the measurement thread run through their statements once, so that
the numbers of their statements tell what has been created, started and stopped
so far. A worker never finds a scenario running that the measurement thread is
not in.
-/

set_option autoImplicit false

namespace ProgSistema.Benchmark
open CRuntime

def Scenario.base : Scenario → ℕ
  | one => 0
  | two => 12

def MeasurementPc.position : MeasurementPc → ℕ
  | absent => 0
  | lockReset k => k.base+1
  | reset k => k.base+2
  | setRunning k => k.base+3
  | unlockReset k => k.base+4
  | broadcast k => k.base+5
  | sleeping k => k.base+6
  | lockStop k => k.base+7
  | stop k => k.base+8
  | unlockStop k => k.base+9
  | printCount k => k.base+10
  | printThroughput k => k.base+11
  | pause => 12
  | speedupTwo => 24
  | speedupOne => 25
  | ended => 26

def Scenario.statements (k : Scenario) : List MeasurementPc :=
  [.lockReset k, .reset k, .setRunning k, .unlockReset k, .broadcast k, .sleeping k, .lockStop k,
    .stop k, .unlockStop k, .printCount k, .printThroughput k]

theorem position_get (pc : MeasurementPc) :
    (.absent::Scenario.one.statements++.pause::Scenario.two.statements++
      [.speedupTwo, .speedupOne, .ended])[pc.position]? = some pc := by
  cases pc with
  | absent | pause | speedupTwo | speedupOne | ended => rfl
  | _ k => cases k <;> rfl

theorem position_injective {pc pc' : MeasurementPc} (h : pc.position = pc'.position) :
    pc = pc' := by
  have hget := position_get pc
  rw [h, position_get pc'] at hget
  exact (Option.some.inj hget).symm

theorem position_le (pc : MeasurementPc) : pc.position ≤ 26 := by
  obtain ⟨hlt, -⟩ := List.getElem?_eq_some_iff.mp (position_get pc)
  exact Nat.lt_succ_iff.mp hlt

def MainPc.position : MainPc → ℕ
  | createMeasurement => 0
  | createSingle => 1
  | joinSingle => 2
  | createMulti i => 3+i
  | joinMulti i => 7+i
  | joinMeasurement => 11
  | ended => 12

def MainPc.Bounded : MainPc → Prop
  | createMulti i => i ≤ numThreadsScenario2
  | joinMulti i => i ≤ numThreadsScenario2
  | _ => True

theorem main_position_le {pc : MainPc} (h : pc.Bounded) : pc.position ≤ 12 := by
  cases pc with
  | createMulti i =>
    have hi : i ≤ 3 := h
    exact show 3+i ≤ 12 by omega
  | joinMulti i =>
    have hi : i ≤ 3 := h
    exact show 7+i ≤ 12 by omega
  | _ => decide

def Worker.birth : Worker → ℕ
  | single => 1
  | multi i => 3+i

def Worker.join : Worker → ℕ
  | single => 2
  | multi i => 7+i

def WorkerPc.inside : WorkerPc → Bool
  | testStart | unlockStart | update _ | unlockUpdate | updateFinal _ | unlockFinal => true
  | _ => false

def MeasurementPc.inside : MeasurementPc → Bool
  | reset _ | setRunning _ | unlockReset _ | stop _ | unlockStop _ => true
  | _ => false

def State.inside (s : State) : Thread → Bool
  | .main => false
  | .measurement => s.measurement.inside
  | .worker w => (s.worker w).inside

def WorkerPc.passed : WorkerPc → Bool
  | absent | lockStart | testStart | waiting | woken => false
  | _ => true

def WorkerPc.next (running : Bool) : WorkerPc → WorkerPc
  | absent => absent
  | lockStart => testStart
  | testStart => if running then unlockStart else waiting
  | waiting => waiting
  | woken => testStart
  | unlockStart => testRunning 0
  | testRunning localCount =>
    if running then multiply localCount
    else if localCount > 0 then lockFinal localCount else ended
  | multiply localCount =>
    if (localCount+1) % 1000 = 0 then lockUpdate (localCount+1) else testRunning (localCount+1)
  | lockUpdate localCount => update localCount
  | update _ => unlockUpdate
  | unlockUpdate => testRunning 0
  | lockFinal localCount => updateFinal localCount
  | updateFinal _ => unlockFinal
  | unlockFinal => ended
  | ended => ended

def WorkerPc.adds : WorkerPc → Option ℕ
  | update _ => some 1000
  | updateFinal localCount => some localCount
  | _ => none

def WorkerPc.multiplies : WorkerPc → ℕ
  | multiply _ => 1
  | _ => 0

structure WorkerStep (w : Worker) (s t : State) : Prop where
  main : t.main = s.main
  measurement : t.measurement = s.measurement
  running : t.running = s.running
  reads : t.reads = s.reads
  worker : t.worker = Function.update s.worker w ((s.worker w).next (s.running w.scenario))
  mutex : Mutex.Passes (.worker w) (s.worker w).inside
    ((s.worker w).next (s.running w.scenario)).inside s.mutex t.mutex
  count : t.count = match (s.worker w).adds with
    | none => s.count
    | some n => Function.update s.count w.scenario (toLong (s.count w.scenario+n))
  executed : t.executed =
    Function.update s.executed w (s.executed w+(s.worker w).multiplies)

theorem lock_some {s t : State} {i : Thread} (h : s.lock i = some t) :
    s.mutex = none ∧ t = { s with mutex := some i } := by
  unfold State.lock at h
  split at h
  · rename_i hfree
    cases h
    exact ⟨hfree, rfl⟩
  · cases h

theorem executed_still {w : Worker} {s : State} {pc : WorkerPc} (h : pc.multiplies = 0) :
    s.executed = Function.update s.executed w (s.executed w+pc.multiplies) := by
  rw [h, add_zero, Function.update_eq_self]

theorem worker_lock {w : Worker} {s t : State} {pc : WorkerPc}
    (h : (s.lock (.worker w)).map (·.setWorker w pc) = some t)
    (hadds : (s.worker w).adds = none) (hworks : (s.worker w).multiplies = 0)
    (hnext : (s.worker w).next (s.running w.scenario) = pc) (hin : pc.inside = true) :
    WorkerStep w s t := by
  obtain ⟨u, hu, rfl⟩ := Option.map_eq_some_iff.mp h
  obtain ⟨hfree, rfl⟩ := lock_some hu
  refine ⟨rfl, rfl, rfl, rfl, ?_, .takes hfree ?_ rfl, ?_, executed_still hworks⟩
  · rw [hnext]
    rfl
  · rw [hnext, hin]
  · rw [hadds]
    rfl

theorem worker_step {w : Worker} {s t : State} (h : workerThread w s = some t) :
    WorkerStep w s t := by
  unfold workerThread at h
  cases hpc : s.worker w with (rw [hpc] at h; dsimp only at h)
  | absent | waiting | ended => cases h
  | lockStart | woken | lockUpdate n | lockFinal n =>
    exact worker_lock h (by rw [hpc]; rfl) (by rw [hpc]; rfl) (by rw [hpc]; rfl) rfl
  | testStart =>
    split at h
    · rename_i hrunning
      have hnext : (s.worker w).next (s.running w.scenario) = .unlockStart := by
        rw [hpc, hrunning]
        rfl
      cases h
      refine ⟨rfl, rfl, rfl, rfl, ?_, .keeps ?_ rfl, ?_, executed_still ?_⟩ <;>
        first | rw [hnext]; rfl | rw [hpc]; rfl | rw [hnext, hpc]; rfl
    · rename_i hrunning
      have hnext : (s.worker w).next (s.running w.scenario) = .waiting := by
        rw [hpc, eq_false_of_ne_true hrunning]
        rfl
      cases h
      refine ⟨rfl, rfl, rfl, rfl, ?_, .releases ?_ ?_ rfl, ?_, executed_still ?_⟩ <;>
        first | rw [hnext]; rfl | rw [hpc]; rfl
  | unlockStart | unlockUpdate | unlockFinal =>
    cases h
    refine ⟨rfl, rfl, rfl, rfl, ?_, .releases ?_ ?_ rfl, ?_, executed_still ?_⟩ <;>
      (rw [hpc]; rfl)
  | testRunning n =>
    cases h
    refine ⟨rfl, rfl, rfl, rfl, ?_, .keeps ?_ rfl, ?_, executed_still ?_⟩
    · rw [hpc]
      rfl
    · rw [hpc, WorkerPc.next]
      split
      · rfl
      · split <;> rfl
    · rw [hpc]
      rfl
    · rw [hpc]
      rfl
  | multiply n =>
    cases h
    refine ⟨rfl, rfl, rfl, rfl, ?_, .keeps ?_ rfl, ?_, ?_⟩
    · rw [hpc]
      rfl
    · rw [hpc, WorkerPc.next]
      split <;> rfl
    · rw [hpc]
      rfl
    · rw [hpc]
      rfl
  | update n | updateFinal n =>
    cases h
    refine ⟨rfl, rfl, rfl, rfl, ?_, .keeps ?_ rfl, ?_, executed_still ?_⟩ <;> (rw [hpc]; rfl)

theorem wake_step {w : Worker} {s t : State} (h : step (.wakeUp w) s = some t) :
    s.worker w = .waiting ∧ t = s.setWorker w .woken := by
  simp only [step] at h
  split at h
  · rename_i hpc
    cases h
    exact ⟨hpc, rfl⟩
  · cases h

def MeasurementPc.readsCount : MeasurementPc → Option Scenario
  | printCount k | printThroughput k => some k
  | speedupTwo => some .two
  | speedupOne => some .one
  | _ => none

structure MeasurementStep (s t : State) : Prop where
  main : t.main = s.main
  executed : t.executed = s.executed
  position : t.measurement.position = s.measurement.position+1
  mutex : Mutex.Passes .measurement s.measurement.inside t.measurement.inside s.mutex t.mutex
  worker : t.worker = match s.measurement with
    | .broadcast _ => fun w => signalled (s.worker w)
    | _ => s.worker
  running : t.running = match s.measurement with
    | .setRunning k => Function.update s.running k true
    | .stop k => Function.update s.running k false
    | _ => s.running
  count : t.count = match s.measurement with
    | .reset k => Function.update s.count k 0
    | _ => s.count
  reads : t.reads = match s.measurement.readsCount with
    | some k => s.reads++[(k, s.count k)]
    | none => s.reads

theorem measurement_step {s t : State} (h : measurementThread s = some t) :
    MeasurementStep s t := by
  unfold measurementThread at h
  cases hpc : s.measurement with rw [hpc] at h
  | absent | ended => cases h
  | lockReset k | lockStop k =>
    obtain ⟨u, hu, rfl⟩ := Option.map_eq_some_iff.mp h
    obtain ⟨hfree, rfl⟩ := lock_some hu
    refine ⟨rfl, rfl, ?_, .takes hfree rfl rfl, ?_, ?_, ?_, ?_⟩ <;> (rw [hpc]; rfl)
  | unlockReset k | unlockStop k =>
    cases h
    refine ⟨rfl, rfl, ?_, .releases ?_ rfl rfl, ?_, ?_, ?_, ?_⟩ <;> (rw [hpc]; rfl)
  | printThroughput k =>
    cases k <;>
      (cases h; refine ⟨rfl, rfl, ?_, .keeps ?_ rfl, ?_, ?_, ?_, ?_⟩ <;> (rw [hpc]; rfl))
  | _ =>
    cases h
    refine ⟨rfl, rfl, ?_, .keeps ?_ rfl, ?_, ?_, ?_, ?_⟩ <;> (rw [hpc]; rfl)

inductive MainStep (s t : State) : Prop where
  | measurement (hpc : s.main = .createMeasurement)
      (ht : t = (s.setMeasurement (.lockReset .one)).setMain .createSingle)
  | worker (w : Worker) (pc : MainPc) (hbirth : s.main.position = w.birth)
      (hnext : pc.position = w.birth+1) (hbounded : pc.Bounded)
      (ht : t = (s.setWorker w .lockStart).setMain pc)
  | goesOn (pc : MainPc) (hpos : 0 < s.main.position) (hnext : pc.position = s.main.position+1)
      (hbounded : pc.Bounded)
      (hbirth : ∀ w : Worker, s.main.position ≠ w.birth)
      (hjoin : ∀ w : Worker, s.main.position = w.join → s.worker w = .ended)
      (hended : pc = .ended → s.measurement = .ended) (ht : t = s.setMain pc)

theorem birth_bounds (w : Worker) : w.birth = 1 ∨ 3 ≤ w.birth ∧ w.birth ≤ 5 := by
  cases w with
  | single => exact .inl rfl
  | multi i =>
    have hi : (i : ℕ) < 3 := i.isLt
    exact .inr ⟨Nat.le_add_right 3 i, show 3+(i : ℕ) ≤ 5 by omega⟩

theorem join_bounds (w : Worker) : w.join = 2 ∨ 7 ≤ w.join ∧ w.join ≤ 9 := by
  cases w with
  | single => exact .inl rfl
  | multi i =>
    have hi : (i : ℕ) < 3 := i.isLt
    exact .inr ⟨Nat.le_add_right 7 i, show 7+(i : ℕ) ≤ 9 by omega⟩

theorem join_injective {v w : Worker} (h : v.join = w.join) : v = w := by
  cases v with
  | single =>
    cases w with
    | single => rfl
    | multi j => exact absurd (show 2 = 7+(j : ℕ) from h) (by omega)
  | multi i =>
    cases w with
    | single => exact absurd (show 7+(i : ℕ) = 2 from h) (by omega)
    | multi j => exact congrArg _ (Fin.ext (Nat.add_left_cancel h))

/-- Behind a statement that neither creates nor joins a worker. -/
theorem main_passes {s : State} {pc : MainPc} {m : ℕ} (hpos : s.main.position = m)
    (hplace : m = 6 ∨ 10 ≤ m) (hnext : pc.position = m+1) (hbounded : pc.Bounded)
    (hended : pc = .ended → s.measurement = .ended) : MainStep s (s.setMain pc) := by
  refine .goesOn pc (by omega) (by rw [hpos, hnext]) hbounded ?_ ?_ hended rfl
  · intro w hw
    have hbirth := birth_bounds w
    omega
  · intro w hw
    have hjoin := join_bounds w
    omega

theorem main_joins {s : State} {pc : MainPc} {w : Worker} (hpos : s.main.position = w.join)
    (hended : s.worker w = .ended) (hnext : pc.position = w.join+1) (hbounded : pc.Bounded)
    (hne : pc ≠ .ended) : MainStep s (s.setMain pc) := by
  have hjoin := join_bounds w
  refine .goesOn pc (by omega) (by rw [hpos, hnext]) hbounded ?_ ?_ (fun h => absurd h hne) rfl
  · intro v hv
    have hbirth := birth_bounds v
    omega
  · intro v hv
    obtain rfl : v = w := join_injective (hv.symm.trans hpos)
    exact hended

theorem main_step {s t : State} (hb : s.main.Bounded) (h : mainThread s = some t) :
    MainStep s t := by
  unfold mainThread at h
  cases hpc : s.main with (rw [hpc] at h hb; dsimp only at h)
  | createMeasurement =>
    cases h
    exact .measurement hpc rfl
  | createSingle =>
    cases h
    exact .worker .single .joinSingle (by rw [hpc]; rfl) rfl trivial rfl
  | joinSingle =>
    split at h
    · rename_i hended
      cases h
      have hpos : s.main.position = Worker.single.join := by rw [hpc]; rfl
      exact main_joins hpos hended rfl (Nat.zero_le _) nofun
    · cases h
  | createMulti i =>
    split at h
    · rename_i hi
      cases h
      refine .worker (.multi ⟨i, hi⟩) (.createMulti (i+1)) (by rw [hpc]; rfl) ?_ hi rfl
      exact (Nat.add_assoc 3 i 1).symm
    · rename_i hi
      cases h
      obtain rfl : i = numThreadsScenario2 := le_antisymm hb (not_lt.mp hi)
      have hpos : s.main.position = 6 := by rw [hpc]; rfl
      exact main_passes hpos (.inl rfl) rfl (Nat.zero_le _) nofun
  | joinMulti i =>
    split at h
    · rename_i hi
      split at h
      · rename_i hended
        cases h
        have hpos : s.main.position = (Worker.multi ⟨i, hi⟩).join := by rw [hpc]; rfl
        exact main_joins hpos hended (Nat.add_assoc 7 i 1).symm hi nofun
      · cases h
    · rename_i hi
      cases h
      obtain rfl : i = numThreadsScenario2 := le_antisymm hb (not_lt.mp hi)
      have hpos : s.main.position = 10 := by rw [hpc]; rfl
      exact main_passes hpos (.inr le_rfl) rfl trivial nofun
  | joinMeasurement =>
    split at h
    · rename_i hended
      cases h
      have hpos : s.main.position = 11 := by rw [hpc]; rfl
      exact main_passes hpos (.inr (by decide)) rfl trivial fun _ => hended
    · cases h
  | ended => cases h

structure PhaseInv (s : State) : Prop where
  bounded : s.main.Bounded
  owned : Mutex.Owned s.inside s.mutex
  created : s.measurement = .absent ↔ s.main = .createMeasurement
  born : ∀ w, s.worker w = .absent ↔ s.main.position ≤ w.birth
  joined : ∀ w, w.join < s.main.position → s.worker w = .ended
  completed : s.main = .ended → s.measurement = .ended
  running : ∀ k, s.running k = true ↔
    k.base+3 < s.measurement.position ∧ s.measurement.position ≤ k.base+8
  waiting : ∀ w, s.worker w = .waiting →
    s.measurement.position ≤ w.scenario.base+5 ∨ w.scenario.base+8 < s.measurement.position
  passed : ∀ w, (s.worker w).passed = true → w.scenario.base+4 ≤ s.measurement.position

theorem phase_inv_started : PhaseInv started := by
  refine ⟨trivial, ?_, iff_of_true rfl rfl, ?_, ?_, nofun, ?_, nofun, nofun⟩
  · apply Mutex.owned_free
    intro i
    cases i <;> rfl
  · intro w
    exact iff_of_true rfl (Nat.zero_le _)
  · intro w hw
    exact absurd hw (Nat.not_lt_zero _)
  · intro k
    exact iff_of_false Bool.false_ne_true fun h => absurd h.1 (Nat.not_lt_zero _)

theorem inside_worker {s t : State} {w : Worker} {pc : WorkerPc}
    (hmeasurement : t.measurement = s.measurement)
    (hworker : t.worker = Function.update s.worker w pc) :
    t.inside = Function.update s.inside (.worker w) pc.inside := by
  funext i
  cases i with
  | main => rfl
  | measurement => exact congrArg MeasurementPc.inside hmeasurement
  | worker v =>
    show (t.worker v).inside = _
    rw [hworker]
    by_cases hv : v = w
    · rw [hv, Function.update_self, Function.update_self]
    · rw [Function.update_of_ne hv, Function.update_of_ne fun h => hv (Thread.worker.inj h)]
      rfl

section Worker
variable {s t : State} {w : Worker} {pc : WorkerPc} (hi : PhaseInv s)
include hi

/-- One worker has gone on. -/
theorem phase_worker (hmain : t.main = s.main) (hmeasurement : t.measurement = s.measurement)
    (hrunning : t.running = s.running) (hworker : t.worker = Function.update s.worker w pc)
    (hmutex : Mutex.Passes (.worker w) (s.worker w).inside pc.inside s.mutex t.mutex)
    (habsent : pc = .absent ↔ s.worker w = .absent)
    (hended : s.worker w = .ended → pc = .ended)
    (hwaiting : pc = .waiting → s.worker w = .waiting ∨ s.running w.scenario = false)
    (hpassed : pc.passed = true → (s.worker w).passed = true ∨ s.running w.scenario = true) :
    PhaseInv t := by
  constructor
  · rw [hmain]
    exact hi.bounded
  · rw [inside_worker hmeasurement hworker]
    exact Mutex.owned_step hi.owned hmutex
  · rw [hmain, hmeasurement]
    exact hi.created
  · rw [hmain, hworker]
    apply (Function.forall_update_iff s.worker fun v q => q = .absent ↔ _ ≤ v.birth).mpr
    exact ⟨habsent.trans (hi.born w), fun v _ => hi.born v⟩
  · rw [hmain, hworker]
    apply (Function.forall_update_iff s.worker fun v q => v.join < _ → q = .ended).mpr
    exact ⟨fun hw => hended (hi.joined w hw), fun v _ => hi.joined v⟩
  · rw [hmain, hmeasurement]
    exact hi.completed
  · rw [hrunning, hmeasurement]
    exact hi.running
  · rw [hworker, hmeasurement]
    apply (Function.forall_update_iff s.worker fun v q => q = .waiting → _ ≤ _ ∨ _ < _).mpr
    refine ⟨fun hw => ?_, fun v _ => hi.waiting v⟩
    rcases hwaiting hw with hold | hstopped
    · exact hi.waiting w hold
    · have hnot := (hi.running w.scenario).not.mp (by simp [hstopped])
      omega
  · rw [hworker, hmeasurement]
    apply (Function.forall_update_iff s.worker fun v q => q.passed = true → _ ≤ _).mpr
    refine ⟨fun hw => ?_, fun v _ => hi.passed v⟩
    rcases hpassed hw with hold | hruns
    · exact hi.passed w hold
    · exact ((hi.running w.scenario).mp hruns).1

end Worker

theorem next_absent (running : Bool) (pc : WorkerPc) :
    pc.next running = .absent ↔ pc = .absent := by
  cases pc <;> cases running <;> simp [WorkerPc.next] <;> split <;> simp

theorem next_waiting {running : Bool} {pc : WorkerPc} (h : pc.next running = .waiting) :
    pc = .waiting ∨ running = false := by
  cases running with
  | false => exact .inr rfl
  | true =>
    cases pc with
    | waiting => exact .inl rfl
    | multiply n =>
      rw [WorkerPc.next] at h
      split at h <;> cases h
    | _ => cases h

theorem passed_next (running : Bool) (pc : WorkerPc) :
    (pc.next running).passed = true ↔
      pc.passed = true ∨ pc = .testStart ∧ running = true := by
  cases pc with
  | multiply n =>
    rw [WorkerPc.next]
    split <;> simp [WorkerPc.passed]
  | testRunning n =>
    rw [WorkerPc.next]
    split
    · simp [WorkerPc.passed]
    · split <;> simp [WorkerPc.passed]
  | _ => cases running <;> simp [WorkerPc.next, WorkerPc.passed]

theorem worker_phase_inv {s t : State} {w : Worker} (hi : PhaseInv s)
    (h : workerThread w s = some t) : PhaseInv t := by
  have hstep := worker_step h
  refine phase_worker hi hstep.main hstep.measurement hstep.running hstep.worker hstep.mutex
    (next_absent _ _) (fun hended => ?_) next_waiting
    fun hpassed => ((passed_next _ _).mp hpassed).imp_right And.right
  rw [hended]
  rfl

theorem wake_phase_inv {s t : State} {w : Worker} (hi : PhaseInv s)
    (h : step (.wakeUp w) s = some t) : PhaseInv t := by
  obtain ⟨hpc, rfl⟩ := wake_step h
  have hinside : WorkerPc.woken.inside = (s.worker w).inside := by
    rw [hpc]
    rfl
  refine phase_worker (t := s.setWorker w .woken) hi rfl rfl rfl rfl (.keeps hinside rfl) ?_ ?_
    nofun nofun
  · rw [hpc]
    exact iff_of_false nofun nofun
  · rw [hpc]
    exact nofun

theorem signalled_inside (pc : WorkerPc) : (signalled pc).inside = pc.inside := by
  cases pc <;> rfl

theorem signalled_passed (pc : WorkerPc) : (signalled pc).passed = pc.passed := by
  cases pc <;> rfl

theorem signalled_absent (pc : WorkerPc) : signalled pc = .absent ↔ pc = .absent := by
  cases pc <;> simp [signalled]

theorem signalled_waiting (pc : WorkerPc) : signalled pc ≠ .waiting := by
  cases pc <;> simp [signalled]

/-- The measurement thread leaves a worker alone, or wakes it. -/
theorem measurement_worker {s t : State} (h : MeasurementStep s t) (w : Worker) :
    t.worker w = s.worker w ∨ t.worker w = signalled (s.worker w) := by
  rw [h.worker]
  cases s.measurement with
  | broadcast k => exact .inr rfl
  | _ => exact .inl rfl

theorem broadcast_waiting {s t : State} (h : MeasurementStep s t) {k : Scenario}
    (hpos : s.measurement.position = k.base+5) (w : Worker) : t.worker w ≠ .waiting := by
  have hpc : s.measurement = .broadcast k := position_injective hpos
  rw [h.worker, hpc]
  exact signalled_waiting _

theorem inside_measurement {s t : State} (h : MeasurementStep s t) :
    t.inside = Function.update s.inside .measurement t.measurement.inside := by
  funext i
  cases i with
  | main => rfl
  | measurement => rw [Function.update_self]; rfl
  | worker w =>
    rw [Function.update_of_ne (show Thread.worker w ≠ .measurement from nofun)]
    show (t.worker w).inside = (s.worker w).inside
    rcases measurement_worker h w with hsame | hwoken
    · rw [hsame]
    · rw [hwoken, signalled_inside]

theorem base_cases {k k' : Scenario} (h : k ≠ k') : k.base+12 = k'.base ∨ k'.base+12 = k.base := by
  cases k <;> cases k' <;> first | exact absurd rfl h | exact .inl rfl | exact .inr rfl

/-- A scenario runs from the statement that starts it to the one that stops it. -/
theorem measurement_running {s t : State} (h : MeasurementStep s t) (k : Scenario)
    (hrunning : s.running k = true ↔
      k.base+3 < s.measurement.position ∧ s.measurement.position ≤ k.base+8) :
    t.running k = true ↔
      k.base+3 < t.measurement.position ∧ t.measurement.position ≤ k.base+8 := by
  have hstart : s.measurement.position = k.base+3 → s.measurement = .setRunning k :=
    fun hpos => position_injective hpos
  have hstop : s.measurement.position = k.base+8 → s.measurement = .stop k :=
    fun hpos => position_injective hpos
  rw [h.running, h.position]
  cases hpc : s.measurement with (rw [hpc] at hrunning hstart hstop; dsimp only)
  | setRunning k' =>
    by_cases hk : k = k'
    · subst hk
      rw [Function.update_self]
      rw [MeasurementPc.position]
      exact iff_of_true rfl (by omega)
    · have hbase := base_cases hk
      rw [Function.update_of_ne hk, hrunning, MeasurementPc.position]
      omega
  | stop k' =>
    by_cases hk : k = k'
    · subst hk
      rw [Function.update_self]
      exact iff_of_false Bool.false_ne_true fun h => absurd h.2 (Nat.not_succ_le_self _)
    · have hbase := base_cases hk
      rw [Function.update_of_ne hk, hrunning, MeasurementPc.position]
      omega
  | _ =>
    have hstart' := mt hstart nofun
    have hstop' := mt hstop nofun
    rw [hrunning]
    omega

theorem measurement_phase_inv {s t : State} (hi : PhaseInv s)
    (h : measurementThread s = some t) : PhaseInv t := by
  have hstep := measurement_step h
  have habsent : s.measurement ≠ .absent := by
    intro hpc
    rw [measurementThread, hpc] at h
    cases h
  constructor
  · rw [hstep.main]
    exact hi.bounded
  · rw [inside_measurement hstep]
    exact Mutex.owned_step hi.owned hstep.mutex
  · rw [hstep.main, ← hi.created]
    refine iff_of_false (fun hpc => ?_) habsent
    have hpos := hstep.position
    rw [hpc] at hpos
    cases hpos
  · intro w
    rw [hstep.main, ← hi.born w]
    rcases measurement_worker hstep w with hsame | hwoken
    · rw [hsame]
    · rw [hwoken, signalled_absent]
  · intro w hw
    rw [hstep.main] at hw
    rcases measurement_worker hstep w with hsame | hwoken
    · rw [hsame, hi.joined w hw]
    · rw [hwoken, hi.joined w hw]
      rfl
  · intro hmain
    rw [hstep.main] at hmain
    rw [measurementThread, hi.completed hmain] at h
    cases h
  · exact fun k => measurement_running hstep k (hi.running k)
  · intro w hw
    have hpos := hstep.position
    by_cases hbroadcast : s.measurement.position = w.scenario.base+5
    · exact absurd hw (broadcast_waiting hstep hbroadcast w)
    · rcases measurement_worker hstep w with hsame | hwoken
      · rw [hsame] at hw
        have hwaiting := hi.waiting w hw
        omega
      · rw [hwoken] at hw
        exact absurd hw (signalled_waiting _)
  · intro w hw
    have hpos := hstep.position
    have hpassed : (s.worker w).passed = true := by
      rcases measurement_worker hstep w with hsame | hwoken
      · rwa [hsame] at hw
      · rwa [hwoken, signalled_passed] at hw
    have hold := hi.passed w hpassed
    omega

theorem create_phase_inv {s : State} (hi : PhaseInv s) (hpc : s.main = .createMeasurement) :
    PhaseInv ((s.setMeasurement (.lockReset .one)).setMain .createSingle) := by
  have habsent : s.measurement = .absent := hi.created.mpr hpc
  have hborn : ∀ w, s.worker w = .absent := by
    intro w
    rw [hi.born w, hpc]
    exact Nat.zero_le _
  have hinside :
      ((s.setMeasurement (.lockReset .one)).setMain .createSingle).inside = s.inside := by
    funext i
    cases i with
    | measurement => exact (congrArg MeasurementPc.inside habsent).symm
    | _ => rfl
  refine ⟨trivial, ?_, iff_of_false nofun nofun, ?_, ?_, nofun, ?_, ?_, ?_⟩
  · rw [hinside]
    exact hi.owned
  · intro w
    have hbirth := birth_bounds w
    exact iff_of_true (hborn w) (show 1 ≤ w.birth by omega)
  · intro w hw
    have hjoin := join_bounds w
    exact absurd (show w.join < 1 from hw) (by omega)
  · intro k
    refine Iff.trans (hi.running k) (iff_of_false ?_ ?_)
    · rw [habsent]
      exact fun h => absurd h.1 (Nat.not_lt_zero _)
    · exact fun h => absurd (show k.base+3 < 1 from h.1) (by omega)
  · intro w hw
    rw [show ((s.setMeasurement (.lockReset .one)).setMain .createSingle).worker w = .absent
      from hborn w] at hw
    cases hw
  · intro w hw
    rw [show ((s.setMeasurement (.lockReset .one)).setMain .createSingle).worker w = .absent
      from hborn w] at hw
    cases hw

theorem birth_injective {v w : Worker} (h : v.birth = w.birth) : v = w := by
  cases v with
  | single =>
    cases w with
    | single => rfl
    | multi j => exact absurd (show 1 = 3+(j : ℕ) from h) (by omega)
  | multi i =>
    cases w with
    | single => exact absurd (show 3+(i : ℕ) = 1 from h) (by omega)
    | multi j => exact congrArg _ (Fin.ext (Nat.add_left_cancel h))

theorem spawn_phase_inv {s : State} {w : Worker} {pc : MainPc} (hi : PhaseInv s)
    (hbirth : s.main.position = w.birth) (hnext : pc.position = w.birth+1)
    (hbounded : pc.Bounded) : PhaseInv ((s.setWorker w .lockStart).setMain pc) := by
  have habsent : s.worker w = .absent := (hi.born w).mpr hbirth.le
  have hplace := birth_bounds w
  refine ⟨hbounded, ?_, ?_, ?_, ?_, ?_, hi.running, ?_, ?_⟩
  · have hinside : ((s.setWorker w .lockStart).setMain pc).inside = _ :=
      inside_worker (s := s) rfl rfl
    rw [hinside]
    refine Mutex.owned_step hi.owned (.keeps ?_ rfl)
    show false = (s.worker w).inside
    rw [habsent]
    rfl
  · show s.measurement = .absent ↔ pc = .createMeasurement
    rw [hi.created]
    refine iff_of_false (fun h => ?_) fun h => ?_
    · rw [h] at hbirth
      exact absurd (show 0 = w.birth from hbirth) (by omega)
    · rw [h] at hnext
      cases hnext
  · show ∀ v, Function.update s.worker w .lockStart v = .absent ↔ pc.position ≤ v.birth
    rw [hnext]
    apply (Function.forall_update_iff s.worker fun v q => q = .absent ↔ _ ≤ v.birth).mpr
    refine ⟨iff_of_false nofun (Nat.not_succ_le_self _), fun v hv => ?_⟩
    have hne : v.birth ≠ w.birth := fun h => hv (birth_injective h)
    rw [hi.born v, hbirth]
    omega
  · show ∀ v, v.join < pc.position → Function.update s.worker w .lockStart v = .ended
    intro v hv
    have hjoin := join_bounds v
    have hended := hi.joined v (by omega)
    have hne : v ≠ w := by
      rintro rfl
      rw [habsent] at hended
      cases hended
    rw [Function.update_of_ne hne, hended]
  · rintro rfl
    rw [MainPc.position] at hnext
    omega
  · apply (Function.forall_update_iff s.worker fun v q => q = .waiting → _ ≤ _ ∨ _ < _).mpr
    exact ⟨nofun, fun v _ => hi.waiting v⟩
  · apply (Function.forall_update_iff s.worker fun v q => q.passed = true → _ ≤ _).mpr
    exact ⟨nofun, fun v _ => hi.passed v⟩

theorem main_phase_inv {s t : State} (hi : PhaseInv s) (h : mainThread s = some t) :
    PhaseInv t := by
  cases main_step hi.bounded h with
  | measurement hpc ht =>
    rw [ht]
    exact create_phase_inv hi hpc
  | worker w pc hbirth hnext hbounded ht =>
    rw [ht]
    exact spawn_phase_inv hi hbirth hnext hbounded
  | goesOn pc hpos hnext hbounded hbirth hjoin hended ht =>
    rw [ht]
    refine ⟨hbounded, hi.owned, ?_, ?_, ?_, hended, hi.running, hi.waiting, hi.passed⟩
    · show s.measurement = .absent ↔ pc = .createMeasurement
      rw [hi.created]
      refine iff_of_false (fun h => ?_) fun h => ?_
      · rw [h] at hpos
        cases hpos
      · rw [h] at hnext
        cases hnext
    · intro w
      show s.worker w = .absent ↔ pc.position ≤ w.birth
      have hne := hbirth w
      rw [hi.born w, hnext]
      omega
    · intro w hw
      have hlt : w.join < s.main.position+1 := hnext ▸ hw
      rcases Nat.lt_succ_iff_lt_or_eq.mp hlt with hold | hnow
      · exact hi.joined w hold
      · exact hjoin w hnow.symm

theorem step_phase_inv (a : Action) (s t : State) (hi : PhaseInv s) (h : step a s = some t) :
    PhaseInv t := by
  cases a with
  | run i =>
    cases i with
    | main => exact main_phase_inv hi h
    | measurement => exact measurement_phase_inv hi h
    | worker w => exact worker_phase_inv hi h
  | wakeUp w => exact wake_phase_inv hi h

end ProgSistema.Benchmark
