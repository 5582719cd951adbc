import ProgSistema.Lib.CRuntime
import ProgSistema.Lib.Runs

/-!
# The benchmark of threads

Workers multiply numbers while their scenario runs, one worker in the first
scenario and three in the second. The measurement thread starts and stops the
scenarios and prints the counts; `main` creates the threads and joins them. A
step is one call on the mutex or the condition variable, one access to the
shared data, or the creation or the join of a thread.
-/

set_option autoImplicit false

namespace ProgSistema.Benchmark
open CRuntime

def numThreadsScenario2 : ℕ := 3

inductive Scenario where
  | one
  | two
  deriving DecidableEq, Repr

inductive Worker where
  | single
  | multi (i : Fin numThreadsScenario2)
  deriving DecidableEq, Fintype, Repr

def Worker.scenario : Worker → Scenario
  | single => .one
  | multi _ => .two

inductive Thread where
  | main
  | measurement
  | worker (w : Worker)
  deriving DecidableEq, Repr

/-- `waiting` is blocked on the condition, `woken` has to regain the mutex. -/
inductive WorkerPc where
  | absent
  | lockStart
  | testStart
  | waiting
  | woken
  | unlockStart
  | testRunning (localCount : ℕ)
  | multiply (localCount : ℕ)
  | lockUpdate (localCount : ℕ)
  | update (localCount : ℕ)
  | unlockUpdate
  | lockFinal (localCount : ℕ)
  | updateFinal (localCount : ℕ)
  | unlockFinal
  | ended
  deriving DecidableEq, Repr

inductive MeasurementPc where
  | absent
  | lockReset (k : Scenario)
  | reset (k : Scenario)
  | setRunning (k : Scenario)
  | unlockReset (k : Scenario)
  | broadcast (k : Scenario)
  | sleeping (k : Scenario)
  | lockStop (k : Scenario)
  | stop (k : Scenario)
  | unlockStop (k : Scenario)
  | printCount (k : Scenario)
  | printThroughput (k : Scenario)
  | pause
  | speedupTwo
  | speedupOne
  | ended
  deriving DecidableEq, Repr

inductive MainPc where
  | createMeasurement
  | createSingle
  | joinSingle
  | createMulti (i : ℕ)
  | joinMulti (i : ℕ)
  | joinMeasurement
  | ended
  deriving DecidableEq, Repr

/-- `executed`, the multiplications of each worker, and `reads`, the counts
that the measurement thread has read, only record. -/
structure State where
  main : MainPc
  measurement : MeasurementPc
  worker : Worker → WorkerPc
  count : Scenario → ℤ
  running : Scenario → Bool
  mutex : Option Thread
  executed : Worker → ℕ
  reads : List (Scenario × ℤ)

namespace State

def lock (s : State) (t : Thread) : Option State :=
  if s.mutex = none then some { s with mutex := some t } else none

def unlock (s : State) : State := { s with mutex := none }

def setWorker (s : State) (w : Worker) (pc : WorkerPc) : State :=
  { s with worker := Function.update s.worker w pc }

def setMeasurement (s : State) (pc : MeasurementPc) : State := { s with measurement := pc }

def setMain (s : State) (pc : MainPc) : State := { s with main := pc }

def addCount (s : State) (k : Scenario) (n : ℕ) : State :=
  { s with count := Function.update s.count k (toLong (s.count k+n)) }

def readCount (s : State) (k : Scenario) : State := { s with reads := s.reads++[(k, s.count k)] }

end State

def signalled : WorkerPc → WorkerPc
  | .waiting => .woken
  | pc => pc

def workerThread (w : Worker) (s : State) : Option State :=
  let k := w.scenario
  match s.worker w with
  | .absent => none
  | .lockStart => (s.lock (.worker w)).map (·.setWorker w .testStart)
  | .testStart =>
    some (if s.running k then s.setWorker w .unlockStart else s.unlock.setWorker w .waiting)
  | .waiting => none
  | .woken => (s.lock (.worker w)).map (·.setWorker w .testStart)
  | .unlockStart => some (s.unlock.setWorker w (.testRunning 0))
  | .testRunning localCount =>
    some (s.setWorker w (if s.running k then .multiply localCount
      else if localCount > 0 then .lockFinal localCount else .ended))
  | .multiply localCount =>
    let localCount := localCount+1
    some ({ s with executed := Function.update s.executed w (s.executed w+1) }.setWorker w
      (if localCount % 1000 = 0 then .lockUpdate localCount else .testRunning localCount))
  | .lockUpdate localCount => (s.lock (.worker w)).map (·.setWorker w (.update localCount))
  | .update _ => some ((s.addCount k 1000).setWorker w .unlockUpdate)
  | .unlockUpdate => some (s.unlock.setWorker w (.testRunning 0))
  | .lockFinal localCount => (s.lock (.worker w)).map (·.setWorker w (.updateFinal localCount))
  | .updateFinal localCount => some ((s.addCount k localCount).setWorker w .unlockFinal)
  | .unlockFinal => some (s.unlock.setWorker w .ended)
  | .ended => none

/-- `measurement_thread`. Each sleep ends at some time. -/
def measurementThread (s : State) : Option State :=
  match s.measurement with
  | .absent => none
  | .lockReset k => (s.lock .measurement).map (·.setMeasurement (.reset k))
  | .reset k =>
    some ({ s with count := Function.update s.count k 0 }.setMeasurement (.setRunning k))
  | .setRunning k =>
    some ({ s with running := Function.update s.running k true }.setMeasurement (.unlockReset k))
  | .unlockReset k => some (s.unlock.setMeasurement (.broadcast k))
  | .broadcast k =>
    some ({ s with worker := fun w => signalled (s.worker w) }.setMeasurement (.sleeping k))
  | .sleeping k => some (s.setMeasurement (.lockStop k))
  | .lockStop k => (s.lock .measurement).map (·.setMeasurement (.stop k))
  | .stop k =>
    some ({ s with running := Function.update s.running k false }.setMeasurement (.unlockStop k))
  | .unlockStop k => some (s.unlock.setMeasurement (.printCount k))
  | .printCount k => some ((s.readCount k).setMeasurement (.printThroughput k))
  | .printThroughput .one => some ((s.readCount .one).setMeasurement .pause)
  | .pause => some (s.setMeasurement (.lockReset .two))
  | .printThroughput .two => some ((s.readCount .two).setMeasurement .speedupTwo)
  | .speedupTwo => some ((s.readCount .two).setMeasurement .speedupOne)
  | .speedupOne => some ((s.readCount .one).setMeasurement .ended)
  | .ended => none

/-- A join waits until the thread has ended. -/
def mainThread (s : State) : Option State :=
  match s.main with
  | .createMeasurement => some ((s.setMeasurement (.lockReset .one)).setMain .createSingle)
  | .createSingle => some ((s.setWorker .single .lockStart).setMain .joinSingle)
  | .joinSingle =>
    if s.worker .single = .ended then some (s.setMain (.createMulti 0)) else none
  | .createMulti i =>
    if h : i < numThreadsScenario2 then
      some ((s.setWorker (.multi ⟨i, h⟩) .lockStart).setMain (.createMulti (i+1)))
    else some (s.setMain (.joinMulti 0))
  | .joinMulti i =>
    if h : i < numThreadsScenario2 then
      if s.worker (.multi ⟨i, h⟩) = .ended then some (s.setMain (.joinMulti (i+1))) else none
    else some (s.setMain .joinMeasurement)
  | .joinMeasurement => if s.measurement = .ended then some (s.setMain .ended) else none
  | .ended => none

/-- A wait may return without a signal. -/
inductive Action where
  | run (t : Thread)
  | wakeUp (w : Worker)
  deriving DecidableEq, Repr

def step : Action → State → Option State
  | .run .main, s => mainThread s
  | .run .measurement, s => measurementThread s
  | .run (.worker w), s => workerThread w s
  | .wakeUp w, s => if s.worker w = .waiting then some (s.setWorker w .woken) else none

def started : State where
  main := .createMeasurement
  measurement := .absent
  worker _ := .absent
  count _ := 0
  running _ := false
  mutex := none
  executed _ := 0
  reads := []

abbrev Reachable (s : State) : Prop := Runs.Reachable step started s

end ProgSistema.Benchmark
