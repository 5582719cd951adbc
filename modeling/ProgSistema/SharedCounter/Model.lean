import ProgSistema.Lib.CRuntime
import ProgSistema.Lib.Sharing

/-!
# A counter in shared memory

The children of a process add to the same counter. Each of them reads it,
sleeps and writes it back, between `sem_wait` and `sem_post` on a semaphore that
lies in the same memory.
-/

set_option autoImplicit false

namespace ProgSistema.SharedCounter
open CRuntime

structure Children (ι : Type*) where
  processName : ι → Bytes
  iteration : ι → ℕ

/-- Where a child is in `critical_section_work`. A call that fails ends it,
with the semaphore taken or not. -/
inductive Pc where
  | loopTest
  | semWait
  | readCounter
  | writeCounter (oldCounter : ℤ)
  | readOperationDone
  | writeOperationDone (old : ℤ)
  | copyName
  | semPost
  | ended
  | failed (taken : Bool)
  deriving DecidableEq, Repr

structure Child where
  pc : Pc
  i : ℕ
  deriving DecidableEq, Repr

/-- `SharedData`. The rounds that each child has counted only record. -/
structure SharedData (ι : Type*) where
  counter : ℤ
  operationDone : ℤ
  lastProcess : Bytes
  mutex : ℕ
  counted : ι → ℕ

inductive Action where
  | run
  | fail
  deriving DecidableEq, Repr

abbrev Memory (ι : Type*) := Sharing.System ι Child (SharedData ι)

section
variable {ι : Type*} [DecidableEq ι] (children : Children ι)

def criticalSectionWork (i : ι) (c : Child) (data : SharedData ι) :
    Option (Child × SharedData ι) :=
  match c.pc with
  | .loopTest =>
    some ({ c with pc := if c.i < children.iteration i then .semWait else .ended }, data)
  | .semWait =>
    if data.mutex = 0 then none
    else some ({ c with pc := .readCounter }, { data with mutex := data.mutex-1 })
  | .readCounter => some ({ c with pc := .writeCounter data.counter }, data)
  | .writeCounter oldCounter =>
    some ({ c with pc := .readOperationDone }, { data with counter := toInt (oldCounter+1) })
  | .readOperationDone => some ({ c with pc := .writeOperationDone data.operationDone }, data)
  | .writeOperationDone old =>
    some ({ c with pc := .copyName },
      { data with operationDone := toInt (old+1),
                  counted := Function.update data.counted i (data.counted i+1) })
  | .copyName => some ({ c with pc := .semPost }, { data with lastProcess := children.processName i })
  | .semPost => some ({ pc := .loopTest, i := c.i+1 }, { data with mutex := data.mutex+1 })
  | .ended | .failed _ => none

def act (i : ι) : Action → Child → SharedData ι → Option (Child × SharedData ι)
  | .run, c, data => criticalSectionWork children i c data
  | .fail, c, data =>
    match c.pc with
    | .semWait => some ({ c with pc := .failed false }, data)
    | .semPost => some ({ c with pc := .failed true }, data)
    | _ => none

def step : ι × Action → Memory ι → Option (Memory ι) := Sharing.step (act children)

def started : Memory ι where
  procs _ := { pc := .loopTest, i := 0 }
  shared := { counter := 0, operationDone := 0, lastProcess := text "NESSUNO", mutex := 1,
              counted := fun _ => 0 }

end

def figli : Children (Fin 2) where
  processName i := text "FIGLIO-"++decimal (i+1)
  iteration _ := 3

/-- What `main` prints of the totals behind its two calls of `wait`. -/
def senzaRaceCondition (data : SharedData (Fin 2)) : Bool :=
  decide (data.counter = 6 ∧ data.operationDone = 6)

end ProgSistema.SharedCounter
