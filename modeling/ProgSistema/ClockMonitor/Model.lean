import ProgSistema.Lib.Sharing

/-!
# The clock monitor

One thread asks a time server for the time every thirty seconds and stores the
answer, the other one compares the stored time with the system clock. The server
and the system have the same clock, in nanoseconds, which goes on by any amount
between two steps.
-/

set_option autoImplicit false

namespace ProgSistema.ClockMonitor

def sleepInterval : ℕ := 30

def second (instant : ℕ) : ℤ := (instant/10^9 : ℕ)

inductive Thread where
  | nist
  | monitor
  deriving DecidableEq, Repr

structure SharedData where
  nistTime : ℤ
  valid : Bool
  mutex : Option Thread
  deriving DecidableEq, Repr

/-- Where a thread is. A local variable with a time stands as the instant at
which it has been read; `seen` are the answers stored by then. -/
inductive Pc where
  | nistTest
  | query
  | nistLock (answered : ℕ)
  | storeTime (answered : ℕ)
  | storeValid
  | nistUnlock
  | monitorTest
  | readSystem
  | monitorLock (system : ℕ)
  | readTime (system : ℕ)
  | readValid (system : ℕ) (nistTime : ℤ) (seen : List ℕ)
  | monitorUnlock (system : ℕ) (nistTime : ℤ) (nistValid : Bool) (seen : List ℕ)
  | compare (system : ℕ) (nistTime : ℤ) (nistValid : Bool) (seen : List ℕ)
  | sleeping (since : ℕ)
  | ended
  deriving DecidableEq, Repr

structure Comparison where
  system : ℕ
  seen : List ℕ
  warned : Bool
  deriving DecidableEq, Repr

/-- The instants of the answers stored and the comparisons only record. -/
structure Shared where
  clock : ℕ
  terminateFlag : Bool
  sharedData : SharedData
  stored : List ℕ
  comparisons : List Comparison

/-- The server answers a query at some instant before the answer arrives, or
the query fails. -/
inductive Event where
  | run
  | answer
  | fail
  | advance (nanoseconds : ℕ)
  | signal
  deriving DecidableEq, Repr

def nistThread (event : Event) (pc : Pc) (k : Shared) : Option (Pc × Shared) :=
  match event, pc with
  | .run, .nistTest => some (if k.terminateFlag then .ended else .query, k)
  | .answer, .query => some (.nistLock k.clock, k)
  | .fail, .query => some (.sleeping k.clock, k)
  | .run, .nistLock answered =>
    if k.sharedData.mutex = none then
      some (.storeTime answered,
        { k with sharedData := { k.sharedData with mutex := some .nist } })
    else none
  | .run, .storeTime answered =>
    some (.storeValid,
      { k with sharedData := { k.sharedData with nistTime := second answered }
               stored := k.stored++[answered] })
  | .run, .storeValid =>
    some (.nistUnlock, { k with sharedData := { k.sharedData with valid := true } })
  | .run, .nistUnlock =>
    some (.sleeping k.clock, { k with sharedData := { k.sharedData with mutex := none } })
  | _, _ => none

def monitorThread (event : Event) (pc : Pc) (k : Shared) : Option (Pc × Shared) :=
  match event, pc with
  | .run, .monitorTest => some (if k.terminateFlag then .ended else .readSystem, k)
  | .run, .readSystem => some (.monitorLock k.clock, k)
  | .run, .monitorLock system =>
    if k.sharedData.mutex = none then
      some (.readTime system,
        { k with sharedData := { k.sharedData with mutex := some .monitor } })
    else none
  | .run, .readTime system => some (.readValid system k.sharedData.nistTime k.stored, k)
  | .run, .readValid system nistTime seen =>
    some (.monitorUnlock system nistTime k.sharedData.valid seen, k)
  | .run, .monitorUnlock system nistTime nistValid seen =>
    some (.compare system nistTime nistValid seen,
      { k with sharedData := { k.sharedData with mutex := none } })
  | .run, .compare system nistTime nistValid seen =>
    let timeDiff := second system-nistTime
    some (.sleeping k.clock,
      if nistValid then
        { k with comparisons := k.comparisons++
            [⟨system, seen, decide (timeDiff > 30 ∨ timeDiff < -30)⟩] }
      else k)
  | _, _ => none

def Thread.start : Thread → Pc
  | nist => .nistTest
  | monitor => .monitorTest

/-- A sleep takes its time, unless the signal interrupts it. -/
def act (t : Thread) (event : Event) (pc : Pc) (k : Shared) : Option (Pc × Shared) :=
  match event, pc with
  | .advance nanoseconds, pc => some (pc, { k with clock := k.clock+nanoseconds })
  | .signal, pc => some (pc, { k with terminateFlag := true })
  | .run, .sleeping since =>
    if since+sleepInterval*10^9 ≤ k.clock ∨ k.terminateFlag = true then some (t.start, k)
    else none
  | event, pc =>
    match t with
    | .nist => nistThread event pc k
    | .monitor => monitorThread event pc k

abbrev Threads := Sharing.System Thread Pc Shared

def created (clock : ℕ) : Threads where
  procs t := t.start
  shared :=
    { clock := clock, terminateFlag := false
      sharedData := { nistTime := 0, valid := false, mutex := none }
      stored := [], comparisons := [] }

abbrev Reachable (clock : ℕ) (s : Threads) : Prop :=
  Runs.Reachable (Sharing.step act) (created clock) s

end ProgSistema.ClockMonitor
