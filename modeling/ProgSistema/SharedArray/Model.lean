import ProgSistema.Lib.ArrayPrefix
import ProgSistema.Lib.CRuntime
import ProgSistema.Lib.Ledger
import ProgSistema.Lib.Sharing

/-!
# The array of records in shared memory

A producer appends records to an array of fixed size and starts again from its
beginning when it is full. Consumers take records from random positions and
close the gap. Each operation waits on the semaphore, works on the array and
posts the semaphore, except that a removal from an empty array returns without
the post.
-/

set_option autoImplicit false

namespace ProgSistema.SharedArray
open CRuntime ArrayPrefix

def maxRecord : ℕ := 200

structure Record where
  timeStamp : Bytes
  number : ℤ
  deriving DecidableEq, Repr

structure SharedMemory where
  array : ℕ → Record
  items : ℤ

def initSharedArray (_ : SharedMemory) : SharedMemory where
  array _ := ⟨[], 0⟩
  items := 0

def addRecordToArray (record : Record) (shm : SharedMemory) : Except Fault SharedMemory :=
  let shm := if shm.items ≥ maxRecord then { shm with items := 0 } else shm
  if 0 ≤ shm.items ∧ shm.items < maxRecord then
    .ok { array := Function.update shm.array shm.items.toNat record, items := toInt (shm.items+1) }
  else .error .outOfBounds

/-- `rand() % items`; a remainder has the sign of the number divided. -/
def randomIndex (rand : ℕ) (items : ℤ) : ℤ := (rand : ℤ) % items

/-- `remove_record` after its `sem_wait`. Without a record it returns `empty`
and leaves out the `sem_post`. -/
def removeRecord (rand : ℕ) (shm : SharedMemory) : Except Fault (Option Record × SharedMemory) :=
  if shm.items = 0 then .ok (none, shm)
  else
    let index := randomIndex rand shm.items
    if index < maxRecord ∧ shm.items ≤ maxRecord then
      .ok (some (shm.array index.toNat),
        { array := shiftDown shm.array index.toNat (shm.items-1-index).toNat,
          items := toInt (shm.items-1) })
    else .error .outOfBounds

inductive Role where
  | producer
  | consumer
  deriving DecidableEq, Repr

inductive Call where
  | add (record : Record)
  | remove
  deriving DecidableEq, Repr

inductive Pc where
  | idle
  | semWait (call : Call)
  | critical (call : Call)
  | semPost (removed : Option Record)
  | stopped
  | crashed
  deriving DecidableEq, Repr

inductive Event where
  | produce (record : Record)
  | consume
  | stop
  | wait (interrupted : Bool)
  | work (rand : ℕ)
  | post
  deriving DecidableEq, Repr

/-- The semaphore and the array. The ledger of the records added and removed,
and the list of what each process has obtained, only record. -/
structure Shared (ι : Type) where
  sem : ℕ
  shm : SharedMemory
  ledger : Ledger Record
  obtained : List (ι × Record)

section
variable {ι : Type}

def callAdd (record : Record) (k : Shared ι) : Pc × Shared ι :=
  match addRecordToArray record k.shm with
  | .error _ => (.crashed, k)
  | .ok shm => (.semPost none, { k with shm := shm, ledger := k.ledger.add maxRecord record })

def callRemove (i : ι) (rand : ℕ) (k : Shared ι) : Pc × Shared ι :=
  match removeRecord rand k.shm with
  | .error _ => (.crashed, k)
  | .ok (none, shm) => (.stopped, { k with shm := shm })
  | .ok (some record, shm) =>
    (.semPost (some record),
      { k with shm := shm, ledger := k.ledger.take (randomIndex rand k.shm.items).toNat,
               obtained := k.obtained++[(i, record)] })

def afterPost (removed : Option Record) : Pc :=
  if removed.any fun record => record.number = -1 then .stopped else .idle

/-- A wait on a semaphore that is zero blocks. An operation whose wait is
interrupted fails, and the process leaves its loop. -/
def act (role : ι → Role) (i : ι) : Event → Pc → Shared ι → Option (Pc × Shared ι)
  | .produce record, .idle, k =>
    if role i = .producer then some (.semWait (.add record), k) else none
  | .consume, .idle, k => if role i = .consumer then some (.semWait .remove, k) else none
  | .stop, .idle, k => some (.stopped, k)
  | .wait interrupted, .semWait call, k =>
    if interrupted then some (.stopped, k)
    else if k.sem = 0 then none
    else some (.critical call, { k with sem := k.sem-1 })
  | .work _, .critical (.add record), k => some (callAdd record k)
  | .work rand, .critical .remove, k => some (callRemove i rand k)
  | .post, .semPost removed, k => some (afterPost removed, { k with sem := k.sem+1 })
  | _, _, _ => none

abbrev Processes (ι : Type) := Sharing.System ι Pc (Shared ι)

def initialised (shm : SharedMemory) : Processes ι where
  procs _ := .idle
  shared := { sem := 1, shm := initSharedArray shm, ledger := Ledger.empty, obtained := [] }

end

end ProgSistema.SharedArray
