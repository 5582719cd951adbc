import ProgSistema.Lib.Runs
import ProgSistema.Lib.CRuntime

/-!
# The linked list in shared memory

The segment holds a fixed pool of nodes, the offset of the first one, a
counter and the semaphore. Offsets are the C `int`s of the source: `-1` is
the null offset, and any other value outside the pool is a memory error when
it is followed. Each operation is one critical section of the process that
issues it, from `sem_wait` to `sem_post`.
-/

set_option autoImplicit false

namespace ProgSistema.SharedList

def maxNodes : ℕ := 100

structure Node where
  data : ℤ
  nextOffset : ℤ
  isFree : ℤ

structure SharedMemory where
  nodes : Fin maxNodes → Node
  headOffset : ℤ
  count : ℤ
  mutex : ℕ

def SharedMemory.setNode (shm : SharedMemory) (i : Fin maxNodes) (n : Node) : SharedMemory :=
  { shm with nodes := Function.update shm.nodes i n }

def semWait (shm : SharedMemory) : Except Fault SharedMemory :=
  if shm.mutex = 0 then .error .blocked else .ok { shm with mutex := shm.mutex-1 }

def semPost (shm : SharedMemory) : SharedMemory := { shm with mutex := shm.mutex+1 }

theorem node_in_pool {a : ℤ} (h : 0 ≤ a ∧ a < maxNodes) : a.toNat < maxNodes := by
  omega

/-- The node at an address of the pool; `none` is the null pointer. -/
def deref : Option ℤ → Except Fault (Fin maxNodes)
  | none => .error .nullPointer
  | some a =>
    if h : 0 ≤ a ∧ a < maxNodes then .ok ⟨a.toNat, node_in_pool h⟩ else .error .outOfBounds

def getNodeByOffset (offset : ℤ) : Option ℤ :=
  if offset = -1 ∨ offset ≥ maxNodes then none else some offset

def allocateNode (shm : SharedMemory) : ℤ × SharedMemory :=
  match (List.finRange maxNodes).find? (fun i => (shm.nodes i).isFree ≠ 0) with
  | some i => (i, shm.setNode i { shm.nodes i with isFree := 0, nextOffset := -1 })
  | none => (-1, shm)

def freeNode (offset : ℤ) (shm : SharedMemory) : SharedMemory :=
  if h : 0 ≤ offset ∧ offset < maxNodes then
    shm.setNode ⟨offset.toNat, node_in_pool h⟩ { isFree := 1, nextOffset := -1, data := 0 }
  else shm

def listInsert (data : ℤ) (shm : SharedMemory) : Except Fault SharedMemory := do
  let shm ← semWait shm
  let (newOffset, shm) := allocateNode shm
  if newOffset = -1 then
    return semPost shm
  else
    let i ← deref (some newOffset)
    let shm := shm.setNode i { shm.nodes i with data := data, nextOffset := shm.headOffset }
    return semPost { shm with headOffset := newOffset, count := shm.count+1 }

def listPop (shm : SharedMemory) : Except Fault (ℤ × SharedMemory) := do
  let shm ← semWait shm
  if shm.headOffset = -1 then
    return (-1, semPost shm)
  else
    let head ← deref (getNodeByOffset shm.headOffset)
    let data := (shm.nodes head).data
    let oldHeadOffset := shm.headOffset
    let shm := { shm with headOffset := (shm.nodes head).nextOffset, count := shm.count-1 }
    return (data, semPost (freeNode oldHeadOffset shm))

def listCount (shm : SharedMemory) : Except Fault (ℤ × SharedMemory) := do
  let shm ← semWait shm
  return (shm.count, semPost shm)

/-- The `while` loop of `list_print`: the values printed from an offset on.
The fuel bounds the number of evaluations of the loop condition. -/
def printLoop (nodes : Fin maxNodes → Node) : ℕ → ℤ → Except Fault (List ℤ)
  | 0, _ => .error .outOfFuel
  | fuel+1, currentOffset =>
    if currentOffset = -1 then .ok []
    else do
      let current ← deref (getNodeByOffset currentOffset)
      let rest ← printLoop nodes fuel (nodes current).nextOffset
      return (nodes current).data::rest

def listPrint (fuel : ℕ) (shm : SharedMemory) :
    Except Fault ((List ℤ × ℤ) × SharedMemory) := do
  let shm ← semWait shm
  let values ← printLoop shm.nodes fuel shm.headOffset
  return ((values, shm.count), semPost shm)

/-- The initialisation in `main`, over whatever the segment held before. -/
def initialise (shm : SharedMemory) : SharedMemory :=
  let shm := { shm with headOffset := -1, count := 0 }
  let shm := { shm with
    nodes := fun i => { shm.nodes i with isFree := 1, nextOffset := -1, data := 0 } }
  { shm with mutex := 1 }

inductive Op where
  | insert (data : ℤ)
  | pop
  | count
  | print
  deriving DecidableEq, Repr

inductive Reply where
  | void
  | value (v : ℤ)
  | printed (values : List ℤ) (count : ℤ)
  deriving DecidableEq, Repr

abbrev Pid := ℕ

def step (fuel : ℕ) (request : Pid × Op) (shm : SharedMemory) :
    Except Fault ((Pid × Reply) × SharedMemory) :=
  match request with
  | (pid, .insert data) => do
    let shm ← listInsert data shm
    return ((pid, .void), shm)
  | (pid, .pop) => do
    let (v, shm) ← listPop shm
    return ((pid, .value v), shm)
  | (pid, .count) => do
    let (n, shm) ← listCount shm
    return ((pid, .value n), shm)
  | (pid, .print) => do
    let ((values, n), shm) ← listPrint fuel shm
    return ((pid, .printed values n), shm)

end ProgSistema.SharedList
