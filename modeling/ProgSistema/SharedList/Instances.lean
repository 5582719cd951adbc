import ProgSistema.SharedList.Model
import ProgSistema.Lib.Sharing

/-!
# Instances of the list program

Every instance looks for the shared segment, creates and initialises it when
there is none, works on the list through its menu and may remove the segment
on its way out. Each system call and each store of the initialisation is a
step of its own, and so are `sem_wait`, the critical section and `sem_post` of
a command.
-/

set_option autoImplicit false

namespace ProgSistema.SharedList

def criticalSection (fuel : ℕ) (op : Op) (shm : SharedMemory) :
    Except Fault (Reply × SharedMemory) :=
  match op with
  | .insert data =>
    let (newOffset, shm) := allocateNode shm
    if newOffset = -1 then .ok (.void, shm)
    else do
      let i ← deref (some newOffset)
      let shm := shm.setNode i { shm.nodes i with data := data, nextOffset := shm.headOffset }
      return (.void, { shm with headOffset := newOffset, count := shm.count+1 })
  | .pop =>
    if shm.headOffset = -1 then .ok (.value (-1), shm)
    else do
      let head ← deref (getNodeByOffset shm.headOffset)
      let data := (shm.nodes head).data
      let oldHeadOffset := shm.headOffset
      let shm := { shm with headOffset := (shm.nodes head).nextOffset, count := shm.count-1 }
      return (.value data, freeNode oldHeadOffset shm)
  | .count => .ok (.value shm.count, shm)
  | .print => do
    let values ← printLoop shm.nodes fuel shm.headOffset
    return (.printed values shm.count, shm)

/-- A command of the menu that takes the mutex: an operation of the list, or
`stampa_stato_memoria`. -/
inductive Command where
  | list (op : Op)
  | statoMemoria
  deriving DecidableEq, Repr

/-- Of the status, which is only printed, the access to the head may fail. -/
def commandSection (fuel : ℕ) (command : Command) (shm : SharedMemory) :
    Except Fault (Reply × SharedMemory) :=
  match command with
  | .list op => criticalSection fuel op shm
  | .statoMemoria =>
    if shm.headOffset = -1 then .ok (.void, shm)
    else do
      let _ ← deref (some shm.headOffset)
      return (.void, shm)

def Command.ops (pid : Pid) : Command → List (Pid × Op)
  | .list op => [(pid, op)]
  | .statoMemoria => []

/-- A segment with the operations completed on it so far; `creator`,
`initialised`, `destroyed` and `completed` only record. -/
structure Segment where
  sized : Bool
  mem : SharedMemory
  creator : Pid
  initialised : Bool
  destroyed : Bool
  completed : List (Pid × Op)

def zeroFilled : SharedMemory where
  nodes _ := { data := 0, nextOffset := 0, isFree := 0 }
  headOffset := 0
  count := 0
  mutex := 0

structure Namespace where
  entry : Option ℕ
  segments : ℕ → Segment
  nextSegment : ℕ

inductive Field where
  | isFree
  | nextOffset
  | data
  deriving DecidableEq, Repr

def Field.clear (field : Field) (node : Node) : Node :=
  match field with
  | isFree => { node with isFree := 1 }
  | nextOffset => { node with nextOffset := -1 }
  | data => { node with data := 0 }

inductive Pc where
  | off
  | shmOpen
  | shmOpenCreate
  | ftruncate (seg : ℕ)
  | mmapCreated (seg : ℕ)
  | setHead (seg : ℕ)
  | setCount (seg : ℕ)
  | setNode (seg : ℕ) (i : ℕ) (field : Field)
  | semInit (seg : ℕ)
  | mmapExisting (seg : ℕ)
  | showCount (seg : ℕ)
  | menu (seg : ℕ)
  | semWait (seg : ℕ) (command : Command)
  | critical (seg : ℕ) (command : Command)
  | semPost (seg : ℕ) (command : Command) (reply : Reply)
  | askRemoval (seg : ℕ)
  | semDestroy (seg : ℕ)
  | shmUnlink (seg : ℕ)
  | ended
  | crashed
  deriving DecidableEq, Repr

inductive Event where
  | run (result : ℤ)
  | command (command : Command)
  | leave
  | answer (remove : Bool)
  deriving DecidableEq, Repr

def Namespace.set (k : Namespace) (seg : ℕ) (sg : Segment) : Namespace :=
  { k with segments := Function.update k.segments seg sg }

def Namespace.setMem (k : Namespace) (seg : ℕ) (mem : SharedMemory) : Namespace :=
  k.set seg { k.segments seg with mem := mem }

def Namespace.create (k : Namespace) (pid : Pid) : Namespace where
  entry := some k.nextSegment
  segments := Function.update k.segments k.nextSegment
    { sized := false, mem := zeroFilled, creator := pid, initialised := false,
      destroyed := false, completed := [] }
  nextSegment := k.nextSegment+1

def Namespace.resize (k : Namespace) (seg : ℕ) : Namespace :=
  k.set seg { k.segments seg with sized := true }

def clearField (shm : SharedMemory) (i : ℕ) (field : Field) : SharedMemory :=
  if h : i < maxNodes then shm.setNode ⟨i, h⟩ (field.clear (shm.nodes ⟨i, h⟩)) else shm

def afterField (seg i : ℕ) : Field → Pc
  | .isFree => .setNode seg i .nextOffset
  | .nextOffset => .setNode seg i .data
  | .data => if i+1 < maxNodes then .setNode seg (i+1) .isFree else .semInit seg

/-- The steps of `main` up to the menu. An access to a segment that has no
size yet is a bus error. -/
def start (pid : Pid) (pc : Pc) (k : Namespace) (result : ℤ) : Option (Pc × Namespace) :=
  match pc with
  | .off => some (.shmOpen, k)
  | .shmOpen =>
    match k.entry with
    | none => some (.shmOpenCreate, k)
    | some seg => some (if result < 0 then .shmOpenCreate else .mmapExisting seg, k)
  | .shmOpenCreate =>
    if result < 0 then some (.ended, k)
    else match k.entry with
      | some seg => some (.ftruncate seg, k)
      | none => some (.ftruncate k.nextSegment, k.create pid)
  | .ftruncate seg =>
    if result < 0 then some (.ended, k) else some (.mmapCreated seg, k.resize seg)
  | .mmapCreated seg => some (if result < 0 then .ended else .setHead seg, k)
  | .setHead seg =>
    some (.setCount seg, k.setMem seg { (k.segments seg).mem with headOffset := -1 })
  | .setCount seg =>
    some (.setNode seg 0 .isFree, k.setMem seg { (k.segments seg).mem with count := 0 })
  | .setNode seg i field =>
    some (afterField seg i field, k.setMem seg (clearField (k.segments seg).mem i field))
  | .semInit seg =>
    if result < 0 then some (.ended, k)
    else
      let sg := k.segments seg
      some (.menu seg, k.set seg { sg with
        mem := { sg.mem with mutex := 1 }, initialised := true, destroyed := false })
  | .mmapExisting seg => some (if result < 0 then .ended else .showCount seg, k)
  | .showCount seg => some (if (k.segments seg).sized then .semWait seg (.list .print) else .crashed, k)
  | _ => none

/-- The three steps of a command. A wait on a semaphore that is zero
blocks; a critical section that leaves the pool is a memory error, and one
that does not end never gets to its `sem_post`. -/
def operate (pid : Pid) (pc : Pc) (k : Namespace) : Option (Pc × Namespace) :=
  match pc with
  | .semWait seg command =>
    match semWait (k.segments seg).mem with
    | .error _ => none
    | .ok mem => some (.critical seg command, k.setMem seg mem)
  | .critical seg command =>
    match commandSection (maxNodes+1) command (k.segments seg).mem with
    | .error .outOfFuel => none
    | .error _ => some (.crashed, k)
    | .ok (reply, mem) => some (.semPost seg command reply, k.setMem seg mem)
  | .semPost seg command _ =>
    let sg := k.segments seg
    some (.menu seg, k.set seg { sg with
      mem := semPost sg.mem, completed := sg.completed++command.ops pid })
  | _ => none

def cleanup (pc : Pc) (k : Namespace) (result : ℤ) : Option (Pc × Namespace) :=
  match pc with
  | .semDestroy seg =>
    some (.shmUnlink seg, k.set seg { k.segments seg with destroyed := true })
  | .shmUnlink _ => some (.ended, if result < 0 then k else { k with entry := none })
  | _ => none

def act {ι : Type} (pid : ι → Pid) (i : ι) (e : Event) (pc : Pc) (k : Namespace) :
    Option (Pc × Namespace) :=
  match e with
  | .run result =>
    match pc with
    | .semWait _ _ | .critical _ _ | .semPost _ _ _ => operate (pid i) pc k
    | .semDestroy _ | .shmUnlink _ => cleanup pc k result
    | _ => start (pid i) pc k result
  | .command command =>
    match pc with
    | .menu seg => some (.semWait seg command, k)
    | _ => none
  | .leave =>
    match pc with
    | .menu seg => some (.askRemoval seg, k)
    | _ => none
  | .answer remove =>
    match pc with
    | .askRemoval seg => some (if remove then .semDestroy seg else .ended, k)
    | _ => none

abbrev Instances (ι : Type) := Sharing.System ι Pc Namespace

def noSegment {ι : Type} : Instances ι where
  procs _ := .off
  shared := { entry := none, nextSegment := 0, segments := fun _ =>
    { sized := false, mem := zeroFilled, creator := 0, initialised := false,
      destroyed := false, completed := [] } }

/-- The operations of the model are a wait, the critical section and a post. -/
theorem step_critical (fuel : ℕ) (pid : Pid) (op : Op) (shm : SharedMemory) :
    step fuel (pid, op) shm = (semWait shm).bind fun shm =>
      (criticalSection fuel op shm).map fun next => ((pid, next.1), semPost next.2) := by
  cases op with
  | insert data =>
    rw [step, listInsert]
    cases semWait shm with
    | error f => rfl
    | ok shm =>
      simp only [ok_bind, criticalSection, Except.bind]
      split
      · rfl
      · cases deref (some (allocateNode shm).1) <;> rfl
  | pop =>
    rw [step, listPop]
    cases semWait shm with
    | error f => rfl
    | ok shm =>
      simp only [ok_bind, criticalSection, Except.bind]
      split
      · rfl
      · cases deref (getNodeByOffset shm.headOffset) <;> rfl
  | count =>
    rw [step, listCount]
    cases semWait shm <;> rfl
  | print =>
    rw [step, listPrint]
    cases semWait shm with
    | error f => rfl
    | ok shm =>
      simp only [ok_bind, criticalSection, Except.bind]
      cases printLoop shm.nodes fuel shm.headOffset <;> rfl

theorem allocate_mutex (shm : SharedMemory) : (allocateNode shm).2.mutex = shm.mutex := by
  unfold allocateNode
  split <;> rfl

theorem free_mutex (offset : ℤ) (shm : SharedMemory) :
    (freeNode offset shm).mutex = shm.mutex := by
  unfold freeNode
  split <;> rfl

theorem critical_mutex {fuel : ℕ} {op : Op} {shm shm' : SharedMemory} {reply : Reply}
    (h : criticalSection fuel op shm = .ok (reply, shm')) : shm'.mutex = shm.mutex := by
  cases op with
  | insert data =>
    simp only [criticalSection] at h
    split at h
    · cases h
      exact allocate_mutex shm
    · obtain ⟨i, -, h⟩ := bind_ok_cases h
      cases h
      exact allocate_mutex shm
  | pop =>
    simp only [criticalSection] at h
    split at h
    · cases h
      rfl
    · obtain ⟨head, -, h⟩ := bind_ok_cases h
      cases h
      exact free_mutex _ _
  | count =>
    cases h
    rfl
  | print =>
    obtain ⟨values, -, h⟩ := bind_ok_cases h
    cases h
    rfl

theorem command_mutex {fuel : ℕ} {command : Command} {shm shm' : SharedMemory} {reply : Reply}
    (h : commandSection fuel command shm = .ok (reply, shm')) : shm'.mutex = shm.mutex := by
  cases command with
  | list op => exact critical_mutex h
  | statoMemoria =>
    simp only [commandSection] at h
    split at h
    · cases h
      rfl
    · obtain ⟨head, -, h⟩ := bind_ok_cases h
      cases h
      rfl

end ProgSistema.SharedList
