import ProgSistema.Lib.OffsetLog
import ProgSistema.Lib.Semaphore

/-!
# A log file shared by two programs

`processoA` and `processoB` start in the same way and differ in the text of
their records. Each instance looks for the semaphore and creates it if need
be, does the same with the file, and then appends records to the mapped file
until it is told to stop. Nothing removes the semaphore or the file.
-/

set_option autoImplicit false

namespace ProgSistema.SharedLog
open CRuntime

def fileSize : ℕ := 4096

def maxRecordSize : ℕ := 200

inductive Program where
  | processoA
  | processoB
  deriving DecidableEq, Repr

def generateRecord (program : Program) (rand : ℕ) (hour : Fin 24) (minute : Fin 60)
    (second : Fin 61) : Bytes :=
  let randomNumber : ℤ := (rand : ℤ) % 10000
  let timestamp := clockTime hour minute second
  snprintf maxRecordSize (match program with
    | .processoA =>
      text "| ProcessoA | "++printInt randomNumber++text " | "++timestamp++text " | ProcessoA |\n"
    | .processoB =>
      text "| ProcessoB"++printInt randomNumber++text " | "++timestamp++text " | ProcessoB |\n")

/-- Where an instance is. The file is mapped with the size that the instance
has found or given to it. -/
inductive Pc where
  | off
  | semCreate
  | semRetry
  | semOpen
  | openFile
  | fstat
  | ftruncate
  | mmap (size : ℕ)
  | loop (size : ℕ)
  | semWait (size : ℕ) (record : Bytes)
  | check (size : ℕ) (record : Bytes)
  | copy (size : ℕ) (record : Bytes) (safeOffset : ℤ)
  | advance (size : ℕ) (record : Bytes)
  | semPost (size : ℕ)
  | ended
  | crashed
  deriving DecidableEq, Repr

/-- `run ok` is the next step of the code, where `ok` says whether the system
call in it succeeds as far as the kernel's own resources go. -/
inductive Event where
  | run (ok : Bool)
  | write (rand : ℕ) (hour : Fin 24) (minute : Fin 60) (second : Fin 61)
  | leave
  deriving DecidableEq, Repr

/-- The semaphore and the file, where they exist. The records written since
the last reset and all completed writes only record. -/
structure Shared where
  sem : Option ℕ
  file : Option MappedFile
  written : List Bytes
  completed : List Bytes

def initSemaphore (ok : Bool) (k : Shared) : Pc → Option (Pc × Shared)
  | .off => some (if ok && k.sem.isSome then .semOpen else .semCreate, k)
  | .semCreate =>
    if ok = false then some (.ended, k)
    else match k.sem with
      | none => some (.semOpen, { k with sem := some 1 })
      | some _ => some (.semRetry, k)
  | .semRetry => some (if ok && k.sem.isSome then .semOpen else .ended, k)
  -- the last call opens the semaphore whichever call has created it
  | .semOpen =>
    if ok = false then some (.ended, k)
    else some (.openFile, { k with sem := some (k.sem.getD 1) })
  | _ => none

def emptyFile : MappedFile := ⟨fun _ => 0, 0⟩

def initSharedFile (ok : Bool) (k : Shared) : Pc → Option (Pc × Shared)
  | .openFile =>
    if ok = false then some (.ended, k)
    else some (.fstat, { k with file := some (k.file.getD emptyFile) })
  | .fstat =>
    match ok, k.file with
    | true, some f => some (if f.size = 0 then .ftruncate else .mmap f.size, k)
    | _, _ => some (.ended, k)
  | .ftruncate =>
    if ok = false then some (.ended, k)
    else some (.mmap fileSize, { k with file := k.file.map (MappedFile.ftruncate fileSize) })
  | .mmap size => some (if ok then .loop size else .ended, k)
  | _ => none

/-- `write_to_shared_file`. The offset and the bytes are those of the mapping,
the room is what the instance has mapped. -/
def writeToSharedFile (ok : Bool) (k : Shared) : Pc → Option (Pc × Shared)
  | .semWait size record =>
    if ok = false then some (.ended, k)
    else match k.sem with
      | some (value+1) => some (.check size record, { k with sem := some value })
      | _ => none
  | .check size record =>
    match k.file with
    | none => some (.crashed, k)
    | some f =>
      let mapping := { f with size := size }
      let (safeOffset, g) := mapping.place record.length
      some (.copy size record safeOffset,
        { k with file := some { g with size := f.size },
                 written := if mapping.full record.length then [] else k.written })
  | .copy size record safeOffset =>
    match k.file with
    | none => some (.crashed, k)
    | some f =>
      match MappedFile.memcpy safeOffset record { f with size := min size f.size } with
      | .error _ => some (.crashed, k)
      | .ok g => some (.advance size record, { k with file := some { g with size := f.size } })
  | .advance size record =>
    match k.file with
    | none => some (.crashed, k)
    | some f =>
      some (.semPost size,
        { k with file := some (f.storeOffset (toInt (f.offset+toInt record.length))),
                 written := k.written++[record],
                 completed := k.completed++[record] })
  -- the function ends without a value, so that the caller may go on or not
  | .semPost size => some (if ok then .loop size else .ended, { k with sem := k.sem.map (·+1) })
  | _ => none

def act {ι : Type} (program : ι → Program) (i : ι) :
    Event → Pc → Shared → Option (Pc × Shared)
  | .run ok, pc, k =>
    match pc with
    | .off | .semCreate | .semRetry | .semOpen => initSemaphore ok k pc
    | .openFile | .fstat | .ftruncate | .mmap _ => initSharedFile ok k pc
    | _ => writeToSharedFile ok k pc
  | .write rand hour minute second, .loop size, k =>
    some (.semWait size (generateRecord (program i) rand hour minute second), k)
  | .leave, .loop _, k => some (.ended, k)
  | _, _, _ => none

abbrev Instances (ι : Type) := Sharing.System ι Pc Shared

def nothing {ι : Type} : Instances ι where
  procs _ := .off
  shared := { sem := none, file := none, written := [], completed := [] }

theorem generate_record_length (program : Program) (rand : ℕ) (hour : Fin 24) (minute : Fin 60)
    (second : Fin 61) : (generateRecord program rand hour minute second).length < maxRecordSize := by
  unfold generateRecord snprintf maxRecordSize
  rw [List.length_take]
  omega

end ProgSistema.SharedLog
