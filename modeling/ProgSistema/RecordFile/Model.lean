import ProgSistema.Lib.ArrayPrefix
import ProgSistema.Lib.CRuntime
import ProgSistema.Lib.Sharing

/-!
# Records in a mapped file

Processes append records to one mapped file, ten records each, under a
semaphore. The file begins with the position of the next record and the number
of records. `process_writing_file` forks its second process; the two programs
of the second solution have the same functions, with another size and format.
-/

set_option autoImplicit false

namespace ProgSistema.RecordFile
open CRuntime

def maxRecords : ℕ := 50

def recordSize : ℕ := 128

def dataOffset : ℕ := 8

/-- Process identifiers of at most ten digits. -/
abbrev ProcessId := Fin (10^10)

instance four_digit_years : NeZero (10^4) := ⟨by decide⟩

instance months_of_year : NeZero 13 := ⟨by decide⟩

instance days_of_month : NeZero 32 := ⟨by decide⟩

structure Timestamp where
  year : Fin (10^4)
  month : Fin 13
  day : Fin 32
  hour : Fin 24
  minute : Fin 60
  second : Fin 61
  deriving DecidableEq, Repr

def digits : ℕ → ℕ → Bytes
  | 0, _ => []
  | width+1, n => digits width (n/10)++[UInt8.ofNat (48+n % 10)]

def getTimestamp (t : Timestamp) : Bytes :=
  digits 4 t.year++text "-"++digits 2 t.month++text "-"++digits 2 t.day++text " "++
    clockTime t.hour t.minute t.second

structure SharedMemory where
  nextPosition : ℤ
  recordCount : ℤ
  data : ℕ → UInt8

structure Solution where
  fileSize : ℕ
  format : ProcessId → ℕ → Timestamp → Bytes

def processWritingFile : Solution where
  fileSize := 4096
  format processId randomNumber time :=
    printInt processId++text "_"++printInt randomNumber++text "_"++getTimestamp time++text "_"++
      printInt processId++text "'\n"

def secondaSoluzione : Solution where
  fileSize := 4112
  format processId randomNumber time :=
    text " | "++printInt processId++text " | "++printInt randomNumber++text " | "++
      getTimestamp time++text " | "++printInt processId++text " |\n"

inductive Pc where
  | loop (i : ℕ)
  | semWait (i : ℕ)
  | testCount (i : ℕ)
  | generate (i : ℕ)
  | testSpace (i : ℕ) (message : Bytes)
  | copy (i : ℕ) (message : Bytes) (writePos : ℤ)
  | setPosition (i : ℕ) (message : Bytes) (writePos : ℤ)
  | addCount (i : ℕ)
  | semPost (i : ℕ)
  | testLimit (i : ℕ)
  | ended
  deriving DecidableEq, Repr

/-- `run ok` is the next step of the code, where `ok` says whether the wait on
the semaphore in it succeeds. -/
inductive Event where
  | run (ok : Bool)
  | generate (rand : ℕ) (time : Timestamp)
  deriving DecidableEq, Repr

/-- The bytes that have been written, as a first byte and a number, the resets
and the records with their writers only record. -/
structure Shared (ι : Type) where
  sem : ℕ
  memory : SharedMemory
  touched : List (ℤ × ℕ)
  resets : ℕ
  records : List (ι × Bytes)

section
variable {ι : Type} (p : Solution)

def writeRecord (process : ι) (processId : ProcessId) :
    Event → Pc → Shared ι → Option (Pc × Shared ι)
  | .run ok, .semWait i, k =>
    if ok = false then some (.testLimit i, k)
    else if k.sem = 0 then none
    else some (.testCount i, { k with sem := k.sem-1 })
  | .run _, .testCount i, k =>
    some (if k.memory.recordCount ≥ maxRecords then .semPost i else .generate i, k)
  | .generate rand time, .generate i, k =>
    some (.testSpace i (snprintf recordSize (p.format processId (rand % 10000) time)), k)
  | .run _, .testSpace i message, k =>
    let writePos := k.memory.nextPosition
    if toInt (writePos+message.length) ≥ (p.fileSize : ℤ)-1 then
      some (.copy i message 0,
        { k with memory := { k.memory with nextPosition := 0 },
                 touched := k.touched++[(0, 4)], resets := k.resets+1 })
    else some (.copy i message writePos, k)
  | .run _, .copy i message writePos, k =>
    some (.setPosition i message writePos,
      { k with
        memory := { k.memory with
          data := ArrayPrefix.write k.memory.data writePos.toNat message }
        touched := k.touched++[(dataOffset+writePos, message.length)] })
  | .run _, .setPosition i message writePos, k =>
    some (.addCount i,
      { k with memory := { k.memory with nextPosition := toInt (writePos+message.length) },
               touched := k.touched++[(0, 4)], records := k.records++[(process, message)] })
  | .run _, .addCount i, k =>
    some (.semPost i,
      { k with memory := { k.memory with recordCount := toInt (k.memory.recordCount+1) },
               touched := k.touched++[(4, 4)] })
  | .run _, .semPost i, k => some (.testLimit i, { k with sem := k.sem+1 })
  | _, _, _ => none

/-- `process_worker`. The pauses take any time. -/
def processWorker (process : ι) (processId : ProcessId) :
    Event → Pc → Shared ι → Option (Pc × Shared ι)
  | .run _, .loop i, k => some (if i < 10 then .semWait i else .ended, k)
  | .run _, .testLimit i, k =>
    some (if k.memory.recordCount ≥ maxRecords then .ended else .loop (i+1), k)
  | event, pc, k => writeRecord p process processId event pc k

end

inductive Process where
  | padre
  | figlio
  deriving DecidableEq, Repr

def act (pid : Process → ProcessId) (process : Process) :
    Event → Pc → Shared Process → Option (Pc × Shared Process) :=
  processWorker processWritingFile process (pid process)

abbrev Workers := Sharing.System Process Pc (Shared Process)

def started : Workers where
  procs _ := .loop 0
  shared :=
    { sem := 1
      memory := { nextPosition := 0, recordCount := 0, data := fun _ => 0 }
      touched := [(0, processWritingFile.fileSize), (0, 4), (4, 4)]
      resets := 0
      records := [] }

abbrev Reachable (pid : Process → ProcessId) (s : Workers) : Prop :=
  Runs.Reachable (Sharing.step (act pid)) started s

end ProgSistema.RecordFile
