import ProgSistema.RecordFile.Model
import ProgSistema.Lib.Runs

/-!
# The two programs of the second solution

`first_process` creates `shared_file.dat` and the semaphore, `second_process`
opens `shared_file.txt` and the semaphore. Two names may denote one file. Each
writes its records and then adds one to the number of finished processes, a
field behind the data and so behind the mapped bytes. The last to finish is to
print the results.
-/

set_option autoImplicit false

namespace ProgSistema.RecordFile
open CRuntime

inductive Program where
  | first
  | second
  deriving DecidableEq, Repr

def Program.filename : Program → Bytes
  | first => text "shared_file.dat"
  | second => text "shared_file.txt"

def finishedOffset : ℕ := dataOffset+secondaSoluzione.fileSize

/-- Where a program is in its `main`. `finishedCount` has no value where the
wait before it has failed. -/
inductive MainPc where
  | openFile
  | mmap
  | clear
  | semUnlink
  | semOpen
  | worker (pc : Pc)
  | finalWait
  | increment
  | readCount
  | finalPost (finishedCount : ℤ)
  | testFinished (finishedCount : Option ℤ)
  | poll (i : ℕ) (finishedCount : Option ℤ)
  | pollTest (i : ℕ) (finishedCount : Option ℤ)
  | pollPost (found : Bool) (i : ℕ) (finishedCount : Option ℤ)
  | close (finishedCount : Option ℤ)
  | ended (finishedCount : Option ℤ)
  | failed
  deriving DecidableEq, Repr

/-- The semaphore is the object that the program has opened. -/
structure Proc where
  pc : MainPc
  sem : ℕ
  deriving DecidableEq, Repr

structure File where
  memory : SharedMemory
  processesFinished : ℤ
  touched : List (ℤ × ℕ)
  resets : ℕ
  records : List (Program × Bytes)

/-- The files, the semaphores and the one that has the name. The first bytes of
the increments of `processes_finished` only record. -/
structure World where
  files : ℕ → File
  sems : ℕ → ℕ
  named : Option ℕ
  created : ℕ
  increments : List ℤ

def World.setFile (k : World) (f : ℕ) (file : File) : World :=
  { k with files := Function.update k.files f file }

def World.setSem (k : World) (n value : ℕ) : World :=
  { k with sems := Function.update k.sems n value }

def World.view (k : World) (f sem : ℕ) : Shared Program where
  sem := k.sems sem
  memory := (k.files f).memory
  touched := (k.files f).touched
  resets := (k.files f).resets
  records := (k.files f).records

def World.put (k : World) (f sem : ℕ) (v : Shared Program) : World :=
  (k.setSem sem v.sem).setFile f
    { k.files f with
      memory := v.memory, touched := v.touched, resets := v.resets, records := v.records }

def emptied (file : File) : File :=
  { file with
    memory := { nextPosition := 0, recordCount := 0, data := fun _ => 0 }
    processesFinished := 0 }

def cleared (file : File) : File :=
  { emptied file with
    touched := file.touched++
      [(0, secondaSoluzione.fileSize), (0, 4), (4, 4), ((finishedOffset : ℤ), 4)] }

section
variable (file : Bytes → ℕ) (pid : Program → ProcessId)

/-- The start of `main`, where `ok` says whether the call succeeds as far as
the kernel's own resources and the existence of the second file go. -/
def startUp (program : Program) (ok : Bool) (proc : Proc) (k : World) : Option (Proc × World) :=
  let f := file program.filename
  match program, proc.pc with
  | .first, .openFile =>
    if ok = false then some ({ proc with pc := .failed }, k)
    else some ({ proc with pc := .mmap }, k.setFile f (emptied (k.files f)))
  | .second, .openFile => some ({ proc with pc := if ok then .mmap else .failed }, k)
  | .first, .mmap => some ({ proc with pc := if ok then .clear else .failed }, k)
  | .second, .mmap => some ({ proc with pc := if ok then .semOpen else .failed }, k)
  | _, .clear =>
    some ({ proc with pc := .semUnlink }, k.setFile f (cleared (k.files f)))
  | _, .semUnlink => some ({ proc with pc := .semOpen }, { k with named := none })
  | .first, .semOpen =>
    if ok = false ∨ k.named.isSome then some ({ proc with pc := .failed }, k)
    else some ({ pc := .worker (.loop 0), sem := k.created },
      { k.setSem k.created 1 with named := some k.created, created := k.created+1 })
  | .second, .semOpen =>
    match ok, k.named with
    | true, some n => some ({ pc := .worker (.loop 0), sem := n }, k)
    | _, _ => some ({ proc with pc := .failed }, k)
  | _, _ => none

/-- The end of `main`, from the final wait on. The first program tries the
semaphore while it waits for the other one, the second waits for it. -/
def finish (program : Program) (ok : Bool) (proc : Proc) (k : World) : Option (Proc × World) :=
  let f := file program.filename
  match proc.pc with
  | .finalWait =>
    if ok = false then some ({ proc with pc := .testFinished none }, k)
    else if k.sems proc.sem = 0 then none
    else some ({ proc with pc := .increment }, k.setSem proc.sem (k.sems proc.sem-1))
  | .increment =>
    some ({ proc with pc := .readCount },
      { k.setFile f { k.files f with
          processesFinished := toInt ((k.files f).processesFinished+1)
          touched := (k.files f).touched++[((finishedOffset : ℤ), 4)] } with
        increments := k.increments++[(finishedOffset : ℤ)] })
  | .readCount => some ({ proc with pc := .finalPost (k.files f).processesFinished }, k)
  | .finalPost n =>
    some ({ proc with pc := .testFinished (some n) }, k.setSem proc.sem (k.sems proc.sem+1))
  | .testFinished n =>
    some ({ proc with pc := if n = some 2 then .close n else .poll 0 n }, k)
  | .poll i n =>
    if i < 30 then
      if ok = false ∨ (program = .first ∧ k.sems proc.sem = 0) then
        some ({ proc with pc := .poll (i+1) n }, k)
      else if k.sems proc.sem = 0 then none
      else some ({ proc with pc := .pollTest i n }, k.setSem proc.sem (k.sems proc.sem-1))
    else some ({ proc with pc := .close n }, k)
  | .pollTest i n =>
    some ({ proc with pc := .pollPost (decide ((k.files f).processesFinished ≥ 2)) i n }, k)
  | .pollPost found i n =>
    some ({ proc with pc := if found then .close n else .poll (i+1) n },
      k.setSem proc.sem (k.sems proc.sem+1))
  | .close n =>
    some ({ proc with pc := .ended n }, if n = some 2 then { k with named := none } else k)
  | _ => none

def actProgram (program : Program) (event : Event) (proc : Proc) (k : World) :
    Option (Proc × World) :=
  match event, proc.pc with
  | .run _, .worker .ended => some ({ proc with pc := .finalWait }, k)
  | event, .worker pc =>
    (processWorker secondaSoluzione program (pid program) event pc
      (k.view (file program.filename) proc.sem)).map fun next =>
        ({ proc with pc := .worker next.1 }, k.put (file program.filename) proc.sem next.2)
  | .run ok, pc =>
    match pc with
    | .openFile | .mmap | .clear | .semUnlink | .semOpen => startUp file program ok proc k
    | _ => finish file program ok proc k
  | _, _ => none

end

abbrev Programs := Sharing.System Program Proc World

/-- The programs have been called; the files, and a semaphore with the name,
may be left from before. -/
def called (files : ℕ → File) (named : Option ℕ) (value : ℕ) : Programs where
  procs _ := { pc := .openFile, sem := 0 }
  shared :=
    { files := fun f => { files f with touched := [], resets := 0, records := [] }
      sems := fun _ => value
      named := named
      created := (named.map (·+1)).getD 0
      increments := [] }

end ProgSistema.RecordFile
