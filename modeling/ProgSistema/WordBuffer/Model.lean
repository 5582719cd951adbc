import ProgSistema.Lib.ArrayPrefix
import ProgSistema.Lib.CRuntime
import ProgSistema.Lib.Semaphore

/-!
# Words written in turn into a shared buffer

A parent loads the words of a file, creates a buffer and two semaphores and
forks three workers. Each worker appends a random word when the turn is its
own and passes the turn on. The parent waits for the workers and prints the
buffer; an interrupt makes whoever receives it print its contents and exit.
-/

set_option autoImplicit false

namespace ProgSistema.WordBuffer
open CRuntime

def sharedMemSize : ℕ := 4096

def maxWordLen : ℕ := 100

def numProcesses : ℕ := 3

def scanWord (s : Bytes) : Option (Bytes × Bytes) :=
  let s := s.dropWhile isSpace
  if s = [] then none
  else
    let word := (s.takeWhile fun b => !isSpace b).take (maxWordLen-1)
    some (word, s.drop word.length)

/-- The loop of `load_words_from_file` while `n` words may still be stored.
The copy of a word ends at its first zero byte. -/
def scanWords : ℕ → Bytes → List Bytes
  | 0, _ => []
  | n+1, s =>
    match scanWord s with
    | none => []
    | some (word, rest) => cstr word::scanWords n rest

/-- `load_words_from_file`; there is no file when it cannot be opened. -/
def loadWordsFromFile : Option Bytes → List Bytes
  | none => []
  | some file => scanWords 1000 file

def getRandomWord (words : List Bytes) (rand : ℕ) : Option Bytes := words[rand % words.length]?

inductive ProcessId where
  | parent
  | worker (id : ℕ)
  deriving DecidableEq, Repr

/-- Where the parent or a worker is. A worker about to post its semaphores
leaves its loop afterwards or not. -/
inductive Pc where
  | fork (i : ℕ)
  | wait (i : ℕ)
  | finalTest
  | terminate
  | printed
  | failed
  | unborn
  | waitTurn
  | waitMutex
  | testTurn
  | chooseWord
  | checkSpace (word : Bytes)
  | putSpace (word : Bytes)
  | bumpPos (word : Bytes)
  | copyWord (word : Bytes)
  | addLength (word : Bytes)
  | countWord (word : Bytes)
  | passTurn
  | postMutex (leave : Bool)
  | postTurn (leave : Bool)
  | left
  | exited
  | crashed
  deriving DecidableEq, Repr

inductive Handler where
  | test
  | copy
  | terminate
  | exit
  | exited
  | crashed
  deriving DecidableEq, Repr

structure Process where
  pc : Pc
  handler : Option Handler
  deriving DecidableEq, Repr

/-- `run rand` is the next step of a process, where `rand` is the result of the
call if the step makes one. -/
inductive Event where
  | run (rand : ℕ)
  | forkFails
  | sigint
  deriving DecidableEq, Repr

structure SharedData where
  buffer : ℕ → UInt8
  currentPos : ℕ
  wordCount : ℤ
  turn : ℕ

/-- The shared memory and the semaphores, and what the kernel knows about the
children. The words written, with their writers, only record. -/
structure Shared where
  data : SharedData
  mutexSem : ℕ
  turnSem : ℕ
  forked : ℕ
  exited : List ℕ
  written : List (ℕ × Bytes)

def Shared.exit (p : ProcessId) (k : Shared) : Shared :=
  match p with
  | .parent => k
  | .worker id => { k with exited := k.exited++[id] }

def SharedData.store (pos : ℕ) (b : Bytes) (d : SharedData) : Except Fault SharedData :=
  if pos+b.length ≤ sharedMemSize
    then .ok { d with buffer := ArrayPrefix.write d.buffer pos b } else .error .outOfBounds

def SharedData.passTurn (d : SharedData) : SharedData :=
  { d with turn := (d.turn+1) % numProcesses }

/-- `sigint_handler`. Its copy has the size of the buffer, and `current_pos` is
read again for each of its steps. -/
def sigintHandler (p : ProcessId) (k : Shared) : Handler → Option (Handler × Shared)
  | .test => some (if k.data.currentPos > 0 then .copy else .exit, k)
  | .copy => some (if k.data.currentPos ≤ sharedMemSize then .terminate else .crashed, k)
  | .terminate => some (if k.data.currentPos < sharedMemSize then .exit else .crashed, k)
  | .exit => some (.exited, k.exit p)
  | .exited | .crashed => none

def mainStep (k : Shared) : Pc → Option (Pc × Shared)
  | .fork i =>
    some (if i+1 < numProcesses then .fork (i+1) else .wait 0, { k with forked := i+1 })
  | .wait i =>
    if i < k.exited.length
      then some (if i+1 < numProcesses then .wait (i+1) else .finalTest, k) else none
  | .finalTest => some (if k.data.currentPos > 0 then .terminate else .printed, k)
  | .terminate =>
    match k.data.store k.data.currentPos [0] with
    | .error _ => some (.crashed, k)
    | .ok d => some (.printed, { k with data := d })
  | _ => none

def criticalSection (words : List Bytes) (id rand : ℕ) (d : SharedData) :
    Pc → Option (Pc × SharedData)
  | .testTurn => some (if d.turn ≠ id then .postMutex false else .chooseWord, d)
  | .chooseWord =>
    match getRandomWord words rand with
    | none => some (.postMutex false, d.passTurn)
    | some word => some (.checkSpace word, d)
  -- the turn stays where it is when there is no space left
  | .checkSpace word =>
    if d.currentPos+word.length+1 ≥ sharedMemSize then some (.postMutex true, d)
    else some (if d.currentPos > 0 then .putSpace word else .copyWord word, d)
  | .putSpace word =>
    match d.store d.currentPos [32] with
    | .error _ => some (.crashed, d)
    | .ok d => some (.bumpPos word, d)
  | .bumpPos word => some (.copyWord word, { d with currentPos := d.currentPos+1 })
  | .copyWord word =>
    match d.store d.currentPos word with
    | .error _ => some (.crashed, d)
    | .ok d => some (.addLength word, d)
  | .addLength word => some (.countWord word, { d with currentPos := d.currentPos+word.length })
  | .countWord _ => some (.passTurn, { d with wordCount := toInt (d.wordCount+1) })
  | .passTurn => some (.postMutex false, d.passTurn)
  | _ => none

/-- `process_worker`. A word counts as written when its writer counts it. -/
def processWorker (words : List Bytes) (id rand : ℕ) (k : Shared) (pc : Pc) :
    Option (Pc × Shared) :=
  match pc with
  | .unborn => if id < k.forked then some (.waitTurn, k) else none
  | .waitTurn => if k.turnSem = 0 then none else some (.waitMutex, { k with turnSem := k.turnSem-1 })
  | .waitMutex =>
    if k.mutexSem = 0 then none else some (.testTurn, { k with mutexSem := k.mutexSem-1 })
  | .postMutex leave => some (.postTurn leave, { k with mutexSem := k.mutexSem+1 })
  | .postTurn leave =>
    some (if leave then .left else .waitTurn, { k with turnSem := k.turnSem+1 })
  | .left => some (.exited, k.exit (.worker id))
  | _ => (criticalSection words id rand k.data pc).map fun next =>
    (next.1, { k with data := next.2, written := match pc with
      | .countWord word => k.written++[(id, word)]
      | _ => k.written })

def Pc.alive : Pc → Bool
  | .printed | .failed | .unborn | .exited | .crashed => false
  | _ => true

def act (words : List Bytes) (p : ProcessId) (e : Event) (q : Process) (k : Shared) :
    Option (Process × Shared) :=
  match e, q.handler with
  | .run _, some h =>
    (sigintHandler p k h).map fun next => ({ q with handler := some next.1 }, next.2)
  | .run rand, none =>
    let next := match p with
      | .parent => mainStep k q.pc
      | .worker id => processWorker words id rand k q.pc
    next.map fun next => ({ q with pc := next.1 }, next.2)
  | .forkFails, none =>
    match q.pc with
    | .fork _ => some ({ q with pc := .failed }, k)
    | _ => none
  | .sigint, none => if q.pc.alive then some ({ q with handler := some .test }, k) else none
  | _, some _ => none

abbrev Processes := Sharing.System ProcessId Process Shared

/-- The state in which `main` begins to fork; without words it exits. -/
def started (words : List Bytes) : Processes where
  procs p := match p with
    | .parent => ⟨if words = [] then .failed else .fork 0, none⟩
    | .worker _ => ⟨.unborn, none⟩
  shared := { data := { buffer := fun _ => 0, currentPos := 0, wordCount := 0, turn := 0 },
              mutexSem := 1, turnSem := 1, forked := 0, exited := [], written := [] }

/-- A file without zero bytes has no empty words. -/
theorem scan_words_nonempty {n : ℕ} {s w : Bytes} (hs : 0 ∉ s) (h : w ∈ scanWords n s) :
    w ≠ [] := by
  induction n generalizing s with
  | zero => cases h
  | succ n ih =>
    rw [scanWords] at h
    cases hscan : scanWord s with
    | none =>
      rw [hscan] at h
      cases h
    | some next =>
      rw [hscan] at h
      unfold scanWord at hscan
      dsimp only at hscan
      split at hscan
      · cases hscan
      · rename_i hne
        cases hscan
        have hdrop : 0 ∉ s.dropWhile isSpace := fun h0 => hs ((List.dropWhile_sublist _).mem h0)
        rcases List.mem_cons.mp h with hw | hrest
        · obtain ⟨b, t, hbt⟩ := List.exists_cons_of_ne_nil hne
          have hb : isSpace b = false := by
            have hhead := List.head?_dropWhile_not isSpace s
            rw [hbt] at hhead
            simpa using hhead
          have hb0 : b ≠ 0 := by
            intro h0
            apply hdrop
            rw [hbt, h0]
            exact List.mem_cons_self
          rw [hw, hbt]
          simp [cstr, hb, hb0, maxWordLen]
        · exact ih (fun h0 => hdrop (List.mem_of_mem_drop h0)) hrest

theorem word_nonempty {file : Option Bytes} {w : Bytes} (hfile : ∀ f, file = some f → 0 ∉ f)
    (h : w ∈ loadWordsFromFile file) : w ≠ [] := by
  cases file with
  | none => cases h
  | some file => exact scan_words_nonempty (hfile file rfl) h

end ProgSistema.WordBuffer
