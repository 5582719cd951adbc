import ProgSistema.Lib.CRuntime
import ProgSistema.Lib.Sharing

/-!
# Two writers that pass the turn by signals

`processo_a` and `processo_b` write characters into one shared segment. Each has
a writer, which waits for `can_write`, and a signal thread, which sets it on
each permission that the other process sends. No lock protects anything, so
that every access to the segment or to `can_write` is a step of its own.
-/

set_option autoImplicit false

namespace ProgSistema.PingPong
open CRuntime

def bufferSize : ℕ := 20

def rounds : ℕ := 5

inductive Party where
  | a
  | b
  deriving DecidableEq, Repr

def Party.peer : Party → Party
  | .a => .b
  | .b => .a

inductive Signal where
  | sigusr1
  | sigusr2
  | sigterm
  deriving DecidableEq, Repr

def permission : Party → Signal
  | .a => .sigusr2
  | .b => .sigusr1

structure SharedData where
  buffer : ℕ → UInt8
  writeIndex : ℕ
  processAPid : ℤ
  processBPid : ℤ
  readyFlag : ℤ

def SharedData.pid (d : SharedData) : Party → ℤ
  | .a => d.processAPid
  | .b => d.processBPid

structure Pids where
  getpid : Party → ℤ
  positive : ∀ p, 0 < getpid p
  distinct : getpid .a ≠ getpid .b

/-- The steps of `main` from the point where the segment exists. The first
three are in `processo_b` only. -/
inductive MainPc where
  | attach
  | publish
  | setReady
  | block
  | createSignal
  | createWriter
  | join
  | cancel
  | finish
  deriving DecidableEq, Repr

inductive WriterPc where
  | off
  | awaitPeer
  | loopTest (i : ℕ)
  | awaitTurn (i : ℕ)
  | checkFull (i : ℕ)
  | readSlot (i : ℕ)
  | storeChar (i slot : ℕ)
  | readIndex (i : ℕ)
  | storeIndex (i value : ℕ)
  | resetTurn (i : ℕ)
  | send (i : ℕ)
  | asleep (i : ℕ)
  | ended
  deriving DecidableEq, Repr

inductive SignalPc where
  | off
  | waiting
  | received (signal : Signal)
  | ended
  deriving DecidableEq, Repr

structure Proc where
  main : MainPc
  writer : WriterPc
  signalThread : SignalPc
  canWrite : Bool

inductive Life where
  | running
  | exited
  | killed
  deriving DecidableEq, Repr

structure Write where
  party : Party
  slot : ℕ
  char : UInt8
  deriving DecidableEq, Repr

/-- The segment and what the kernel knows of each process: whether it lives,
whether its threads block the signals, which signals are pending. The writes,
the signals sent and the signals that `sigwait` has returned only record. -/
structure Machine where
  data : SharedData
  life : Party → Life
  blocked : Party → Bool
  pending : Party → Signal → Bool
  writes : List Write
  sent : Party → ℕ
  received : Party → ℕ

inductive Action where
  | main
  | write (rand : ℕ)
  | sigwait (signal : Signal)
  | handle
  | cancelled
  deriving DecidableEq, Repr

def randomChar (rand : ℕ) : UInt8 := UInt8.ofNat (65+rand % 26)

/-- The default action of the three signals is to end the process. A signal
that is pending already is not queued a second time. -/
def deliver (q : Party) (signal : Signal) (k : Machine) : Machine :=
  if k.life q ≠ .running then k
  else if k.blocked q then
    { k with pending := Function.update k.pending q (Function.update (k.pending q) signal true) }
  else { k with life := Function.update k.life q .killed }

def kill (pids : Pids) (pid : ℤ) (signal : Signal) (k : Machine) : Machine :=
  if pid = pids.getpid .a then deliver .a signal k
  else if pid = pids.getpid .b then deliver .b signal k
  else k

def mainThread (pids : Pids) (p : Party) (proc : Proc) (k : Machine) : Option (Proc × Machine) :=
  match proc.main with
  | .attach => some ({ proc with main := .publish }, k)
  | .publish =>
    some ({ proc with main := .setReady },
      { k with data := { k.data with processBPid := pids.getpid p } })
  | .setReady =>
    some ({ proc with main := .block }, { k with data := { k.data with readyFlag := 1 } })
  | .block =>
    some ({ proc with main := .createSignal },
      { k with blocked := Function.update k.blocked p true })
  | .createSignal => some ({ proc with main := .createWriter, signalThread := .waiting }, k)
  | .createWriter =>
    some ({ proc with
      main := .join, writer := match p with | .a => .awaitPeer | .b => .loopTest 0 }, k)
  | .join => if proc.writer = .ended then some ({ proc with main := .cancel }, k) else none
  | .cancel => some ({ proc with main := .finish }, k)
  -- the threads end with the process, and what is pending for it is discarded
  | .finish =>
    some ({ proc with signalThread := .ended },
      { k with life := Function.update k.life p .exited,
               pending := Function.update k.pending p fun _ => false })

def writerThread (pids : Pids) (p : Party) (rand : ℕ) (proc : Proc) (k : Machine) :
    Option (Proc × Machine) :=
  let goes (pc : WriterPc) : Proc := { proc with writer := pc }
  match proc.writer with
  | .off => none
  | .awaitPeer => if k.data.processBPid = 0 then none else some (goes (.loopTest 0), k)
  | .loopTest i => some (goes (if i < rounds then .awaitTurn i else .ended), k)
  | .awaitTurn i => if proc.canWrite then some (goes (.checkFull i), k) else none
  | .checkFull i =>
    some (goes (if bufferSize ≤ k.data.writeIndex then .ended else .readSlot i), k)
  | .readSlot i => some (goes (.storeChar i k.data.writeIndex), k)
  | .storeChar i slot =>
    some (goes (.readIndex i),
      { k with data := { k.data with
                 buffer := Function.update k.data.buffer slot (randomChar rand) },
               writes := k.writes++[⟨p, slot, randomChar rand⟩] })
  | .readIndex i => some (goes (.storeIndex i k.data.writeIndex), k)
  | .storeIndex i value =>
    some (goes (.resetTurn i), { k with data := { k.data with writeIndex := value+1 } })
  | .resetTurn i => some ({ proc with writer := .send i, canWrite := false }, k)
  | .send i =>
    if 0 < k.data.pid p.peer then
      some (goes (.asleep i), kill pids (k.data.pid p.peer) (permission p.peer)
        { k with sent := Function.update k.sent p (k.sent p+1) })
    else some (goes (.asleep i), k)
  | .asleep i => some (goes (.loopTest (i+1)), k)
  | .ended => none

def signalThread (p : Party) (proc : Proc) : Option Proc :=
  match proc.signalThread with
  | .received signal =>
    if signal = permission p then some { proc with signalThread := .waiting, canWrite := true }
    else if signal = .sigterm then some { proc with signalThread := .ended }
    else some { proc with signalThread := .waiting }
  | _ => none

/-- One step of a thread of a process. A cancelled signal thread ends where it
waits or prints. -/
def act (pids : Pids) (p : Party) (action : Action) (proc : Proc) (k : Machine) :
    Option (Proc × Machine) :=
  if k.life p ≠ .running then none
  else match action with
  | .main => mainThread pids p proc k
  | .write rand => writerThread pids p rand proc k
  | .sigwait signal =>
    if proc.signalThread = .waiting ∧ k.pending p signal = true then
      some ({ proc with signalThread := .received signal },
        { k with pending := Function.update k.pending p
                   (Function.update (k.pending p) signal false),
                 received := Function.update k.received p (k.received p+1) })
    else none
  | .handle => (signalThread p proc).map fun next => (next, k)
  | .cancelled =>
    if proc.main = .finish ∧ proc.signalThread ≠ .off then
      some ({ proc with signalThread := .ended }, k)
    else none

abbrev Processes := Sharing.System Party Proc Machine

abbrev Event := Party × Action

/-- `processo_a` has initialised the segment, and nothing else has happened.
The buffer and `ready_flag` are as the segment had them. -/
def segmentReady (pids : Pids) (buffer : ℕ → UInt8) (readyFlag : ℤ) : Processes where
  procs
    | .a => { main := .block, writer := .off, signalThread := .off, canWrite := true }
    | .b => { main := .attach, writer := .off, signalThread := .off, canWrite := false }
  shared :=
    { data :=
        { buffer := buffer, writeIndex := 0, processAPid := pids.getpid .a, processBPid := 0,
          readyFlag := readyFlag }
      life _ := .running
      blocked _ := false
      pending _ _ := false
      writes := []
      sent _ := 0
      received _ := 0 }

def sends (e : Event) (s : Processes) : Bool :=
  match e.2, (s.procs e.1).writer with
  | .write _, .send _ => true
  | _, _ => false

@[simp] theorem peer_peer (p : Party) : p.peer.peer = p := by
  cases p <;> rfl

theorem peer_ne (p : Party) : p.peer ≠ p := by
  cases p <;> decide

theorem eq_peer {p q : Party} (h : q ≠ p) : q = p.peer := by
  cases p <;> cases q <;> first | rfl | exact absurd rfl h

theorem act_running {pids : Pids} {p : Party} {action : Action} {proc proc' : Proc}
    {k k' : Machine} (h : act pids p action proc k = some (proc', k')) : k.life p = .running := by
  unfold act at h
  split at h
  · cases h
  · rename_i hlife
    exact not_not.mp hlife

end ProgSistema.PingPong
