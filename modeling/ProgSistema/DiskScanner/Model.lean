import ProgSistema.Lib.Visit
import ProgSistema.Lib.Runs

/-!
# The directory scanner and its two threads

The scanner thread visits a directory tree and passes one record for each
entry through a circular buffer; the counter thread adds up the sizes of the
inodes it has not met. Threads interleave at the calls on the mutex and the
condition variables. What a thread does between two such calls is one step.
-/

set_option autoImplicit false

namespace ProgSistema.DiskScanner
open CRuntime FileTree

def maxPathLen : ℕ := 4096
def bufferSize : ℕ := 1000
def maxInodes : ℕ := 10000

structure NodeInfo where
  path : Bytes
  size : ℤ
  hardLinks : ℕ
  inode : ℕ
  valid : Bool
  deriving DecidableEq, Repr

inductive Thread where
  | scanner
  | counter
  deriving DecidableEq, Repr

structure SharedBuffer where
  nodes : Fin bufferSize → NodeInfo
  writeIndex : ℕ
  readIndex : ℕ
  count : ℤ
  finished : Bool
  mutex : Option Thread

def initSharedBuffer : SharedBuffer where
  nodes _ := { path := [], size := 0, hardLinks := 0, inode := 0, valid := false }
  writeIndex := 0
  readIndex := 0
  count := 0
  finished := false
  mutex := none

namespace SharedBuffer

def lock (b : SharedBuffer) (t : Thread) : Option SharedBuffer :=
  if b.mutex = none then some { b with mutex := some t } else none

def unlock (b : SharedBuffer) : SharedBuffer := { b with mutex := none }

def addNode (b : SharedBuffer) (node : NodeInfo) : Option SharedBuffer :=
  if h : b.writeIndex < bufferSize then
    some { b with
      nodes := Function.update b.nodes ⟨b.writeIndex, h⟩ node
      writeIndex := (b.writeIndex+1) % bufferSize
      count := b.count+1 }
  else none

def getNode (b : SharedBuffer) : Option (NodeInfo × SharedBuffer) :=
  if h : b.readIndex < bufferSize then
    some (b.nodes ⟨b.readIndex, h⟩,
      { b with readIndex := (b.readIndex+1) % bufferSize, count := b.count-1 })
  else none

end SharedBuffer

structure InodeTracker where
  inodes : List ℕ
  deriving DecidableEq, Repr

def InodeTracker.count (tracker : InodeTracker) : ℕ := tracker.inodes.length

def isInodeVisited (tracker : InodeTracker) (inode : ℕ) : Bool × InodeTracker :=
  let found := tracker.inodes.any (· = inode)
  (found, if !found && decide (tracker.count < maxInodes)
    then { inodes := tracker.inodes++[inode] } else tracker)

/-- The position of the scanner thread. A node is the argument of the call in
progress; `waiting` is blocked in the wait, `woken` has to regain the mutex. -/
inductive ScannerPc where
  | scanning
  | addLock (node : NodeInfo)
  | addTest (node : NodeInfo)
  | addWaiting (node : NodeInfo)
  | addWoken (node : NodeInfo)
  | addSignal
  | addUnlock
  | finishLock
  | finishSet
  | finishBroadcast
  | finishUnlock
  | ended
  deriving DecidableEq, Repr

inductive CounterPc where
  | start
  | getLock
  | getTest
  | getWaiting
  | getWoken
  | getSignal (node : NodeInfo)
  | getUnlock (result : Option NodeInfo)
  | process (node : NodeInfo)
  | ended
  deriving DecidableEq, Repr

/-- `todo` is what the scan has still to pass on. The sequences `passed`,
`obtained` and `processed` only record what has happened. -/
structure State where
  buffer : SharedBuffer
  scanner : ScannerPc
  counter : CounterPc
  todo : List NodeInfo
  tracker : InodeTracker
  totalBytes : BitVec 64
  nodesProcessed : BitVec 64
  nodesSkipped : BitVec 64
  passed : List NodeInfo
  obtained : List NodeInfo
  processed : List NodeInfo

def initial (work : List NodeInfo) : State where
  buffer := initSharedBuffer
  scanner := .scanning
  counter := .start
  todo := work
  tracker := { inodes := [] }
  totalBytes := 0
  nodesProcessed := 0
  nodesSkipped := 0
  passed := []
  obtained := []
  processed := []

/-- The only thread that waits on `not_empty` is the counter. -/
def signalNotEmpty : CounterPc → CounterPc
  | .getWaiting => .getWoken
  | pc => pc

def signalNotFull : ScannerPc → ScannerPc
  | .addWaiting node => .addWoken node
  | pc => pc

def stepScanner (s : State) : Option State :=
  match s.scanner with
  | .scanning =>
    match s.todo with
    | [] => some { s with scanner := .finishLock }
    | node::todo =>
      some { s with scanner := .addLock node, todo := todo, passed := s.passed++[node] }
  | .addLock node =>
    (s.buffer.lock .scanner).map fun b => { s with buffer := b, scanner := .addTest node }
  | .addTest node =>
    if s.buffer.count ≥ bufferSize then
      some { s with buffer := s.buffer.unlock, scanner := .addWaiting node }
    else (s.buffer.addNode node).map fun b => { s with buffer := b, scanner := .addSignal }
  | .addWaiting _ => none
  | .addWoken node =>
    (s.buffer.lock .scanner).map fun b => { s with buffer := b, scanner := .addTest node }
  | .addSignal => some { s with scanner := .addUnlock, counter := signalNotEmpty s.counter }
  | .addUnlock => some { s with buffer := s.buffer.unlock, scanner := .scanning }
  | .finishLock =>
    (s.buffer.lock .scanner).map fun b => { s with buffer := b, scanner := .finishSet }
  | .finishSet =>
    some { s with buffer := { s.buffer with finished := true }, scanner := .finishBroadcast }
  | .finishBroadcast =>
    some { s with scanner := .finishUnlock, counter := signalNotEmpty s.counter }
  | .finishUnlock => some { s with buffer := s.buffer.unlock, scanner := .ended }
  | .ended => none

def processNode (s : State) (node : NodeInfo) : State :=
  let (visited, tracker) := isInodeVisited s.tracker node.inode
  { s with
    nodesProcessed := s.nodesProcessed+1
    tracker := tracker
    nodesSkipped := if visited then s.nodesSkipped+1 else s.nodesSkipped
    totalBytes := if visited then s.totalBytes else s.totalBytes+BitVec.ofInt 64 node.size
    processed := s.processed++[node] }

def stepCounter (s : State) : Option State :=
  match s.counter with
  | .start => some { s with totalBytes := 0, counter := .getLock }
  | .getLock =>
    (s.buffer.lock .counter).map fun b => { s with buffer := b, counter := .getTest }
  | .getTest =>
    if s.buffer.count = 0 ∧ ¬ s.buffer.finished then
      some { s with buffer := s.buffer.unlock, counter := .getWaiting }
    else if s.buffer.count > 0 then
      s.buffer.getNode.map fun (node, b) => { s with buffer := b, counter := .getSignal node }
    else some { s with counter := .getUnlock none }
  | .getWaiting => none
  | .getWoken =>
    (s.buffer.lock .counter).map fun b => { s with buffer := b, counter := .getTest }
  | .getSignal node =>
    some { s with counter := .getUnlock (some node), scanner := signalNotFull s.scanner }
  | .getUnlock (some node) =>
    some { s with
      buffer := s.buffer.unlock
      counter := .process node
      obtained := s.obtained++[node] }
  | .getUnlock none => some { s with buffer := s.buffer.unlock, counter := .ended }
  | .process node => some { processNode s node with counter := .getLock }
  | .ended => none

/-- A thread runs on to its next call, or wakes without having been signalled. -/
inductive Action where
  | run (t : Thread)
  | wakeUp (t : Thread)
  deriving DecidableEq, Repr

def wakeSpuriously (s : State) : Thread → Option State
  | .scanner =>
    match s.scanner with
    | .addWaiting node => some { s with scanner := .addWoken node }
    | _ => none
  | .counter =>
    match s.counter with
    | .getWaiting => some { s with counter := .getWoken }
    | _ => none

def step : Action → State → Option State
  | .run .scanner, s => stepScanner s
  | .run .counter, s => stepCounter s
  | .wakeUp t, s => wakeSpuriously s t

abbrev Reachable (work : List NodeInfo) (s : State) : Prop :=
  Runs.Reachable step (initial work) s

def nodeInfo (fullPath : Bytes) (st : Stat) : NodeInfo where
  path := fullPath.take (maxPathLen-1)
  size := st.size
  hardLinks := st.nlink
  inode := st.ino
  valid := true

structure Scan where
  added : List NodeInfo
  scannerErrors : ℕ
  deriving DecidableEq, Repr

def scanVisitor (fs : FileSystem) : Visitor Scan where
  bufferSize := maxPathLen
  opendir := fs.opendir
  status := fs.lstat
  openFailed acc := { acc with scannerErrors := acc.scannerErrors+1 }
  statusFailed acc := { acc with scannerErrors := acc.scannerErrors+1 }
  visit fullPath st acc := { acc with added := acc.added++[nodeInfo fullPath st] }

def scanDirectoryRecursive (fs : FileSystem) (fuel : ℕ) (dirPath : Bytes) (acc : Scan) :
    Except Fault Scan :=
  ((scanVisitor fs).directory fuel dirPath acc).map Prod.snd

end ProgSistema.DiskScanner
