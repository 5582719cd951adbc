import ProgSistema.Lib.Visit

/-!
# Asking for large files over UDP

The client sends a number. The server collects every regular file of the tree
whose size exceeds it, sends the path of each in a datagram of its own and
closes the list with a datagram that says `end`. The client prints what it
receives up to that datagram, or until its receive timeout.
-/

set_option autoImplicit false

namespace ProgSistema.FileQuery
open CRuntime FileTree

def bufferSize : ℕ := 1024

def directory : Bytes := text "/mnt/cartella_test"

/-- `slots` is the number of pointers that the array has room for. -/
structure FileCollection where
  filePaths : List Bytes
  slots : ℕ
  fileCount : ℤ
  capacity : ℤ
  totalSize : ℤ
  deriving DecidableEq, Repr

/-- The server follows the null pointer of a failed allocation, or stores
outside the array. -/
inductive Abort where
  | allocationFailed
  | outOfBounds
  deriving DecidableEq, Repr

def pointerSize : ℕ := 8

def initFileCollection (alloc : Allocator) : Except Abort FileCollection :=
  if alloc.granted 24 ∧ alloc.granted (3000*pointerSize) then
    .ok { filePaths := [], slots := 3000, fileCount := 0, capacity := 3000, totalSize := 0 }
  else .error .allocationFailed

def reallocate (alloc : Allocator) (fc : FileCollection) : Except Abort FileCollection :=
  if fc.fileCount ≥ fc.capacity then
    let capacity := toInt (fc.capacity*2)
    let bytes := toSizeT (toSizeT capacity*pointerSize)
    if alloc.granted bytes then
      .ok { fc with capacity := capacity, slots := bytes/pointerSize }
    else .error .allocationFailed
  else .ok fc

def addFileToCollection (alloc : Allocator) (fc : FileCollection) (filepath : Bytes) (size : ℤ) :
    Except Abort FileCollection := do
  let fc ← reallocate alloc fc
  if alloc.granted (filepath.length+1) then
    if 0 ≤ fc.fileCount ∧ fc.fileCount < fc.slots then
      .ok { fc with filePaths := fc.filePaths++[filepath], fileCount := toInt (fc.fileCount+1),
                    totalSize := toLong (fc.totalSize+size) }
    else .error .outOfBounds
  else .error .allocationFailed

def fileVisitor (alloc : Allocator) (fs : FileSystem) (sizeLimits : ℤ) :
    Visitor (Except Abort FileCollection) where
  bufferSize := bufferSize
  opendir := fs.opendir
  status := fs.stat
  openFailed fc := fc
  statusFailed fc := fc
  visit fullPath st fc :=
    if st.type = .regular ∧ st.size > sizeLimits
      then fc >>= fun fc => addFileToCollection alloc fc fullPath st.size else fc

/-- The outer result is about the recursion, the inner one about memory. -/
def collectAllFilesRecursive (alloc : Allocator) (fs : FileSystem) (fuel : ℕ)
    (directoryPath : Bytes) (sizeLimits : ℤ) (fc : Except Abort FileCollection) :
    Except Fault (ℤ × Except Abort FileCollection) := do
  let (opened, fc) ← (fileVisitor alloc fs sizeLimits).directory fuel directoryPath fc
  return (if opened then 0 else -1, fc)

def sizeLimits (request : Bytes) : ℤ := atoll (cstr (request.take (bufferSize-1)))

def select (alloc : Allocator) (fs : FileSystem) (fuel : ℕ) (request : Bytes) :
    Except Fault (Except Abort (List Bytes)) := do
  let (_, fc) ← collectAllFilesRecursive alloc fs fuel directory (sizeLimits request)
    (initFileCollection alloc)
  return fc.map FileCollection.filePaths

def response (filePath : Bytes) : Bytes := snprintf bufferSize (text "Path: "++filePath)

def endMarker : Bytes := text "end"

def replyTo (filePaths : List Bytes) : List Bytes := filePaths.map response++[endMarker]

inductive Command where
  | quit
  | again
  | send (number : ℤ)
  deriving DecidableEq, Repr

def readMessage (line : Bytes) : Bytes := (cstr (line.take (bufferSize-1))).takeWhile (· ≠ 10)

def readCommand (message : Bytes) : Command :=
  if message = text "quit" then .quit
  else if message = [] then .again
  else
    let (number, endptr, erange) := strtoll message
    if endptr ≠ [] then .again
    else if erange then .again
    else if number < 0 then .again
    else .send number

inductive Received where
  | datagram (b : Bytes)
  | timeout
  | failure
  deriving DecidableEq, Repr

inductive Line where
  | file (number : ℤ) (filePath : Bytes)
  | total (files : ℤ)
  | closed
  | timeout
  | failure
  deriving DecidableEq, Repr

/-- One turn of the receive loop: the line printed, the files counted so far
and whether the loop goes on. -/
def receiveOne (fileCount : ℤ) : Received → Line × ℤ × Bool
  | .datagram b =>
    if b = [] then (.closed, fileCount, false)
    else
      let response := cstr (b.take (bufferSize-1))
      if response = endMarker then (.total fileCount, fileCount, false)
      else (.file (toInt (fileCount+1)) response, toInt (fileCount+1), true)
  | .timeout => (.timeout, fileCount, false)
  | .failure => (.failure, fileCount, false)

/-- The lines printed by the receive loop and the outcomes it leaves for the
next request. -/
def receiveLoop : ℤ → List Received → List Line × List Received
  | _, [] => ([], [])
  | fileCount, r::rs =>
    match receiveOne fileCount r with
    | (line, _, false) => ([line], rs)
    | (line, fileCount, true) =>
      let (lines, rest) := receiveLoop fileCount rs
      (line::lines, rest)

end ProgSistema.FileQuery
