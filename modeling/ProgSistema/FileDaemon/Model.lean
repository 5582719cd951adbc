import ProgSistema.Lib.Visit
import ProgSistema.Lib.Snapshot

/-!
# The directory monitoring daemon

The initial scan fills the collection of file snapshots; each check of the
main loop scans again, logs a notice for each difference with the collection
and updates the collection in place. Every allocation may fail.
-/

set_option autoImplicit false

namespace ProgSistema.FileDaemon
open CRuntime FileTree Snapshot

def fullPathSize : ℕ := 1024

def checkTime : ℤ := 5

structure FileSnapshot where
  filepath : Bytes
  mtime : ℤ
  size : ℤ
  deriving DecidableEq, Repr

structure FileCollection where
  files : List FileSnapshot
  fileCount : ℤ
  totalSize : ℤ
  deriving DecidableEq, Repr

def initFileCollection (heap : Heap) : Option FileCollection × Heap :=
  let (ok, heap) := allocate heap
  (if ok then some { files := [], fileCount := 0, totalSize := 0 } else none, heap)

def createFileSnapshot (filepath : Bytes) (mtime size : ℤ) (heap : Heap) :
    Option FileSnapshot × Heap :=
  let (snapshotOk, heap) := allocate heap
  if snapshotOk then
    let (pathOk, heap) := allocate heap
    (if pathOk then some { filepath := filepath, mtime := mtime, size := size } else none, heap)
  else (none, heap)

/-- A snapshot that cannot be allocated is left out without a word. -/
def addFileToCollection (fc : FileCollection) (filepath : Bytes) (mtime size : ℤ) (heap : Heap) :
    FileCollection × Heap :=
  match createFileSnapshot filepath mtime size heap with
  | (none, heap) => (fc, heap)
  | (some snapshot, heap) =>
    ({ files := snapshot::fc.files, fileCount := toInt (fc.fileCount+1),
       totalSize := toLong (fc.totalSize+size) }, heap)

def findFileInCollection (files : List FileSnapshot) (filepath : Bytes) : Option FileSnapshot :=
  files.find? (fun current => current.filepath = filepath)

def isModified (oldFile newFile : FileSnapshot) : Bool :=
  decide (oldFile.mtime ≠ newFile.mtime ∨ oldFile.size ≠ newFile.size)

def fileVisitor (fs : FileSystem) : Visitor (FileCollection × Heap) where
  bufferSize := fullPathSize
  opendir := fs.opendir
  status := fs.stat
  openFailed s := s
  statusFailed s := s
  visit fullPath st s :=
    if st.type = .regular then addFileToCollection s.1 fullPath st.mtime st.size s.2 else s

def collectAllFilesRecursive (fs : FileSystem) (fuel : ℕ) (directoryPath : Bytes)
    (fc : FileCollection) (heap : Heap) : Except Fault (ℤ × FileCollection × Heap) := do
  let (opened, fc, heap) ← (fileVisitor fs).directory fuel directoryPath (fc, heap)
  return (if opened then 0 else -1, fc, heap)

abbrev Notice := Change Bytes

def message : Notice → Bytes
  | .created path => text "FILE NUOVO: "++path
  | .modified path => text "FILE MODIFICATO: "++path
  | .deleted path => text "FILE CANCELLATO: "++path

/-- The first loop of a check: the files of the original collection after it,
the notices and whether anything was found. -/
def reviewFiles (current : List FileSnapshot) :
    List FileSnapshot → ℤ → List FileSnapshot × List Notice × ℤ
  | [], found => ([], [], found)
  | originalFile::rest, found =>
    match findFileInCollection current originalFile.filepath with
    | none =>
      let (files, notices, found) := reviewFiles current rest 1
      (originalFile::files, .deleted originalFile.filepath::notices, found)
    | some currentFile =>
      if isModified originalFile currentFile then
        let (files, notices, found) := reviewFiles current rest 1
        ({ originalFile with mtime := currentFile.mtime, size := currentFile.size }::files,
          .modified originalFile.filepath::notices, found)
      else
        let (files, notices, found) := reviewFiles current rest found
        (originalFile::files, notices, found)

def addNewFiles : List FileSnapshot → FileCollection → ℤ → Heap →
    FileCollection × List Notice × ℤ × Heap
  | [], original, found, heap => (original, [], found, heap)
  | currentFile::rest, original, found, heap =>
    match findFileInCollection original.files currentFile.filepath with
    | some _ => addNewFiles rest original found heap
    | none =>
      let (original, heap) := addFileToCollection original currentFile.filepath
        currentFile.mtime currentFile.size heap
      let (original, notices, found, heap) := addNewFiles rest original 1 heap
      (original, .created currentFile.filepath::notices, found, heap)

def checkDirectoryModifications (fs : FileSystem) (fuel : ℕ) (directoryPath : Bytes)
    (original : FileCollection) (heap : Heap) :
    Except Fault (ℤ × FileCollection × List Notice × Heap) :=
  match initFileCollection heap with
  | (none, heap) => .ok (-1, original, [], heap)
  | (some current, heap) => do
    let (collected, current, heap) ← collectAllFilesRecursive fs fuel directoryPath current heap
    if collected ≠ 0 then return (-1, original, [], heap)
    else
      let (files, notices, found) := reviewFiles current.files original.files 0
      let (original, created, found, heap) :=
        addNewFiles current.files { original with files := files } found heap
      return (found, original, notices++created, heap)

/-- The loop over its iterations, each with the time it reads and the file
system it meets. The result has the return code and the notices of each check. -/
def daemonMainLoop (fuel : ℕ) (watchPath : Bytes) : List (ℤ × FileSystem) → ℤ → FileCollection →
    Heap → Except Fault (List (ℤ × List Notice) × FileCollection × Heap)
  | [], _, initialCollection, heap => .ok ([], initialCollection, heap)
  | (currentTime, fs)::rest, lastCheck, initialCollection, heap =>
    if currentTime-lastCheck ≥ checkTime then do
      let (modifications, initialCollection, notices, heap) ←
        checkDirectoryModifications fs fuel watchPath initialCollection heap
      let (checks, initialCollection, heap) ←
        daemonMainLoop fuel watchPath rest currentTime initialCollection heap
      return ((modifications, notices)::checks, initialCollection, heap)
    else daemonMainLoop fuel watchPath rest lastCheck initialCollection heap

/-- The program from its initial scan at the start time to the end of the
loop; `none` when it exits before the loop. -/
def monitor (fuel : ℕ) (watchPath : Bytes) (fs : FileSystem) (start : ℤ)
    (ticks : List (ℤ × FileSystem)) (heap : Heap) :
    Except Fault (Option (List (ℤ × List Notice))) :=
  if (fs.stat watchPath).map Stat.type ≠ some .directory then .ok none
  else
    match initFileCollection heap with
    | (none, _) => .ok none
    | (some collection, heap) => do
      let (collected, collection, heap) ←
        collectAllFilesRecursive fs fuel watchPath collection heap
      if collected ≠ 0 then return none
      else
        let (checks, _, _) ← daemonMainLoop fuel watchPath ticks start collection heap
        return some checks

end ProgSistema.FileDaemon
