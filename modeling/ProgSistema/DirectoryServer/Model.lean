import ProgSistema.Lib.FileTree

/-!
# Directory listing in the server

The growing list of paths, the two-pass string builder and the recursive
visit. Each allocation may fail; a failed visit gives up at every level. The
visit takes its depth budget as fuel, since nothing in the source bounds it.
-/

set_option autoImplicit false

namespace ProgSistema.DirectoryServer
open CRuntime FileTree

structure DirectoryList where
  paths : List Bytes
  capacity : ℕ
  deriving DecidableEq, Repr

def DirectoryList.count (list : DirectoryList) : ℕ := list.paths.length

def createDirectoryList (heap : Heap) : Option DirectoryList × Heap :=
  let (listOk, heap) := allocate heap
  if listOk then
    let (pathsOk, heap) := allocate heap
    (if pathsOk then some { paths := [], capacity := 10 } else none, heap)
  else (none, heap)

/-- Double the capacity of a full list; `none` when `realloc` fails. -/
def growList (list : DirectoryList) (heap : Heap) : Option DirectoryList × Heap :=
  if list.count ≥ list.capacity then
    let newCapacity := list.capacity*2
    let (reallocOk, heap) := allocate heap
    (if reallocOk then some { list with capacity := newCapacity } else none, heap)
  else (some list, heap)

/-- The return code, the list after the call and the heap. The write of the
new pointer must fall inside the array. -/
def addPathToList (list : DirectoryList) (path : Bytes) (heap : Heap) :
    Except Fault (ℤ × DirectoryList × Heap) :=
  match growList list heap with
  | (none, heap) => .ok (-1, list, heap)
  | (some list, heap) =>
    if list.count < list.capacity then
      let (strdupOk, heap) := allocate heap
      if strdupOk then .ok (0, { list with paths := list.paths++[path] }, heap)
      else .ok (-1, list, heap)
    else .error .outOfBounds

def totalLength (list : DirectoryList) : ℕ :=
  (list.paths.map fun p => p.length+1).sum+1

def concatPaths : List Bytes → Buffer → Except Fault Buffer
  | [], result => .ok result
  | path::paths, result => do
    let result ← strcat result path
    let result ← strcat result (text "\n")
    concatPaths paths result

def strdup (s : Bytes) (heap : Heap) : Option Bytes × Heap :=
  let (ok, heap) := allocate heap
  (if ok then some s else none, heap)

def directoryListToString (list : DirectoryList) (heap : Heap) :
    Except Fault (Option Bytes × Heap) :=
  if list.count = 0 then .ok (strdup [] heap)
  else do
    let (ok, heap) := allocate heap
    if !ok then return (none, heap)
    else
      let result ← concatPaths list.paths { size := totalLength list, content := [] }
      return (some result.content, heap)

def isDirectory (fs : FileSystem) (path : Bytes) : Bool :=
  match fs.stat path with
  | none => false
  | some st => decide (st.type = .directory)

def buildPath (dir name : Bytes) (heap : Heap) : Except Fault (Option Bytes × Heap) := do
  let (ok, heap) := allocate heap
  if !ok then return (none, heap)
  else
    let path ← strcpy { size := dir.length+name.length+2, content := [] } dir
    let path ← (if dir ≠ [] ∧ ¬ EndsInSlash dir then strcat path [slash] else .ok path)
    let path ← strcat path name
    return (some path.content, heap)

/-- The `readdir` loop over the entries still to come, where `explore` is the
recursive call. -/
def readEntries (fs : FileSystem)
    (explore : Bytes → DirectoryList → Heap → Except Fault (ℤ × DirectoryList × Heap))
    (dirPath : Bytes) :
    List Bytes → DirectoryList → Heap → Except Fault (ℤ × DirectoryList × Heap)
  | [], list, heap => .ok (0, list, heap)
  | name::stream, list, heap =>
    if name = dot ∨ name = dotdot then readEntries fs explore dirPath stream list heap
    else do
      let (fullPath, heap) ← buildPath dirPath name heap
      match fullPath with
      | none => return (-1, list, heap)
      | some fullPath =>
        if isDirectory fs fullPath then
          let (added, list, heap) ← addPathToList list fullPath heap
          if added ≠ 0 then return (-1, list, heap)
          else
            let (explored, list, heap) ← explore fullPath list heap
            if explored ≠ 0 then return (-1, list, heap)
            else readEntries fs explore dirPath stream list heap
        else readEntries fs explore dirPath stream list heap

def exploreDirectoryRecursive (fs : FileSystem) :
    ℕ → Bytes → DirectoryList → Heap → Except Fault (ℤ × DirectoryList × Heap)
  | 0, _, _, _ => .error .outOfFuel
  | fuel+1, dirPath, list, heap =>
    match fs.opendir dirPath with
    | none => .ok (-1, list, heap)
    | some stream => readEntries fs (exploreDirectoryRecursive fs fuel) dirPath stream list heap

def getDirectoriesRecursive (fs : FileSystem) (fuel : ℕ) (basePath : Bytes) (heap : Heap) :
    Except Fault (Option Bytes × Heap) :=
  if ¬ isDirectory fs basePath then
    .ok (strdup (text "ERRORE: Path specificato non è una directory\n") heap)
  else
    match createDirectoryList heap with
    | (none, heap) => .ok (none, heap)
    | (some list, heap) => do
      let (explored, list, heap) ← exploreDirectoryRecursive fs fuel basePath list heap
      if explored ≠ 0 then
        return strdup (text "ERRORE: Impossibile esplorare directory\n") heap
      else directoryListToString list heap

end ProgSistema.DirectoryServer
