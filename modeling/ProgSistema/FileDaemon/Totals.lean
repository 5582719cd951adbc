import ProgSistema.FileDaemon.OwnPaths
import ProgSistema.Lib.Runs

/-!
# The counters of a collection

A collection counts its files and adds up their sizes as files are inserted. A
check also writes the time and size of a modified file into its snapshot, and
the sum stays what it was.
-/

set_option autoImplicit false

namespace ProgSistema.FileDaemon
open CRuntime FileTree

def Consistent (fc : FileCollection) : Prop :=
  fc.fileCount = fc.files.length ∧ fc.totalSize = (fc.files.map FileSnapshot.size).sum

inductive Operation where
  | add (f : FileSnapshot)
  | update (position : ℕ) (mtime size : ℤ)
  deriving DecidableEq, Repr

def apply : Operation → FileCollection → Option FileCollection
  | .add f, fc =>
    some { files := f::fc.files, fileCount := toInt (fc.fileCount+1),
           totalSize := toLong (fc.totalSize+f.size) }
  | .update position mtime size, fc =>
    if position < fc.files.length then
      some { fc with files := fc.files.modify position fun f =>
        { f with mtime := mtime, size := size } }
    else none

/-! The operations of a scan and of a check. -/

def addOperation (filepath : Bytes) (mtime size : ℤ) (heap : Heap) : List Operation × Heap :=
  match createFileSnapshot filepath mtime size heap with
  | (none, heap) => ([], heap)
  | (some snapshot, heap) => ([.add snapshot], heap)

def scanOperations : List (Bytes × Stat) → Heap → List Operation × Heap
  | [], heap => ([], heap)
  | (fullPath, st)::log, heap =>
    if st.type = .regular then
      let (added, heap) := addOperation fullPath st.mtime st.size heap
      let (rest, heap) := scanOperations log heap
      (added++rest, heap)
    else scanOperations log heap

def reviewOperations (current : List FileSnapshot) : ℕ → List FileSnapshot → List Operation
  | _, [] => []
  | position, originalFile::rest =>
    match findFileInCollection current originalFile.filepath with
    | none => reviewOperations current (position+1) rest
    | some currentFile =>
      if isModified originalFile currentFile then
        .update position currentFile.mtime currentFile.size::
          reviewOperations current (position+1) rest
      else reviewOperations current (position+1) rest

def newOperations : List FileSnapshot → FileCollection → Heap → List Operation
  | [], _, _ => []
  | currentFile::rest, original, heap =>
    match findFileInCollection original.files currentFile.filepath with
    | some _ => newOperations rest original heap
    | none =>
      let (original, later) := addFileToCollection original currentFile.filepath
        currentFile.mtime currentFile.size heap
      (addOperation currentFile.filepath currentFile.mtime currentFile.size heap).1++
        newOperations rest original later

def checkOperations (fs : FileSystem) (fuel : ℕ) (directoryPath : Bytes)
    (original : FileCollection) (heap : Heap) : Except Fault (List Operation) :=
  match initFileCollection heap with
  | (none, _) => .ok []
  | (some current, heap) => do
    let (collected, current, heap) ← collectAllFilesRecursive fs fuel directoryPath current heap
    if collected ≠ 0 then return []
    else
      let (files, _, _) := reviewFiles current.files original.files 0
      return reviewOperations current.files 0 original.files++
        newOperations current.files { original with files := files } heap

inductive Pass where
  | scan (fs : FileSystem) (fuel : ℕ) (directoryPath : Bytes)
  | check (fs : FileSystem) (fuel : ℕ) (directoryPath : Bytes)

def Pass.perform : Pass → FileCollection × Heap →
    Except Fault (List Operation × FileCollection × Heap)
  | .scan fs fuel directoryPath, (fc, heap) => do
    let log ← (fileVisitor fs).trace fuel directoryPath
    let (_, fc, later) ← collectAllFilesRecursive fs fuel directoryPath fc heap
    return ((scanOperations log heap).1, fc, later)
  | .check fs fuel directoryPath, (fc, heap) => do
    let operations ← checkOperations fs fuel directoryPath fc heap
    let (_, fc, _, later) ← checkDirectoryModifications fs fuel directoryPath fc heap
    return (operations, fc, later)

theorem add_file_operations (fc : FileCollection) (filepath : Bytes) (mtime size : ℤ)
    (heap : Heap) : ∃ fc', addFileToCollection fc filepath mtime size heap =
        (fc', (addOperation filepath mtime size heap).2) ∧
      Runs.exec apply (addOperation filepath mtime size heap).1 fc = some fc' := by
  rw [addFileToCollection, addOperation]
  obtain ⟨heap', hcreate | hcreate⟩ := create_snapshot_cases filepath mtime size heap
  · rw [hcreate]
    exact ⟨fc, rfl, rfl⟩
  · rw [hcreate]
    exact ⟨_, rfl, rfl⟩

theorem scan_operations (fs : FileSystem) (log : List (Bytes × Stat)) (fc : FileCollection)
    (heap : Heap) : ∃ fc', collected fs log (fc, heap) = (fc', (scanOperations log heap).2) ∧
      Runs.exec apply (scanOperations log heap).1 fc = some fc' := by
  induction log generalizing fc heap with
  | nil => exact ⟨fc, rfl, rfl⟩
  | cons e log ih =>
    by_cases htype : e.2.type = .regular
    · obtain ⟨fc₁, hadd, hadded⟩ := add_file_operations fc e.1 e.2.mtime e.2.size heap
      have hvisit : (fileVisitor fs).visit e.1 e.2 (fc, heap) =
          (fc₁, (addOperation e.1 e.2.mtime e.2.size heap).2) := (if_pos htype).trans hadd
      obtain ⟨fc', hrest, hexec⟩ := ih fc₁ (addOperation e.1 e.2.mtime e.2.size heap).2
      have hops : scanOperations (e::log) heap =
          ((addOperation e.1 e.2.mtime e.2.size heap).1++
            (scanOperations log (addOperation e.1 e.2.mtime e.2.size heap).2).1,
            (scanOperations log (addOperation e.1 e.2.mtime e.2.size heap).2).2) := if_pos htype
      refine ⟨fc', ?_, ?_⟩
      · rw [hops, ← hrest, collected, List.foldl_cons, hvisit, collected]
      · rw [hops, Runs.exec_append, hadded]
        exact hexec
    · obtain ⟨fc', hrest, hexec⟩ := ih fc heap
      have hvisit : (fileVisitor fs).visit e.1 e.2 (fc, heap) = (fc, heap) := if_neg htype
      have hops : scanOperations (e::log) heap = scanOperations log heap := if_neg htype
      refine ⟨fc', ?_, by rw [hops]; exact hexec⟩
      rw [hops, ← hrest, collected, List.foldl_cons, hvisit, collected]

/-- The first loop from a position on, behind the files that it has passed. -/
theorem review_operations (current : List FileSnapshot) (fc : FileCollection)
    (passed rest : List FileSnapshot) (found : ℤ) :
    Runs.exec apply (reviewOperations current passed.length rest)
        { fc with files := passed++rest } =
      some { fc with files := passed++(reviewFiles current rest found).1 } := by
  induction rest generalizing passed found with
  | nil => rfl
  | cons f rest ih =>
    have hmove : ∀ (g : FileSnapshot) found, Runs.exec apply
        (reviewOperations current (passed.length+1) rest) { fc with files := passed++g::rest } =
          some { fc with files := passed++g::(reviewFiles current rest found).1 } := by
      intro g found
      have hnext := ih (passed++[g]) found
      rw [List.length_append, List.append_assoc, List.append_assoc] at hnext
      exact hnext
    rw [reviewOperations, reviewFiles]
    cases hfind : findFileInCollection current f.filepath with
    | none => exact hmove f 1
    | some g =>
      dsimp only
      by_cases hmodified : isModified f g = true
      · rw [if_pos hmodified, if_pos hmodified, Runs.exec]
        have hlen : passed.length < (passed++f::rest).length := by simp
        have hupdate : apply (.update passed.length g.mtime g.size)
            { fc with files := passed++f::rest } =
              some { fc with files := passed++{ f with mtime := g.mtime, size := g.size }::rest } := by
          rw [apply, if_pos hlen]
          exact congrArg (fun files => some { fc with files := files })
            (List.modifyTailIdx_add _ 0 passed (f::rest))
        rw [hupdate]
        exact hmove _ 1
      · rw [if_neg hmodified, if_neg hmodified]
        exact hmove f found

theorem new_operations (current : List FileSnapshot) (fc : FileCollection) (found : ℤ)
    (heap : Heap) : Runs.exec apply (newOperations current fc heap) fc =
      some (addNewFiles current fc found heap).1 := by
  induction current generalizing fc found heap with
  | nil => rfl
  | cons f current ih =>
    rw [newOperations, addNewFiles]
    cases hfind : findFileInCollection fc.files f.filepath with
    | some g => exact ih fc found heap
    | none =>
      obtain ⟨fc', hadd, hadded⟩ := add_file_operations fc f.filepath f.mtime f.size heap
      dsimp only
      rw [hadd, Runs.exec_append, hadded]
      exact ih fc' 1 _

/-- A check performs its updates and then its insertions, or none if its scan fails. -/
theorem check_operations {fs : FileSystem} {fuel : ℕ} {directoryPath : Bytes}
    {fc fc' : FileCollection} {heap later : Heap} {operations : List Operation} {code : ℤ}
    {notices : List Notice} (hops : checkOperations fs fuel directoryPath fc heap = .ok operations)
    (hcheck : checkDirectoryModifications fs fuel directoryPath fc heap =
      .ok (code, fc', notices, later)) : Runs.exec apply operations fc = some fc' := by
  rw [checkOperations] at hops
  rw [checkDirectoryModifications] at hcheck
  cases hinit : initFileCollection heap with
  | mk current heap₁ =>
    rw [hinit] at hops hcheck
    cases current with
    | none =>
      cases hops
      cases hcheck
      rfl
    | some current =>
      obtain ⟨⟨collected, scan, heap₂⟩, hcollect, hops⟩ := bind_ok_cases hops
      dsimp only at hcheck hops
      rw [hcollect, ok_bind] at hcheck
      by_cases hfailed : collected ≠ 0
      · simp only [hfailed, ne_eq, not_false_eq_true, if_true] at hops hcheck
        cases hops
        cases hcheck
        rfl
      · simp only [hfailed, if_false] at hops hcheck
        cases hops
        cases hcheck
        have hreview : Runs.exec apply (reviewOperations scan.files 0 fc.files) fc = some
            { fc with files := (reviewFiles scan.files fc.files 0).1 } :=
          review_operations scan.files fc [] fc.files 0
        rw [Runs.exec_append, hreview]
        exact new_operations scan.files _ _ heap₂

theorem perform_operations {p : Pass} {fc fc' : FileCollection} {heap heap' : Heap}
    {operations : List Operation} (h : p.perform (fc, heap) = .ok (operations, fc', heap')) :
    Runs.exec apply operations fc = some fc' := by
  cases p with
  | scan fs fuel directoryPath =>
    obtain ⟨log, hlog, h⟩ := bind_ok_cases h
    obtain ⟨fc₁, hcollected, hexec⟩ := scan_operations fs log fc heap
    have hcollect : collectAllFilesRecursive fs fuel directoryPath fc heap =
        .ok (if (fs.opendir directoryPath).isSome then 0 else -1, fc₁,
          (scanOperations log heap).2) := by
      rw [collect_trace, hlog, ← hcollected]
      rfl
    rw [hcollect] at h
    cases h
    exact hexec
  | check fs fuel directoryPath =>
    obtain ⟨ops, hops, h⟩ := bind_ok_cases h
    obtain ⟨⟨code, fc₁, notices, later⟩, hcheck, h⟩ := bind_ok_cases h
    cases h
    exact check_operations hops hcheck

theorem run_operations {passes : List Pass} {fc fc' : FileCollection} {heap heap' : Heap}
    {operations : List (List Operation)}
    (h : Runs.run Pass.perform passes (fc, heap) = .ok (operations, fc', heap')) :
    Runs.exec apply operations.flatten fc = some fc' := by
  induction passes generalizing fc heap operations with
  | nil =>
    cases h
    rfl
  | cons p passes ih =>
    obtain ⟨⟨first, fc₁, heap₁⟩, hfirst, h⟩ := bind_ok_cases h
    obtain ⟨⟨rest, fc₂, heap₂⟩, hrest, h⟩ := bind_ok_cases h
    cases h
    rw [List.flatten_cons, Runs.exec_append, perform_operations hfirst]
    exact ih hrest

/-! What an operation does to the counters. -/

def Fits : Operation → FileCollection → Prop
  | .add f, fc => fc.files.length+1 < 2^31 ∧
      -2^63 ≤ (fc.files.map FileSnapshot.size).sum+f.size ∧
      (fc.files.map FileSnapshot.size).sum+f.size < 2^63
  | .update position _ size, fc => ∀ f ∈ fc.files[position]?, f.size = size

instance (operation : Operation) (fc : FileCollection) : Decidable (Fits operation fc) :=
  match operation with
  | .add f => inferInstanceAs (Decidable (fc.files.length+1 < 2^31 ∧
      -2^63 ≤ (fc.files.map FileSnapshot.size).sum+f.size ∧
      (fc.files.map FileSnapshot.size).sum+f.size < 2^63))
  | .update position _ size =>
    inferInstanceAs (Decidable (∀ f ∈ fc.files[position]?, f.size = size))

theorem fits_iff {operation : Operation} {fc fc' : FileCollection} (hc : Consistent fc)
    (h : apply operation fc = some fc') : Consistent fc' ↔ Fits operation fc := by
  obtain ⟨hcount, htotal⟩ := hc
  cases operation with
  | add f =>
    cases h
    have hlength : ((f::fc.files).length : ℤ) = fc.files.length+1 := by simp
    have hsum : ((f::fc.files).map FileSnapshot.size).sum =
        (fc.files.map FileSnapshot.size).sum+f.size := by
      rw [List.map_cons, List.sum_cons, add_comm]
    rw [Consistent, Fits]
    dsimp only
    rw [hlength, hsum, hcount, htotal, to_int_eq_iff, to_long_eq_iff]
    omega
  | update position mtime size =>
    rw [apply] at h
    by_cases hposition : position < fc.files.length
    · rw [if_pos hposition] at h
      cases h
      obtain ⟨before, f, after, hfiles, hlength, hmodify⟩ :=
        List.exists_of_modify (fun f => { f with mtime := mtime, size := size }) hposition
      have hget : fc.files[position]? = some f := by
        rw [hfiles, List.getElem?_append_right hlength.le, hlength]
        simp
      rw [Consistent, Fits, hget]
      dsimp only
      rw [hmodify, hcount, htotal, hfiles]
      simp
    · rw [if_neg hposition] at h
      cases h

/-- Through every sequence of scans and checks the counters agree with the list
after each operation, exactly if no update writes another size and no insertion
leaves the range of a counter. -/
theorem counters_right_iff (passes : List Pass) (heap heap' : Heap) (fc : FileCollection)
    (operations : List (List Operation))
    (h : Runs.run Pass.perform passes (⟨[], 0, 0⟩, heap) = .ok (operations, fc, heap')) :
    Runs.exec apply operations.flatten ⟨[], 0, 0⟩ = some fc ∧
    ((∀ made fc', made <+: operations.flatten → Runs.exec apply made ⟨[], 0, 0⟩ = some fc' →
        Consistent fc') ↔
      Runs.Along apply Fits operations.flatten ⟨[], 0, 0⟩) := by
  have hexec := run_operations h
  exact ⟨hexec, Runs.kept_iff_along apply Consistent (fun _ _ _ hc happly => fits_iff hc happly)
    ⟨rfl, rfl⟩ hexec⟩

def foundAgain (size mtime : ℤ) : List Pass :=
  [.scan (watchedHost (oneFile 7 1)).fileSystem 2 (text "/w"),
    .check (watchedHost (oneFile size mtime)).fileSystem 2 (text "/w")]

theorem touched_file_run : Runs.run Pass.perform (foundAgain 7 4) (⟨[], 0, 0⟩, alwaysSucceeds) =
    .ok ([[.add ⟨text "/w/f", 1, 7⟩], [.update 0 4 7]], ⟨[⟨text "/w/f", 4, 7⟩], 1, 7⟩,
      alwaysSucceeds) := by
  rfl

theorem touched_file_counted :
    Runs.exec apply [.add ⟨text "/w/f", 1, 7⟩, .update 0 4 7] ⟨[], 0, 0⟩ =
      some ⟨[⟨text "/w/f", 4, 7⟩], 1, 7⟩ ∧
    ((∀ made fc', made <+: [.add ⟨text "/w/f", 1, 7⟩, .update 0 4 7] →
        Runs.exec apply made ⟨[], 0, 0⟩ = some fc' → Consistent fc') ↔
      Runs.Along apply Fits [.add ⟨text "/w/f", 1, 7⟩, .update 0 4 7] ⟨[], 0, 0⟩) :=
  counters_right_iff (foundAgain 7 4) alwaysSucceeds alwaysSucceeds _ _ touched_file_run

theorem grown_file_run : Runs.run Pass.perform (foundAgain 8 4) (⟨[], 0, 0⟩, alwaysSucceeds) =
    .ok ([[.add ⟨text "/w/f", 1, 7⟩], [.update 0 4 8]], ⟨[⟨text "/w/f", 4, 8⟩], 1, 7⟩,
      alwaysSucceeds) := by
  rfl

/-- The file has eight bytes in the list, and seven in the sum. -/
theorem grown_file_miscounted : ¬ ∀ passes heap fc heap' operations,
    Runs.run Pass.perform passes (⟨[], 0, 0⟩, heap) = .ok (operations, fc, heap') →
    ∀ made fc', made <+: operations.flatten → Runs.exec apply made ⟨[], 0, 0⟩ = some fc' →
      Consistent fc' := by
  intro h
  have hall := h (foundAgain 8 4) alwaysSucceeds _ _ _ grown_file_run
  have hend := hall _ _ (List.prefix_refl _) (run_operations grown_file_run)
  have hsum : (7 : ℤ) = 8 := hend.2
  omega

end ProgSistema.FileDaemon
