import ProgSistema.Lib.FileTree

/-!
# The list of monitored files

A check walks through the list. For each entry it looks the path up in the list
again, compares what `stat` reports with the values found there and writes the
new values into the entry at hand. A path without a status counts as unchanged,
so no entry is ever reported as not found. Of the entries of one path only the
first is compared with its own values.
-/

set_option autoImplicit false

namespace ProgSistema.DirectoryDaemon
open CRuntime FileTree

def pathNameSize : ℕ := 1024

def checkInterval : ℤ := 30

structure FileInfo where
  stSize : ℤ
  pathName : Bytes
  lastModified : ℤ
  deriving DecidableEq, Repr

/-- The new entry is the first of the list. A failed allocation ends the program. -/
def addFileToList (path : Bytes) (size mtime : ℤ) (fileList : List FileInfo) : List FileInfo :=
  { stSize := size, pathName := path.take (pathNameSize-1), lastModified := mtime }::fileList

def checkFileModified (fs : FileSystem) (fileList : List FileInfo) (path : Bytes) : ℤ :=
  match fileList.find? fun current => current.pathName = path with
  | none => -1
  | some current =>
    match fs.stat path with
    | none => 0
    | some st => if st.mtime ≠ current.lastModified ∨ st.size ≠ current.stSize then 1 else 0

inductive LogLine where
  | fileModificato (path : Bytes)
  | fileNonTrovato (path : Bytes)
  | trovati (modifiedCount : ℤ)
  | nessunFileModificato
  deriving DecidableEq, Repr

def refreshed (fs : FileSystem) (f : FileInfo) : FileInfo :=
  match fs.stat f.pathName with
  | some st => { f with stSize := st.size, lastModified := st.mtime }
  | none => f

/-- The walk through the list, of which `done` lies behind. The result has the
list, the lines for its files and their number. -/
def checkFilesFrom (fs : FileSystem) :
    List FileInfo → List FileInfo → ℤ → List FileInfo × List LogLine × ℤ
  | done, [], modifiedCount => (done, [], modifiedCount)
  | done, current::next, modifiedCount =>
    let result := checkFileModified fs (done++current::next) current.pathName
    if result = 1 then
      let (fileList, log, count) :=
        checkFilesFrom fs (done++[refreshed fs current]) next (modifiedCount+1)
      (fileList, .fileModificato current.pathName::log, count)
    else if result = -1 then
      let (fileList, log, count) := checkFilesFrom fs (done++[current]) next modifiedCount
      (fileList, .fileNonTrovato current.pathName::log, count)
    else checkFilesFrom fs (done++[current]) next modifiedCount

def checkAllFiles (fs : FileSystem) (fileList : List FileInfo) : List FileInfo × List LogLine :=
  let (fileList, log, modifiedCount) := checkFilesFrom fs [] fileList 0
  (fileList, log++[if modifiedCount > 0 then .trovati modifiedCount else .nessunFileModificato])

/-- The loop over its iterations, each with the time it reads and the file
system it meets. -/
def daemonMainLoop : List (ℤ × FileSystem) → ℤ → List FileInfo → List FileInfo × List (List LogLine)
  | [], _, fileList => (fileList, [])
  | (currentTime, fs)::rest, lastCheck, fileList =>
    if currentTime-lastCheck ≥ checkInterval then
      let (fileList, log) := checkAllFiles fs fileList
      let (fileList, logs) := daemonMainLoop rest currentTime fileList
      (fileList, log::logs)
    else daemonMainLoop rest lastCheck fileList

section
variable (fs : FileSystem)

def Agrees (f : FileInfo) : Prop :=
  ∀ st, fs.stat f.pathName = some st → st.size = f.stSize ∧ st.mtime = f.lastModified

instance (f : FileInfo) : Decidable (Agrees fs f) :=
  match h : fs.stat f.pathName with
  | none => isTrue fun st hst => by rw [h] at hst; cases hst
  | some st => decidable_of_iff (st.size = f.stSize ∧ st.mtime = f.lastModified)
      ⟨fun hst st' hst' => by rw [h] at hst'; cases hst'; exact hst, fun hall => hall st h⟩

@[simp] theorem refreshed_path (f : FileInfo) : (refreshed fs f).pathName = f.pathName := by
  unfold refreshed
  split <;> rfl

theorem refreshed_agrees (f : FileInfo) : Agrees fs (refreshed fs f) := by
  intro st hst
  rw [refreshed_path] at hst
  rw [refreshed, hst]
  exact ⟨rfl, rfl⟩

theorem refreshed_of_agrees {f : FileInfo} (h : Agrees fs f) : refreshed fs f = f := by
  unfold refreshed
  split
  · rename_i st hst
    obtain ⟨hsize, hmtime⟩ := h st hst
    rw [hsize, hmtime]
  · rfl

def refreshFrom : List Bytes → List FileInfo → List FileInfo
  | _, [] => []
  | seen, f::rest =>
    (if f.pathName ∈ seen then f else refreshed fs f)::refreshFrom (seen++[f.pathName]) rest

def reportFrom : List Bytes → List FileInfo → List Bytes
  | _, [] => []
  | seen, f::rest =>
    (if f.pathName ∈ seen ∨ Agrees fs f then [] else [f.pathName])++
      reportFrom (seen++[f.pathName]) rest

/-- The first entry of each path has been brought up to date. -/
def Settled (done : List FileInfo) : Prop :=
  ∀ path f, (done.find? fun current => current.pathName = path) = some f → Agrees fs f

variable {fs}

theorem find_path {files : List FileInfo} {path : Bytes} {f : FileInfo}
    (h : (files.find? fun current => current.pathName = path) = some f) :
    f ∈ files ∧ f.pathName = path :=
  ⟨List.mem_of_find?_eq_some h, by simpa using List.find?_some h⟩

theorem find_none_iff (files : List FileInfo) (path : Bytes) :
    (files.find? fun current => current.pathName = path) = none ↔
      path ∉ files.map FileInfo.pathName := by
  rw [List.find?_eq_none]
  simp

theorem check_found {files : List FileInfo} {path : Bytes} {f : FileInfo}
    (h : (files.find? fun current => current.pathName = path) = some f) :
    checkFileModified fs files path = if Agrees fs f then 0 else 1 := by
  have hpath := (find_path h).2
  rw [checkFileModified, h]
  dsimp only
  cases hst : fs.stat path with
  | none =>
    have hagrees : Agrees fs f := by
      intro st hst'
      rw [hpath, hst] at hst'
      cases hst'
    rw [if_pos hagrees]
  | some st =>
    have hiff : Agrees fs f ↔ ¬ (st.mtime ≠ f.lastModified ∨ st.size ≠ f.stSize) := by
      unfold Agrees
      rw [hpath, hst]
      simp only [Option.some.injEq, forall_eq']
      tauto
    dsimp only
    by_cases hdiffers : st.mtime ≠ f.lastModified ∨ st.size ≠ f.stSize
    · rw [if_pos hdiffers, if_neg fun h => hiff.mp h hdiffers]
    · rw [if_neg hdiffers, if_pos (hiff.mpr hdiffers)]

/-- One step of the walk. -/
theorem check_current {done : List FileInfo} (h : Settled fs done) (current : FileInfo)
    (next : List FileInfo) : checkFileModified fs (done++current::next) current.pathName =
      if current.pathName ∈ done.map FileInfo.pathName ∨ Agrees fs current then 0 else 1 := by
  cases hfind : done.find? fun f => f.pathName = current.pathName with
  | some f =>
    have hwhole : ((done++current::next).find? fun f => f.pathName = current.pathName) = some f := by
      rw [List.find?_append, hfind, Option.some_or]
    have hmem : current.pathName ∈ done.map FileInfo.pathName := by
      by_contra hnot
      rw [(find_none_iff done _).mpr hnot] at hfind
      cases hfind
    rw [check_found hwhole, if_pos (h _ f hfind), if_pos (Or.inl hmem)]
  | none =>
    have hwhole : ((done++current::next).find? fun f => f.pathName = current.pathName) =
        some current := by
      rw [List.find?_append, hfind, Option.none_or, List.find?_cons_of_pos (by simp)]
    have hnot := (find_none_iff done _).mp hfind
    rw [check_found hwhole]
    simp only [hnot, false_or]

theorem settled_concat {done : List FileInfo} (h : Settled fs done) {f : FileInfo}
    (hf : f.pathName ∈ done.map FileInfo.pathName ∨ Agrees fs f) : Settled fs (done++[f]) := by
  intro path g hg
  rw [List.find?_append] at hg
  cases hfind : done.find? fun current => current.pathName = path with
  | some g' =>
    rw [hfind, Option.some_or] at hg
    exact h path g (hfind.trans hg)
  | none =>
    rw [hfind, Option.none_or] at hg
    obtain ⟨hmem, hpath⟩ := find_path hg
    rw [List.mem_singleton.mp hmem] at hpath ⊢
    refine hf.resolve_left fun hseen => ?_
    rw [hpath] at hseen
    exact (find_none_iff done path).mp hfind hseen

theorem check_files_from_eq {done : List FileInfo} (h : Settled fs done) (rest : List FileInfo)
    (modifiedCount : ℤ) : checkFilesFrom fs done rest modifiedCount =
      (done++refreshFrom fs (done.map FileInfo.pathName) rest,
        (reportFrom fs (done.map FileInfo.pathName) rest).map .fileModificato,
        modifiedCount+(reportFrom fs (done.map FileInfo.pathName) rest).length) := by
  induction rest generalizing done modifiedCount with
  | nil => simp [checkFilesFrom, refreshFrom, reportFrom]
  | cons current next ih =>
    rw [checkFilesFrom, check_current h, refreshFrom, reportFrom]
    by_cases hquiet : current.pathName ∈ done.map FileInfo.pathName ∨ Agrees fs current
    · have hsame : (if current.pathName ∈ done.map FileInfo.pathName then current
          else refreshed fs current) = current := by
        split
        · rfl
        · rename_i hnot
          exact refreshed_of_agrees fs (hquiet.resolve_left hnot)
      rw [if_pos hquiet, if_neg (by decide), if_neg (by decide), if_pos hquiet, hsame,
        ih (settled_concat h hquiet)]
      simp
    · obtain ⟨hnot, hdiffers⟩ := not_or.mp hquiet
      have hsettled := settled_concat h (f := refreshed fs current)
        (Or.inr (refreshed_agrees fs current))
      rw [if_neg hquiet, if_pos rfl, if_neg hquiet, if_neg hnot, ih hsettled]
      simp
      omega

theorem check_all_files_eq (fs : FileSystem) (files : List FileInfo) : checkAllFiles fs files =
    (refreshFrom fs [] files, (reportFrom fs [] files).map .fileModificato++
      [if ((reportFrom fs [] files).length : ℤ) > 0 then
        .trovati (reportFrom fs [] files).length else .nessunFileModificato]) := by
  have hnone : Settled fs [] := fun path f hf => by cases hf
  rw [checkAllFiles, check_files_from_eq hnone]
  simp

theorem refresh_from_append (seen : List Bytes) (xs ys : List FileInfo) :
    refreshFrom fs seen (xs++ys) =
      refreshFrom fs seen xs++refreshFrom fs (seen++xs.map FileInfo.pathName) ys := by
  induction xs generalizing seen with
  | nil => simp [refreshFrom]
  | cons x xs ih =>
    rw [List.cons_append, refreshFrom, ih, refreshFrom, List.map_cons, List.cons_append]
    simp

theorem report_from_append (seen : List Bytes) (xs ys : List FileInfo) :
    reportFrom fs seen (xs++ys) =
      reportFrom fs seen xs++reportFrom fs (seen++xs.map FileInfo.pathName) ys := by
  induction xs generalizing seen with
  | nil => simp [reportFrom]
  | cons x xs ih =>
    rw [List.cons_append, reportFrom, ih, reportFrom, List.map_cons, List.append_assoc]
    simp

theorem mem_refresh_from {seen : List Bytes} {files : List FileInfo} {f : FileInfo}
    (h : f ∈ refreshFrom fs seen files) : ∃ before g after, files = before++g::after ∧
      f = if g.pathName ∈ seen++before.map FileInfo.pathName then g else refreshed fs g := by
  induction files generalizing seen with
  | nil => cases h
  | cons g files ih =>
    rw [refreshFrom] at h
    rcases List.mem_cons.mp h with hf | h
    · refine ⟨[], g, files, rfl, ?_⟩
      rw [List.map_nil, List.append_nil]
      exact hf
    · obtain ⟨before, g', after, rfl, hf⟩ := ih h
      refine ⟨g::before, g', after, rfl, ?_⟩
      rw [hf, List.map_cons, List.append_assoc, List.singleton_append]

/-- The lines for single files are those of the report. -/
theorem modified_logged (fs : FileSystem) (files : List FileInfo) (path : Bytes) :
    .fileModificato path ∈ (checkAllFiles fs files).2 ↔ path ∈ reportFrom fs [] files := by
  rw [check_all_files_eq]
  simp only [List.mem_append, List.mem_map, List.mem_singleton, LogLine.fileModificato.injEq,
    exists_eq_right]
  split <;> simp

theorem missing_not_logged (fs : FileSystem) (files : List FileInfo) (path : Bytes) :
    .fileNonTrovato path ∉ (checkAllFiles fs files).2 := by
  rw [check_all_files_eq]
  simp only [List.mem_append, List.mem_map, List.mem_singleton]
  split <;> simp

end

structure Complete (fs : FileSystem) (files : List FileInfo)
    (result : List FileInfo × List LogLine) : Prop where
  modified : ∀ f ∈ files, ¬ Agrees fs f → .fileModificato f.pathName ∈ result.2
  missing : ∀ f ∈ files, fs.stat f.pathName = none → .fileNonTrovato f.pathName ∈ result.2
  current : ∀ f ∈ result.1, Agrees fs f

def RepeatsCurrent (fs : FileSystem) (files : List FileInfo) : Prop :=
  ∀ before f after, files = before++f::after → f.pathName ∈ before.map FileInfo.pathName →
    Agrees fs f

/-- A check is complete exactly when every listed path exists and the entries
that repeat a path are up to date already. -/
theorem check_complete_iff (fs : FileSystem) (files : List FileInfo) :
    Complete fs files (checkAllFiles fs files) ↔
      (∀ f ∈ files, fs.stat f.pathName ≠ none) ∧ RepeatsCurrent fs files := by
  constructor
  · intro h
    refine ⟨fun f hf hnone => missing_not_logged fs files _ (h.missing f hf hnone), ?_⟩
    rintro before f after rfl hseen
    apply h.current
    rw [check_all_files_eq, refresh_from_append, List.nil_append]
    refine List.mem_append_right _ ?_
    rw [refreshFrom, if_pos hseen]
    exact List.mem_cons_self
  · rintro ⟨hexists, hrepeats⟩
    refine ⟨fun f hf hdiffers => ?_, fun f hf hnone => absurd hnone (hexists f hf), ?_⟩
    · obtain ⟨before, after, rfl⟩ := List.append_of_mem hf
      have hfirst : ¬ (f.pathName ∈ before.map FileInfo.pathName ∨ Agrees fs f) := by
        rintro (hseen | hagrees)
        · exact hdiffers (hrepeats before f after rfl hseen)
        · exact hdiffers hagrees
      rw [modified_logged, report_from_append, List.nil_append, reportFrom, if_neg hfirst]
      simp
    · intro f hf
      rw [check_all_files_eq] at hf
      obtain ⟨before, g, after, hsplit, hf⟩ := mem_refresh_from hf
      rw [hf, List.nil_append]
      split
      · rename_i hseen
        exact hrepeats before g after hsplit hseen
      · exact refreshed_agrees fs g

def goneFile : FileInfo := ⟨7, text "/w/f", 1⟩

theorem gone_file_not_reported :
    checkAllFiles ⟨fun _ => none, fun _ => none, fun _ => none⟩ [goneFile] =
      ([goneFile], [.nessunFileModificato]) := by
  decide

end ProgSistema.DirectoryDaemon
