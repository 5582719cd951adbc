import ProgSistema.DirectoryDaemon.FileList
import ProgSistema.Lib.Visit
import ProgSistema.Lib.LinkedHost

/-!
# The initial scan and the checks

The scan records what `lstat` reports of everything that is not a directory,
and the checks compare with what `stat` reports: for a symbolic link the values
of the link with those of its target. With a file system that does not change
the first check decides whether there is ever an alarm.
-/

set_option autoImplicit false

namespace ProgSistema.DirectoryDaemon
open CRuntime FileTree DirTree

inductive FtwType where
  | ftwF
  | ftwD
  | ftwDnr
  | ftwNs
  deriving DecidableEq, Repr

/-- The function called for each path; `none` is a status that has not been read. -/
def myfunc (pathname : Bytes) (statptr : Option Stat) (type : FtwType) (fileList : List FileInfo) :
    ℤ × List FileInfo :=
  match type, statptr with
  | .ftwF, some st => (0, addFileToList pathname st.size st.mtime fileList)
  | _, _ => (0, fileList)

def dopathEntries (descend : Bytes → List FileInfo → Except Fault (ℤ × List FileInfo))
    (fullpath : Bytes) : List Bytes → List FileInfo → Except Fault (ℤ × List FileInfo)
  | [], fileList => .ok (0, fileList)
  | name::stream, fileList =>
    if name = dot ∨ name = dotdot then dopathEntries descend fullpath stream fileList
    else do
      let (ret, fileList) ← descend (fullpath++slash::name) fileList
      if ret ≠ 0 then return (ret, fileList)
      else dopathEntries descend fullpath stream fileList

/-- A directory is opened under its path with the separator appended. -/
def dopath (fs : FileSystem) : ℕ → Bytes → List FileInfo → Except Fault (ℤ × List FileInfo)
  | 0, _, _ => .error .outOfFuel
  | fuel+1, fullpath, fileList =>
    match fs.lstat fullpath with
    | none => .ok (myfunc fullpath none .ftwNs fileList)
    | some st =>
      if st.type ≠ .directory then .ok (myfunc fullpath (some st) .ftwF fileList)
      else
        let (ret, fileList) := myfunc fullpath (some st) .ftwD fileList
        if ret ≠ 0 then .ok (ret, fileList)
        else
          match fs.opendir (fullpath++[slash]) with
          | none => .ok (myfunc (fullpath++[slash]) (some st) .ftwDnr fileList)
          | some stream => dopathEntries (dopath fs fuel) fullpath stream fileList

/-- The tree that the calls of the scan show; a directory that cannot be opened
shows no entries. -/
inductive Walked (fs : FileSystem) : Bytes → DirTree → Prop where
  | leaf {p : Bytes} {st : Option Stat} {h} : fs.lstat p = st → Walked fs p (.leaf st h)
  | closed {p : Bytes} {st : Stat} {h} : fs.lstat p = some st → fs.opendir (p++[slash]) = none →
      Walked fs p (.dir st h [])
  | dir {p : Bytes} {st : Stat} {h} {es : List (Name × DirTree)} (stream : List Bytes) :
      fs.lstat p = some st → fs.opendir (p++[slash]) = some stream →
      stream.filter (fun d => d ≠ dot ∧ d ≠ dotdot) = es.map (fun e => e.1.bytes) →
      (∀ e ∈ es, Walked fs (p++slash::e.1.bytes) e.2) → Walked fs p (.dir st h es)

def fileInfo (base : Bytes) (d : List Name × Option Stat) : Option FileInfo :=
  d.2.bind fun st =>
    if st.type = .directory then none
    else some ⟨st.size, (entryPath base d.1).take (pathNameSize-1), st.mtime⟩

def recordedFiles (base : Bytes) (t : DirTree) : List FileInfo :=
  (([], t.status)::statuses t.entries).filterMap (fileInfo base)

theorem file_info_cons (base : Bytes) (n : Name) (d : List Name × Option Stat) :
    fileInfo base (n::d.1, d.2) = fileInfo (base++slash::n.bytes) d := by
  rw [fileInfo, fileInfo, entry_path_cons]

theorem recorded_dir (base : Bytes) (st : Stat) (h) (es : List (Name × DirTree)) :
    recordedFiles base (.dir st h es) =
      es.flatMap fun e => recordedFiles (base++slash::e.1.bytes) e.2 := by
  have hself : fileInfo base ([], some st) = none := by simp [fileInfo, h]
  rw [recordedFiles, DirTree.status, DirTree.entries, List.filterMap_cons_none hself]
  induction es with
  | nil => rfl
  | cons e es ih =>
    obtain ⟨n, t⟩ := e
    have hbelow : ((statuses t.entries).map fun d => (n::d.1, d.2)).filterMap (fileInfo base) =
        (statuses t.entries).filterMap (fileInfo (base++slash::n.bytes)) := by
      rw [List.filterMap_map]
      exact List.filterMap_congr fun d _ => file_info_cons base n d
    have hhead : fileInfo base ([n], t.status) = fileInfo (base++slash::n.bytes) ([], t.status) :=
      file_info_cons base n ([], t.status)
    rw [statuses_cons, List.filterMap_append, List.filterMap_cons, hhead, hbelow, ih,
      List.flatMap_cons, recordedFiles, List.filterMap_cons]

theorem dopath_entries_ok {descend : Bytes → List FileInfo → Except Fault (ℤ × List FileInfo)}
    {p : Bytes} (stream : List Bytes) (es : List (Name × DirTree))
    (hstream : stream.filter (fun d => d ≠ dot ∧ d ≠ dotdot) = es.map fun e => e.1.bytes)
    (hdescend : ∀ e ∈ es, ∀ fileList, descend (p++slash::e.1.bytes) fileList =
      .ok (0, (recordedFiles (p++slash::e.1.bytes) e.2).reverse++fileList))
    (fileList : List FileInfo) : dopathEntries descend p stream fileList =
      .ok (0, (es.flatMap fun e => recordedFiles (p++slash::e.1.bytes) e.2).reverse++fileList) := by
  induction stream generalizing es fileList with
  | nil =>
    have hes : es = [] := List.map_eq_nil_iff.mp hstream.symm
    subst hes
    rfl
  | cons name stream ih =>
    rw [dopathEntries]
    rcases stream_cons hstream with ⟨hdot, hstream⟩ | ⟨hdot, e, es, rfl, rfl, htail⟩
    · rw [if_pos hdot]
      exact ih es hstream hdescend fileList
    · rw [if_neg hdot, hdescend e (by simp)]
      simp only [ok_bind, ne_eq, not_true_eq_false, if_false]
      rw [ih es htail (fun d hd => hdescend d (by simp [hd])), List.flatMap_cons,
        List.reverse_append, List.append_assoc]

/-- The scan of a tree returns and has recorded its files, the last one first. -/
theorem dopath_walked {fs : FileSystem} {p : Bytes} {t : DirTree} (h : Walked fs p t) (fuel : ℕ)
    (hfuel : t.height < fuel) (fileList : List FileInfo) :
    dopath fs fuel p fileList = .ok (0, (recordedFiles p t).reverse++fileList) := by
  induction t using DirTree.induction generalizing p fuel fileList with
  | leaf st hst =>
    cases h with
    | leaf h =>
      obtain ⟨fuel, rfl⟩ : ∃ k, fuel = k+1 := ⟨fuel-1, by omega⟩
      rw [dopath, h]
      cases st with
      | none => rfl
      | some st =>
        have hrecorded : recordedFiles p (.leaf (some st) hst) =
            [⟨st.size, p.take (pathNameSize-1), st.mtime⟩] := by
          have hne := hst st rfl
          simp [recordedFiles, fileInfo, DirTree.status, DirTree.entries, statuses, descendantsOf,
            entryPath, hne]
        rw [hrecorded]
        dsimp only
        rw [if_pos (hst st rfl)]
        rfl
  | dir st hst es ih =>
    change heights es+1 < fuel at hfuel
    obtain ⟨fuel, rfl⟩ : ∃ k, fuel = k+1 := ⟨fuel-1, by omega⟩
    rw [dopath, recorded_dir]
    cases h with
    | closed hstatus hopen =>
      rw [hstatus]
      dsimp only
      rw [if_neg (not_not.mpr hst), hopen]
      rfl
    | dir stream hstatus hopen hstream hentries =>
      rw [hstatus]
      dsimp only
      rw [if_neg (not_not.mpr hst), hopen]
      refine dopath_entries_ok stream es hstream (fun e he fileList => ?_) fileList
      have hle := height_le_heights he
      exact ih e he (hentries e he) fuel (by omega) fileList

/-- Nothing is reported exactly when the first entries of all paths agree. -/
theorem report_nil_iff (fs : FileSystem) (seen : List Bytes) (files : List FileInfo) :
    reportFrom fs seen files = [] ↔ ∀ path ∉ seen, ∀ f,
      (files.find? fun current => current.pathName = path) = some f → Agrees fs f := by
  induction files generalizing seen with
  | nil => simp [reportFrom]
  | cons f files ih =>
    rw [reportFrom, List.append_eq_nil_iff, ih]
    constructor
    · rintro ⟨hhead, htail⟩ path hpath g hg
      by_cases hf : f.pathName = path
      · rw [List.find?_cons_of_pos (by simpa using hf)] at hg
        rw [← Option.some.inj hg]
        by_contra hdiffers
        rw [if_neg (not_or.mpr ⟨hf ▸ hpath, hdiffers⟩)] at hhead
        cases hhead
      · rw [List.find?_cons_of_neg (by simpa using hf)] at hg
        refine htail path ?_ g hg
        rw [List.mem_append, List.mem_singleton, not_or]
        exact ⟨hpath, fun heq => hf heq.symm⟩
    · intro h
      refine ⟨?_, fun path hpath g hg => ?_⟩
      · rw [ite_eq_left_iff]
        intro hnot
        obtain ⟨hseen, hdiffers⟩ := not_or.mp hnot
        exact absurd (h f.pathName hseen f (List.find?_cons_of_pos (by simp))) hdiffers
      · rw [List.mem_append, List.mem_singleton, not_or] at hpath
        refine h path hpath.1 g ?_
        rw [List.find?_cons_of_neg (by simpa using fun heq => hpath.2 heq.symm)]
        exact hg

/-- A check that reports nothing leaves the list as it is. -/
theorem refresh_unchanged {fs : FileSystem} {seen : List Bytes} {files : List FileInfo}
    (h : reportFrom fs seen files = []) : refreshFrom fs seen files = files := by
  induction files generalizing seen with
  | nil => rfl
  | cons f files ih =>
    rw [reportFrom, List.append_eq_nil_iff] at h
    rw [refreshFrom, ih h.2]
    congr 1
    split
    · rfl
    · rename_i hseen
      refine refreshed_of_agrees fs ?_
      by_contra hdiffers
      rw [if_neg (not_or.mpr ⟨hseen, hdiffers⟩)] at h
      cases h.1

/-- Checks that report nothing can go on for ever. -/
theorem quiet_loop {later : FileSystem} {files : List FileInfo}
    (h : reportFrom later [] files = []) (times : List ℤ) (lastCheck : ℤ) :
    ∀ log ∈ (daemonMainLoop (times.map fun now => (now, later)) lastCheck files).2, ∀ path,
      .fileModificato path ∉ log := by
  have hcheck : (checkAllFiles later files).1 = files := by
    rw [check_all_files_eq]
    exact refresh_unchanged h
  induction times generalizing lastCheck with
  | nil =>
    intro log hlog
    cases hlog
  | cons now times ih =>
    rw [List.map_cons, daemonMainLoop]
    split
    · intro log hlog path
      dsimp only at hlog
      rw [hcheck] at hlog
      rcases List.mem_cons.mp hlog with rfl | hlog
      · rw [modified_logged, h]
        exact List.not_mem_nil
      · exact ih now log hlog path
    · exact ih lastCheck

/-- Of a file system that does not change, there is no alarm at any check
exactly when for every recorded entry `stat` reports nothing, or the size and
the time that the scan has recorded. The paths of the scan may mean other files
at the checks, which are made from the root directory. -/
theorem no_alarm_iff (fs later : FileSystem) (base : Bytes) (t : DirTree) (h : Walked fs base t)
    (fuel : ℕ) (hfuel : t.height < fuel) :
    ∃ files, dopath fs fuel base [] = .ok (0, files) ∧ files = (recordedFiles base t).reverse ∧
      ((∀ (times : List ℤ) (lastCheck : ℤ), ∀ log ∈
          (daemonMainLoop (times.map fun now => (now, later)) lastCheck files).2, ∀ path,
            .fileModificato path ∉ log) ↔ Settled later files) := by
  have hscan := dopath_walked h fuel hfuel []
  rw [List.append_nil] at hscan
  refine ⟨_, hscan, rfl, ?_⟩
  have hreport := report_nil_iff later [] (recordedFiles base t).reverse
  constructor
  · intro hquiet path f hf
    refine hreport.mp ?_ path List.not_mem_nil f hf
    rw [List.eq_nil_iff_forall_not_mem]
    intro path' hpath'
    refine hquiet [checkInterval] 0 (checkAllFiles later (recordedFiles base t).reverse).2 ?_ path' ?_
    · rw [List.map_singleton, daemonMainLoop, if_pos (by decide)]
      exact List.mem_cons_self
    · exact (modified_logged _ _ _).mpr hpath'
  · intro hsettled times lastCheck
    exact quiet_loop (hreport.mpr fun path _ => hsettled path) times lastCheck

def nodes (t : DirTree) : List (List Name × Option Stat) := ([], t.status)::statuses t.entries

def watchedName : Name := ⟨text "docs", by decide, by decide, by decide, by decide, by decide⟩
def fileName : Name := ⟨text "notes", by decide, by decide, by decide, by decide, by decide⟩
def linkName : Name := ⟨text "alias", by decide, by decide, by decide, by decide, by decide⟩

def watchedStat : Stat := ⟨.directory, 12, 512, 2, 0⟩
def fileStat : Stat := ⟨.regular, 13, 7, 1, 1⟩
def linkStat : Stat := ⟨.symlink, 14, 5, 1, 1⟩

inductive SampleDir where
  | root
  | watched
  deriving DecidableEq

def linkHost (target : Bytes) : LinkedHost SampleDir where
  root := .root
  cwd := .root
  parent _ := .root
  status _ := watchedStat
  isDir _ := rfl
  entries
    | .root => [(watchedName, .directory .watched)]
    | .watched =>
      [(fileName, .other fileStat (by decide)), (linkName, .link linkStat rfl target)]
  distinct d := by
    cases d with
    | root => exact List.nodup_singleton _
    | watched =>
      show [fileName, linkName].Nodup
      decide
  symloopMax := 40
  pathMax := 4096

def linkTree : DirTree := .dir watchedStat rfl
  [(fileName, .leaf (some fileStat) (by rintro s ⟨⟩; decide)),
    (linkName, .leaf (some linkStat) (by rintro s ⟨⟩; decide))]

theorem link_tree_walked (target : Bytes) :
    Walked (linkHost target).fileSystem (text "/docs") linkTree := by
  refine .dir [dot, dotdot, fileName.bytes, linkName.bytes] rfl rfl rfl (fun e he => ?_)
  simp only [List.mem_cons, List.not_mem_nil, or_false] at he
  rcases he with rfl | rfl
  · exact .leaf rfl
  · exact .leaf rfl

/-- A link whose target does not exist gives no alarm. -/
theorem dangling_quiet : ∃ files,
    dopath (linkHost (text "lost")).fileSystem 3 (text "/docs") [] = .ok (0, files) ∧
    files = (recordedFiles (text "/docs") linkTree).reverse ∧
    ∀ (times : List ℤ) (lastCheck : ℤ), ∀ log ∈ (daemonMainLoop
      (times.map fun now => (now, (linkHost (text "lost")).fileSystem)) lastCheck files).2,
        ∀ path, .fileModificato path ∉ log := by
  obtain ⟨files, hscan, hfiles, hiff⟩ := no_alarm_iff (linkHost (text "lost")).fileSystem
    (linkHost (text "lost")).fileSystem (text "/docs") linkTree (link_tree_walked _) 3 (by decide)
  refine ⟨files, hscan, hfiles, hiff.mpr ?_⟩
  have hreport : reportFrom (linkHost (text "lost")).fileSystem [] files = [] := by
    rw [hfiles]
    decide +kernel
  exact fun path => (report_nil_iff _ [] files).mp hreport path List.not_mem_nil

/-- Nothing changes, and the first check reports the link to the file. -/
theorem link_reported :
    (dopath (linkHost (text "notes")).fileSystem 3 (text "/docs") []).toOption.map
      (fun r => (checkAllFiles (linkHost (text "notes")).fileSystem r.2).2) =
        some [.fileModificato (text "/docs/alias"), .trovati 1] := by
  decide +kernel

end ProgSistema.DirectoryDaemon
