import ProgSistema.FileDaemon.Check

/-!
# The checks of a whole run

A scan of a tree collects the regular files that the status calls show. Each
check compares the new scan with all the scans before it laid over each
other, because a file that has disappeared stays in the collection.
-/

set_option autoImplicit false

namespace ProgSistema.FileDaemon
open CRuntime FileTree Snapshot DirTree

def regularFile (base : Bytes) (d : List Name × Option Stat) : Option FileSnapshot :=
  d.2.bind fun st =>
    if st.type = .regular then some ⟨entryPath base d.1, st.mtime, st.size⟩ else none

def regularFiles (base : Bytes) (es : List (Name × DirTree)) : List FileSnapshot :=
  (statuses es).filterMap (regularFile base)

def snapshot (base : Bytes) (es : List (Name × DirTree)) : Bytes → Option (ℤ × ℤ) :=
  recorded (regularFiles base es)

/-- A scan that opens every directory, over paths that fit in the buffer. -/
structure Scanned (fs : FileSystem) (base : Bytes) (es : List (Name × DirTree)) : Prop where
  shows : Shows fs.opendir fs.stat base es
  names : (es.map Prod.fst).Nodup
  distinct : ∀ e ∈ es, DirTree.Distinct e.2
  fit : PathsFit fullPathSize base es

theorem regular_file_path {base : Bytes} {d : List Name × Option Stat} {f : FileSnapshot}
    (h : regularFile base d = some f) : f.filepath = entryPath base d.1 := by
  obtain ⟨st, -, hst⟩ := Option.bind_eq_some_iff.mp h
  by_cases htype : st.type = .regular
  · rw [if_pos htype] at hst
    rw [← Option.some.inj hst]
  · rw [if_neg htype] at hst
    cases hst

theorem regular_distinct {fs : FileSystem} {base : Bytes} {es : List (Name × DirTree)}
    (h : Scanned fs base es) : Distinct (regularFiles base es) :=
  recorded_nodup base (statuses_nodup h.names h.distinct) fun _ _ _ hf => regular_file_path hf

theorem collector_meets (fs : FileSystem) (base : Bytes) (ds : List (List Name × Option Stat))
    (fc : FileCollection) : ∃ fc',
      ds.foldl ((fileVisitor fs).meet base) (fc, alwaysSucceeds) = (fc', alwaysSucceeds) ∧
        fc'.files = (ds.filterMap (regularFile base)).reverse++fc.files := by
  induction ds generalizing fc with
  | nil => exact ⟨fc, rfl, rfl⟩
  | cons d ds ih =>
    obtain ⟨ns, o⟩ := d
    cases o with
    | none => exact ih fc
    | some st =>
      by_cases htype : st.type = .regular
      · obtain ⟨fc', hfold, hfiles⟩ := ih
          ⟨⟨entryPath base ns, st.mtime, st.size⟩::fc.files, toInt (fc.fileCount+1),
            toLong (fc.totalSize+st.size)⟩
        have hsome : regularFile base (ns, some st) =
            some ⟨entryPath base ns, st.mtime, st.size⟩ := if_pos htype
        refine ⟨fc', ?_, by rw [hfiles, List.filterMap_cons_some hsome]; simp⟩
        rw [List.foldl_cons, ← hfold, Visitor.meet]
        simp only [fileVisitor, htype, if_true, add_file_ok]
      · obtain ⟨fc', hfold, hfiles⟩ := ih fc
        have hnone : regularFile base (ns, some st) = none := if_neg htype
        refine ⟨fc', ?_, by rw [hfiles, List.filterMap_cons_none hnone]⟩
        rw [List.foldl_cons, ← hfold, Visitor.meet]
        simp only [fileVisitor, htype, if_false]

section Scan
variable {fs : FileSystem} {base : Bytes} {es : List (Name × DirTree)} {fuel : ℕ}
  (hs : Scanned fs base es) (hfuel : heights es < fuel) (fc : FileCollection)
include hs hfuel

theorem collect_ok : ∃ fc',
    collectAllFilesRecursive fs fuel base fc alwaysSucceeds = .ok (0, fc', alwaysSucceeds) ∧
      fc'.files = (regularFiles base es).reverse++fc.files := by
  obtain ⟨fc', hfold, hfiles⟩ := collector_meets fs base (statuses es) fc
  refine ⟨fc', ?_, hfiles⟩
  rw [collectAllFilesRecursive,
    visit_directory_ok (fileVisitor fs) fuel base es _ hfuel hs.shows hs.fit, hfold]
  rfl

theorem check_ok : ∃ fc',
    checkDirectoryModifications fs fuel base fc alwaysSucceeds = .ok (
      if checkNotices fc.files (regularFiles base es).reverse = [] then 0 else 1, fc',
      checkNotices fc.files (regularFiles base es).reverse, alwaysSucceeds) ∧
      fc'.files = updatedFiles fc.files (regularFiles base es).reverse := by
  have hc := distinct_reverse (regular_distinct hs)
  obtain ⟨scan, hcollect, hscan⟩ := collect_ok hs hfuel ⟨[], 0, 0⟩
  rw [List.append_nil] at hscan
  obtain ⟨fc', hadd, hfiles⟩ := add_new_files_ok (regularFiles base es).reverse
    { fc with files := fc.files.map (refresh (regularFiles base es).reverse) }
    (if fc.files.flatMap (reviewNotice (regularFiles base es).reverse) = [] then 0 else 1) hc
  dsimp only at hadd hfiles
  rw [new_files_refreshed] at hadd hfiles
  refine ⟨fc', ?_, hfiles⟩
  rw [check_code]
  simp only [checkDirectoryModifications, initFileCollection, allocate_always, if_true, hcollect,
    ok_bind, ne_eq, not_true_eq_false, if_false, review_files_eq, hscan, hadd]
  rfl

theorem check_step (ho : Distinct fc.files) : ∃ code fc' notices,
    checkDirectoryModifications fs fuel base fc alwaysSucceeds =
        .ok (code, fc', notices, alwaysSucceeds) ∧ Distinct fc'.files ∧
      Reports (recorded fc.files) (snapshot base es) notices ∧
      recorded fc'.files = overlay (recorded fc.files) (snapshot base es) := by
  have hd := regular_distinct hs
  have hc := distinct_reverse hd
  have hsnapshot : recorded (regularFiles base es).reverse = snapshot base es :=
    recorded_reverse hd
  obtain ⟨fc', hcheck, hfiles⟩ := check_ok hs hfuel fc
  refine ⟨_, fc', _, hcheck, ?_, ?_, ?_⟩
  · rw [hfiles]
    exact updated_distinct ho hc
  · rw [← hsnapshot]
    exact check_reports ho hc
  · rw [hfiles, ← hsnapshot]
    exact recorded_updated hc

end Scan

def dueChecks : List (ℤ × FileSystem) → ℤ → List FileSystem
  | [], _ => []
  | (currentTime, fs)::rest, lastCheck =>
    if currentTime-lastCheck ≥ checkTime then fs::dueChecks rest currentTime
    else dueChecks rest lastCheck

theorem main_loop_ok (fuel : ℕ) (base : Bytes) (ticks : List (ℤ × FileSystem)) (lastCheck : ℤ)
    (ess : List (List (Name × DirTree))) (fc : FileCollection) (ho : Distinct fc.files)
    (h : List.Forall₂ (fun fs es => Scanned fs base es ∧ heights es < fuel)
      (dueChecks ticks lastCheck) ess) : ∃ checks fc',
      daemonMainLoop fuel base ticks lastCheck fc alwaysSucceeds =
          .ok (checks, fc', alwaysSucceeds) ∧
        ReportsOverlaid (recorded fc.files) (ess.map (snapshot base)) (checks.map Prod.snd) := by
  induction ticks generalizing lastCheck ess fc with
  | nil =>
    cases h
    exact ⟨[], fc, rfl, trivial⟩
  | cons tick ticks ih =>
    obtain ⟨currentTime, fs⟩ := tick
    rw [daemonMainLoop]
    rw [dueChecks] at h
    by_cases hdue : currentTime-lastCheck ≥ checkTime
    · rw [if_pos hdue] at h ⊢
      cases h with
      | @cons _ es _ ess hhead htail =>
        obtain ⟨code, fc₁, notices, hcheck, ho₁, hreports, hoverlay⟩ :=
          check_step hhead.1 hhead.2 fc ho
        obtain ⟨checks, fc', hloop, hoverlaid⟩ := ih currentTime ess fc₁ ho₁ htail
        refine ⟨(code, notices)::checks, fc', ?_, hreports, by rw [← hoverlay]; exact hoverlaid⟩
        simp only [hcheck, ok_bind, hloop]
        rfl
    · rw [if_neg hdue] at h ⊢
      exact ih lastCheck ess fc ho h

/-- For complete scans, the notices of every check are the differences
between the last two scans exactly when no file that a scan has found is
missing from a later one before the last. -/
theorem notices_exact_iff (fuel : ℕ) (base : Bytes) (fs : FileSystem) (start : ℤ)
    (ticks : List (ℤ × FileSystem)) (es : List (Name × DirTree))
    (ess : List (List (Name × DirTree)))
    (hdir : (fs.stat base).map Stat.type = some .directory)
    (hs : Scanned fs base es ∧ heights es < fuel)
    (hdue : List.Forall₂ (fun fs es => Scanned fs base es ∧ heights es < fuel)
      (dueChecks ticks start) ess) :
    ∃ checks, monitor fuel base fs start ticks alwaysSucceeds = .ok (some checks) ∧
      (ReportsAll (snapshot base es) (ess.map (snapshot base)) (checks.map Prod.snd) ↔
        (snapshot base es::ess.map (snapshot base)).dropLast.IsChain Persists) := by
  obtain ⟨fc, hcollect, hfiles⟩ := collect_ok hs.1 hs.2 ⟨[], 0, 0⟩
  rw [List.append_nil] at hfiles
  have hd := regular_distinct hs.1
  have ho : Distinct fc.files := by
    rw [hfiles]
    exact distinct_reverse hd
  have hstart : recorded fc.files = snapshot base es := by
    rw [hfiles]
    exact recorded_reverse hd
  obtain ⟨checks, fc', hloop, hoverlaid⟩ := main_loop_ok fuel base ticks start ess fc ho hdue
  rw [hstart] at hoverlaid
  refine ⟨checks, ?_, reports_all_iff _ _ _ hoverlaid⟩
  simp only [monitor, hdir, ne_eq, not_true_eq_false, if_false, initFileCollection,
    allocate_always, if_true, hcollect, ok_bind, hloop]
  rfl

def watchedName : Name := ⟨text "w", by decide, by decide, by decide, by decide, by decide⟩
def fileName : Name := ⟨text "f", by decide, by decide, by decide, by decide, by decide⟩

def watchedHost (es : List (Name × DirTree)) : Host :=
  let watched : DirTree := .dir ⟨.directory, 12, 4096, 2, 0⟩ rfl es
  let root : DirTree := .dir ⟨.directory, 11, 4096, 3, 0⟩ rfl [(watchedName, watched)]
  ⟨root, [root]⟩

def oneFile (size mtime : ℤ) : List (Name × DirTree) :=
  [(fileName, .leaf (some ⟨.regular, 13, size, 1, mtime⟩) (by rintro s ⟨⟩; simp))]

theorem watched_scanned (es : List (Name × DirTree)) (hnames : (es.map Prod.fst).Nodup)
    (hdistinct : ∀ e ∈ es, DirTree.Distinct e.2) (hfit : PathsFit fullPathSize (text "/w") es) :
    Scanned (watchedHost es).fileSystem (text "/w") es := by
  have hwatched : DirTree.Distinct (.dir ⟨.directory, 12, 4096, 2, 0⟩ rfl es) :=
    .dir _ _ _ hnames hdistinct
  exact {
    shows := shows_of_names ((watchedHost es).lookup_names hwatched (text "/w") _ (by rfl))
    names := hnames
    distinct := hdistinct
    fit := hfit }

theorem empty_scanned : Scanned (watchedHost []).fileSystem (text "/w") [] :=
  watched_scanned [] List.nodup_nil (by simp) (by simp [PathsFit, statuses, descendantsOf])

theorem one_file_scanned (size mtime : ℤ) :
    Scanned (watchedHost (oneFile size mtime)).fileSystem (text "/w") (oneFile size mtime) := by
  apply watched_scanned
  · exact List.nodup_singleton _
  · intro e he
    rw [List.mem_singleton.mp he]
    exact .leaf _ _
  · intro d hd
    rw [List.mem_singleton.mp hd]
    show (entryPath (text "/w") [fileName]).length < fullPathSize
    decide

def deletedTicks : List (ℤ × FileSystem) :=
  [(5, (watchedHost []).fileSystem), (10, (watchedHost []).fileSystem)]

theorem deleted_twice : monitor 2 (text "/w") (watchedHost (oneFile 7 1)).fileSystem 0 deletedTicks
    alwaysSucceeds =
      .ok (some [(1, [.deleted (text "/w/f")]), (1, [.deleted (text "/w/f")])]) := by
  rfl

/-- A deleted file that stays away is reported again. -/
theorem deleted_reported_again : ¬ ∀ (fuel : ℕ) (base : Bytes) (fs : FileSystem) (start : ℤ)
    (ticks : List (ℤ × FileSystem)) (es : List (Name × DirTree))
    (ess : List (List (Name × DirTree))),
    (fs.stat base).map Stat.type = some .directory → Scanned fs base es ∧ heights es < fuel →
    List.Forall₂ (fun fs es => Scanned fs base es ∧ heights es < fuel)
      (dueChecks ticks start) ess →
    ∃ checks, monitor fuel base fs start ticks alwaysSucceeds = .ok (some checks) ∧
      ReportsAll (snapshot base es) (ess.map (snapshot base)) (checks.map Prod.snd) := by
  intro h
  have hempty : Scanned (watchedHost []).fileSystem (text "/w") [] ∧ heights [] < 2 :=
    ⟨empty_scanned, by decide⟩
  obtain ⟨checks, hrun, hall⟩ := h 2 (text "/w") (watchedHost (oneFile 7 1)).fileSystem 0
    deletedTicks (oneFile 7 1) [[], []] (by rfl) ⟨one_file_scanned 7 1, by decide⟩
    (.cons hempty (.cons hempty .nil))
  rw [deleted_twice] at hrun
  obtain rfl := Option.some.inj (Except.ok.inj hrun)
  have hdiff := (hall.2.1.2 (.deleted (text "/w/f"))).mp (by simp)
  exact hdiff.1 rfl

theorem change_then_deletion : ∃ checks,
    monitor 2 (text "/w") (watchedHost (oneFile 7 1)).fileSystem 0
      [(3, (watchedHost []).fileSystem), (5, (watchedHost (oneFile 8 4)).fileSystem),
        (11, (watchedHost []).fileSystem)] alwaysSucceeds = .ok (some checks) ∧
    ReportsAll (snapshot (text "/w") (oneFile 7 1))
      [snapshot (text "/w") (oneFile 8 4), snapshot (text "/w") []] (checks.map Prod.snd) := by
  obtain ⟨checks, hrun, hiff⟩ := notices_exact_iff 2 (text "/w")
    (watchedHost (oneFile 7 1)).fileSystem 0
    [(3, (watchedHost []).fileSystem), (5, (watchedHost (oneFile 8 4)).fileSystem),
      (11, (watchedHost []).fileSystem)] (oneFile 7 1) [oneFile 8 4, []] (by rfl)
    ⟨one_file_scanned 7 1, by decide⟩
    (.cons ⟨one_file_scanned 8 4, by decide⟩ (.cons ⟨empty_scanned, by decide⟩ .nil))
  refine ⟨checks, hrun, hiff.mpr ?_⟩
  apply List.IsChain.cons_cons _ (List.IsChain.singleton _)
  intro path hpath hnone
  apply hpath
  rw [snapshot, recorded_none_iff] at hnone ⊢
  exact hnone

end ProgSistema.FileDaemon
