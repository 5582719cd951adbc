import ProgSistema.FileDaemon.Monitor
import ProgSistema.Lib.FaultyVisit

/-!
# Notices of deletion when calls fail

A scan goes on past a directory that it cannot open and past an entry whose
`stat` fails, and only a failure to open the start directory is reported. The
files behind the others are then missing from the scan, and a recorded file that
is missing from a scan is logged as deleted.
-/

set_option autoImplicit false

namespace ProgSistema.FileDaemon
open CRuntime FileTree Snapshot DirTree

structure Scene where
  fs : FileSystem
  faults : Faults
  entries : List (Name × DirTree)

def Scene.met (sc : Scene) : FileSystem := sc.faults.apply sc.fs

section
variable (base : Bytes)

def Scene.opened (sc : Scene) : Bool := (sc.met.opendir base).isSome

def Scene.regular (sc : Scene) : Set Bytes :=
  {path | path ∈ (regularFiles base sc.entries).map FileSnapshot.filepath}

/-- No call fails in the scan, and every known path that exists is still that of
a regular file. -/
def Faithful (known : Set Bytes) (sc : Scene) : Prop :=
  Untroubled sc.faults sc.fs base sc.entries ∧
    ∀ path ∈ known, sc.fs.stat path ≠ none → path ∈ sc.regular base

def AllFaithful : Set Bytes → List Scene → Prop
  | _, [] => True
  | known, sc::rest =>
    (sc.opened base = true → Faithful base known sc) ∧
      AllFaithful (if sc.opened base then known ∪ sc.regular base else known) rest

/-- Only paths that do not exist are logged as deleted, and a scan in which a
call fails is an error. -/
def Honest (sc : Scene) (check : ℤ × List Notice) : Prop :=
  (∀ path, .deleted path ∈ check.2 → sc.fs.stat path = none) ∧
    (¬ Untroubled sc.faults sc.fs base sc.entries → check.1 = -1)

def Scene.Shown (fuel : ℕ) (sc : Scene) : Prop :=
  sc.opened base = true → Scanned sc.fs base sc.entries ∧ heights sc.entries < fuel

end

def paths (fc : FileCollection) : Set Bytes := {path | path ∈ fc.files.map FileSnapshot.filepath}

theorem visitor_keeps (fs : FileSystem) :
    (fileVisitor fs).Keeps fun s => s.2 = alwaysSucceeds where
  openFailed _ hs := hs
  statusFailed _ hs := hs
  visit p st s hs := by
    obtain ⟨fc, heap⟩ := s
    dsimp only at hs
    subst hs
    show (if st.type = .regular then addFileToCollection fc p st.mtime st.size alwaysSucceeds
      else (fc, alwaysSucceeds)).2 = alwaysSucceeds
    split
    · rw [add_file_ok]
    · rfl

theorem mem_deleted (original current : List FileSnapshot) (path : Bytes) :
    Change.deleted path ∈ original.flatMap (reviewNotice current) ↔
      path ∈ original.map FileSnapshot.filepath ∧ path ∉ current.map FileSnapshot.filepath := by
  rw [List.mem_flatMap, List.mem_map]
  constructor
  · rintro ⟨f, hf, hc⟩
    unfold reviewNotice at hc
    cases hfind : findFileInCollection current f.filepath with
    | none =>
      rw [hfind, List.mem_singleton] at hc
      cases hc
      exact ⟨⟨f, hf, rfl⟩, (find_none_iff _ _).mp hfind⟩
    | some g =>
      rw [hfind] at hc
      dsimp only at hc
      split at hc
      · rw [List.mem_singleton] at hc
        cases hc
      · cases hc
  · rintro ⟨⟨f, hf, rfl⟩, hnot⟩
    refine ⟨f, hf, ?_⟩
    rw [reviewNotice, (find_none_iff _ _).mpr hnot]
    exact List.mem_singleton_self _

/-- The second loop adds paths and logs creations only. -/
theorem add_new_files_paths (current : List FileSnapshot) (fc : FileCollection) (found : ℤ) :
    ∃ fc' notices found', addNewFiles current fc found alwaysSucceeds =
        (fc', notices, found', alwaysSucceeds) ∧ (found' = found ∨ found' = 1) ∧
      (∀ path, Change.deleted path ∉ notices) ∧
      paths fc' = paths fc ∪ {path | path ∈ current.map FileSnapshot.filepath} := by
  induction current generalizing fc found with
  | nil => exact ⟨fc, [], found, rfl, Or.inl rfl, by simp, by simp⟩
  | cons f current ih =>
    rw [addNewFiles]
    cases hfind : findFileInCollection fc.files f.filepath with
    | some g =>
      obtain ⟨fc', notices, found', hadd, hfound, hnone, hpaths⟩ := ih fc found
      refine ⟨fc', notices, found', hadd, hfound, hnone, ?_⟩
      have hmem : f.filepath ∈ paths fc := by
        by_contra hnot
        rw [(find_none_iff _ _).mpr hnot] at hfind
        cases hfind
      rw [hpaths]
      ext path
      simp only [Set.mem_union, Set.mem_ofPred_eq, List.map_cons, List.mem_cons]
      constructor
      · rintro (hold | hnew)
        · exact Or.inl hold
        · exact Or.inr (Or.inr hnew)
      · rintro (hold | rfl | hnew)
        · exact Or.inl hold
        · exact Or.inl hmem
        · exact Or.inr hnew
    | none =>
      obtain ⟨fc', notices, found', hadd, hfound, hnone, hpaths⟩ :=
        ih ⟨f::fc.files, toInt (fc.fileCount+1), toLong (fc.totalSize+f.size)⟩ 1
      refine ⟨fc', .created f.filepath::notices, found', ?_, ?_, ?_, ?_⟩
      · simp only [add_file_ok, hadd]
      · rcases hfound with rfl | rfl <;> exact Or.inr rfl
      · intro path hmem
        rcases List.mem_cons.mp hmem with heq | hmem
        · cases heq
        · exact hnone path hmem
      · rw [hpaths]
        ext path
        simp only [paths, Set.mem_union, Set.mem_ofPred_eq, List.map_cons, List.mem_cons]
        tauto

/-- A check whose scan returns 0 compares with what the scan has found. -/
theorem check_compares {fs : FileSystem} {fuel : ℕ} {base : Bytes} {scan : FileCollection}
    (hscan : collectAllFilesRecursive fs fuel base ⟨[], 0, 0⟩ alwaysSucceeds =
      .ok (0, scan, alwaysSucceeds)) (fc : FileCollection) :
    ∃ code fc' notices, checkDirectoryModifications fs fuel base fc alwaysSucceeds =
        .ok (code, fc', notices, alwaysSucceeds) ∧ code ≠ -1 ∧
      (∀ path, Change.deleted path ∈ notices ↔ path ∈ paths fc ∧ path ∉ paths scan) ∧
      paths fc' = paths fc ∪ paths scan := by
  obtain ⟨fc', created, found, hadd, hfound, hnone, hpaths⟩ := add_new_files_paths scan.files
    { fc with files := fc.files.map (refresh scan.files) }
    (if fc.files.flatMap (reviewNotice scan.files) = [] then 0 else 1)
  refine ⟨found, fc', fc.files.flatMap (reviewNotice scan.files)++created, ?_, ?_, ?_, ?_⟩
  · simp only [checkDirectoryModifications, initFileCollection, allocate_always, if_true, hscan,
      ok_bind, ne_eq, not_true_eq_false, if_false, review_files_eq, hadd]
    rfl
  · rcases hfound with rfl | rfl
    · split <;> decide
    · decide
  · intro path
    rw [List.mem_append, mem_deleted]
    exact or_iff_left (hnone path)
  · rw [hpaths]
    congr 1
    ext path
    show path ∈ (fc.files.map (refresh scan.files)).map FileSnapshot.filepath ↔ _
    rw [refreshed_paths]
    rfl

/-- A scan of a scene, complete or not. -/
theorem collect_met {base : Bytes} {fuel : ℕ} {sc : Scene} (h : sc.Shown base fuel)
    (hopen : sc.opened base = true) : ∃ scan,
    collectAllFilesRecursive sc.met fuel base ⟨[], 0, 0⟩ alwaysSucceeds =
      .ok (0, scan, alwaysSucceeds) ∧
    (Untroubled sc.faults sc.fs base sc.entries → paths scan = sc.regular base) := by
  obtain ⟨hs, hfuel⟩ := h hopen
  have hstart : sc.faults.opendir base = false := by
    unfold Scene.opened Scene.met at hopen
    rw [faulty_opendir] at hopen
    cases hfails : sc.faults.opendir base with
    | false => rfl
    | true => rw [hfails] at hopen; cases hopen
  by_cases hfree : Untroubled sc.faults sc.fs base sc.entries
  · have hmet : Scanned sc.met base sc.entries :=
      { hs with shows := shows_untroubled hs.shows hfree }
    obtain ⟨scan, hcollect, hfiles⟩ := collect_ok hmet hfuel ⟨[], 0, 0⟩
    refine ⟨scan, hcollect, fun _ => ?_⟩
    ext path
    simp [paths, Scene.regular, hfiles]
  · obtain ⟨⟨scan, heap⟩, hvisit, hheap⟩ :=
      faulty_visit (visitor_keeps sc.met) rfl rfl hfuel hs.shows hs.fit
        (s := (⟨[], 0, 0⟩, alwaysSucceeds)) rfl
    dsimp only at hheap
    subst hheap
    refine ⟨scan, ?_, fun h => absurd h hfree⟩
    rw [collectAllFilesRecursive, hvisit, hstart]
    rfl

theorem check_closed {base : Bytes} {fuel : ℕ} (hfuel : 0 < fuel) {sc : Scene}
    (hopen : sc.opened base = false) (fc : FileCollection) :
    checkDirectoryModifications sc.met fuel base fc alwaysSucceeds =
      .ok (-1, fc, [], alwaysSucceeds) := by
  obtain ⟨fuel, rfl⟩ : ∃ k, fuel = k+1 := ⟨fuel-1, by omega⟩
  have hnone : (fileVisitor sc.met).opendir base = none := by
    have hisnone := Option.not_isSome_iff_eq_none.mp (Bool.eq_false_iff.mp hopen)
    exact hisnone
  have hvisit : (fileVisitor sc.met).directory (fuel+1) base (⟨[], 0, 0⟩, alwaysSucceeds) =
      .ok (false, ⟨[], 0, 0⟩, alwaysSucceeds) := by
    rw [Visitor.directory, hnone]
    rfl
  simp only [checkDirectoryModifications, initFileCollection, allocate_always, if_true,
    collectAllFilesRecursive, hvisit, ok_bind]
  rfl

/-- One check: it is honest exactly when the scene is faithful or the directory
cannot be opened. -/
theorem check_honest {base : Bytes} {fuel : ℕ} (hfuel : 0 < fuel) {sc : Scene}
    (h : sc.Shown base fuel) (fc : FileCollection) : ∃ code fc' notices,
    checkDirectoryModifications sc.met fuel base fc alwaysSucceeds =
      .ok (code, fc', notices, alwaysSucceeds) ∧
    (Honest base sc (code, notices) ↔ (sc.opened base = true → Faithful base (paths fc) sc)) ∧
    (Honest base sc (code, notices) →
      paths fc' = if sc.opened base then paths fc ∪ sc.regular base else paths fc) := by
  cases hopen : sc.opened base with
  | false =>
    refine ⟨-1, fc, [], check_closed hfuel hopen fc, ?_, fun _ => rfl⟩
    have hhonest : Honest base sc (-1, []) := ⟨by simp, fun _ => rfl⟩
    simp [hhonest]
  | true =>
    obtain ⟨scan, hscan, hfull⟩ := collect_met h hopen
    obtain ⟨code, fc', notices, hcheck, hcode, hdeleted, hpaths⟩ := check_compares hscan fc
    have hfree : Honest base sc (code, notices) →
        Untroubled sc.faults sc.fs base sc.entries := by
      intro hhonest
      by_contra htrouble
      exact hcode (hhonest.2 htrouble)
    refine ⟨code, fc', notices, hcheck, ⟨fun hhonest _ => ?_, fun hfaithful => ?_⟩, fun hhonest => ?_⟩
    · refine ⟨hfree hhonest, fun path hknown hexists => ?_⟩
      by_contra hgone
      rw [← hfull (hfree hhonest)] at hgone
      exact hexists (hhonest.1 path ((hdeleted path).mpr ⟨hknown, hgone⟩))
    · obtain ⟨huntroubled, hregular⟩ := hfaithful rfl
      refine ⟨fun path hpath => ?_, fun htrouble => absurd huntroubled htrouble⟩
      obtain ⟨hknown, hgone⟩ := (hdeleted path).mp hpath
      by_contra hexists
      rw [hfull huntroubled] at hgone
      exact hgone (hregular path hknown hexists)
    · rw [if_pos rfl, hpaths, hfull (hfree hhonest)]

def dueScenes : List (ℤ × Scene) → ℤ → List Scene
  | [], _ => []
  | (currentTime, sc)::rest, lastCheck =>
    if currentTime-lastCheck ≥ checkTime then sc::dueScenes rest currentTime
    else dueScenes rest lastCheck

/-- From any collection, over any sequence of file systems and failures: every
check of the loop is honest exactly when every scene is faithful whose watched
directory can be opened. -/
theorem deletions_honest_iff (fuel : ℕ) (hfuel : 0 < fuel) (base : Bytes)
    (ticks : List (ℤ × Scene)) (lastCheck : ℤ) (fc : FileCollection)
    (hshown : ∀ sc ∈ dueScenes ticks lastCheck, sc.Shown base fuel) :
    ∃ checks fc', daemonMainLoop fuel base (ticks.map fun tick => (tick.1, tick.2.met)) lastCheck
        fc alwaysSucceeds = .ok (checks, fc', alwaysSucceeds) ∧
      (List.Forall₂ (Honest base) (dueScenes ticks lastCheck) checks ↔
        AllFaithful base (paths fc) (dueScenes ticks lastCheck)) := by
  induction ticks generalizing lastCheck fc with
  | nil => exact ⟨[], fc, rfl, by simp [dueScenes, AllFaithful]⟩
  | cons tick ticks ih =>
    obtain ⟨currentTime, sc⟩ := tick
    rw [dueScenes] at hshown ⊢
    rw [List.map_cons, daemonMainLoop]
    by_cases hdue : currentTime-lastCheck ≥ checkTime
    · rw [if_pos hdue] at hshown ⊢
      rw [if_pos hdue]
      obtain ⟨code, fc₁, notices, hcheck, hiff, hpaths⟩ := check_honest hfuel
        (hshown sc List.mem_cons_self) fc
      obtain ⟨checks, fc', hloop, hrest⟩ :=
        ih currentTime fc₁ fun sc' hsc' => hshown sc' (List.mem_cons_of_mem _ hsc')
      refine ⟨(code, notices)::checks, fc', ?_, ?_⟩
      · simp only [hcheck, ok_bind, hloop]
        rfl
      · rw [List.forall₂_cons, AllFaithful, hrest, ← hiff]
        refine and_congr_right fun hhonest => ?_
        rw [hpaths hhonest]
    · rw [if_neg hdue] at hshown ⊢
      rw [if_neg hdue]
      exact ih lastCheck fc hshown

def oneRecorded : FileCollection := ⟨[⟨text "/w/f", 1, 7⟩], 1, 7⟩

def closedScene : Scene where
  fs := (watchedHost (oneFile 7 1)).fileSystem
  faults := { Faults.none with opendir := fun p => p = text "/w" }
  entries := oneFile 7 1

def emptyScene : Scene := ⟨(watchedHost []).fileSystem, Faults.none, []⟩

theorem closed_then_deleted : ∃ checks fc',
    daemonMainLoop 2 (text "/w") [(5, closedScene.met), (10, emptyScene.met)] 0 oneRecorded
      alwaysSucceeds = .ok (checks, fc', alwaysSucceeds) ∧
    List.Forall₂ (Honest (text "/w")) [closedScene, emptyScene] checks := by
  obtain ⟨checks, fc', hloop, hiff⟩ := deletions_honest_iff 2 (by decide) (text "/w")
    [(5, closedScene), (10, emptyScene)] 0 oneRecorded (by
      intro sc hsc
      change sc ∈ [closedScene, emptyScene] at hsc
      simp only [List.mem_cons, List.not_mem_nil, or_false] at hsc
      rcases hsc with rfl | rfl
      · intro hopen
        cases hopen
      · exact fun _ => ⟨empty_scanned, by decide⟩)
  have hgone : ∀ path ∈ paths oneRecorded, emptyScene.fs.stat path = none := by
    intro path hpath
    rw [List.mem_singleton.mp hpath]
    rfl
  have hempty : Faithful (text "/w") (paths oneRecorded) emptyScene :=
    ⟨.intro rfl rfl (fun e he => by cases he) (fun e he => by cases he),
      fun path hpath hexists => absurd (hgone path hpath) hexists⟩
  have hall : AllFaithful (text "/w") (paths oneRecorded) [closedScene, emptyScene] :=
    ⟨fun hopen => (by cases hopen), fun _ => hempty, trivial⟩
  exact ⟨checks, fc', hloop, hiff.mpr hall⟩

def unreadScene : Scene where
  fs := (watchedHost (oneFile 7 1)).fileSystem
  faults := { Faults.none with stat := fun p => p = text "/w/f" }
  entries := oneFile 7 1

theorem unread_reported_deleted :
    (checkDirectoryModifications unreadScene.met 2 (text "/w") oneRecorded
        alwaysSucceeds).toOption.map (fun r => (r.1, r.2.2.1)) =
      some (1, [.deleted (text "/w/f")]) ∧
    unreadScene.fs.stat (text "/w/f") = some ⟨.regular, 13, 7, 1, 1⟩ := by
  decide +kernel

end ProgSistema.FileDaemon
