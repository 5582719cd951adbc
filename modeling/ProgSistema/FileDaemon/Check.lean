import ProgSistema.FileDaemon.Model

/-!
# One check

The collection stands for a snapshot: the time and size recorded for each
path. A check logs the differences between the snapshot of the collection and
the current one, and lays the current one over the collection.
-/

set_option autoImplicit false

namespace ProgSistema.FileDaemon
open CRuntime FileTree Snapshot

def FileSnapshot.state (f : FileSnapshot) : ℤ × ℤ := (f.mtime, f.size)

def Distinct (files : List FileSnapshot) : Prop := (files.map FileSnapshot.filepath).Nodup

def recorded (files : List FileSnapshot) : Bytes → Option (ℤ × ℤ) :=
  fun path => (findFileInCollection files path).map FileSnapshot.state

theorem find_path {files : List FileSnapshot} {path : Bytes} {f : FileSnapshot}
    (h : findFileInCollection files path = some f) : f ∈ files ∧ f.filepath = path :=
  ⟨List.mem_of_find?_eq_some h, by simpa using List.find?_some h⟩

theorem find_none_iff (files : List FileSnapshot) (path : Bytes) :
    findFileInCollection files path = none ↔ path ∉ files.map FileSnapshot.filepath := by
  rw [findFileInCollection, List.find?_eq_none]
  simp

theorem recorded_none_iff (files : List FileSnapshot) (path : Bytes) :
    recorded files path = none ↔ path ∉ files.map FileSnapshot.filepath := by
  rw [recorded, Option.map_eq_none_iff, find_none_iff]

theorem find_of_mem {files : List FileSnapshot} (hd : Distinct files) {f : FileSnapshot}
    (hf : f ∈ files) : findFileInCollection files f.filepath = some f := by
  cases h : findFileInCollection files f.filepath with
  | none => exact absurd (List.mem_map_of_mem hf) ((find_none_iff _ _).mp h)
  | some g =>
    obtain ⟨hg, hpath⟩ := find_path h
    rw [List.inj_on_of_nodup_map hd hg hf hpath]

theorem recorded_of_mem {files : List FileSnapshot} (hd : Distinct files) {f : FileSnapshot}
    (hf : f ∈ files) : recorded files f.filepath = some f.state := by
  rw [recorded, find_of_mem hd hf, Option.map_some]

theorem recorded_some_iff {files : List FileSnapshot} (hd : Distinct files) (path : Bytes)
    (v : ℤ × ℤ) : recorded files path = some v ↔
      ∃ f ∈ files, f.filepath = path ∧ f.state = v := by
  constructor
  · intro h
    obtain ⟨f, hf, rfl⟩ := Option.map_eq_some_iff.mp h
    exact ⟨f, (find_path hf).1, (find_path hf).2, rfl⟩
  · rintro ⟨f, hf, rfl, rfl⟩
    exact recorded_of_mem hd hf

theorem recorded_perm {files files' : List FileSnapshot} (hd : Distinct files)
    (h : files.Perm files') : recorded files = recorded files' := by
  have hd' : Distinct files' := (h.map _).nodup_iff.mp hd
  ext path v
  rw [recorded_some_iff hd, recorded_some_iff hd']
  simp only [h.mem_iff]

theorem distinct_reverse {files : List FileSnapshot} (hd : Distinct files) :
    Distinct files.reverse := by
  rw [Distinct, List.map_reverse]
  exact List.nodup_reverse.mpr hd

theorem recorded_reverse {files : List FileSnapshot} (hd : Distinct files) :
    recorded files.reverse = recorded files :=
  (recorded_perm hd (List.reverse_perm files).symm).symm

theorem is_modified_iff (f g : FileSnapshot) : isModified f g = true ↔ f.state ≠ g.state := by
  rw [isModified, decide_eq_true_eq, FileSnapshot.state, FileSnapshot.state, ne_eq, ne_eq, ne_eq,
    Prod.mk.injEq, not_and_or]

section Review
variable (current : List FileSnapshot)

def refresh (f : FileSnapshot) : FileSnapshot :=
  match findFileInCollection current f.filepath with
  | none => f
  | some g => { f with mtime := g.mtime, size := g.size }

def reviewNotice (f : FileSnapshot) : List Notice :=
  match findFileInCollection current f.filepath with
  | none => [.deleted f.filepath]
  | some g => if f.state ≠ g.state then [.modified f.filepath] else []

@[simp] theorem refresh_filepath (f : FileSnapshot) : (refresh current f).filepath = f.filepath := by
  unfold refresh
  split <;> rfl

theorem refresh_state (f : FileSnapshot) :
    some (refresh current f).state = (recorded current f.filepath).or (some f.state) := by
  rw [recorded, refresh]
  cases findFileInCollection current f.filepath <;> rfl

theorem review_files_eq (files : List FileSnapshot) (found : ℤ) :
    reviewFiles current files found =
      (files.map (refresh current), files.flatMap (reviewNotice current),
        if files.flatMap (reviewNotice current) = [] then found else 1) := by
  induction files generalizing found with
  | nil => simp [reviewFiles]
  | cons f files ih =>
    rw [reviewFiles, List.map_cons, List.flatMap_cons, refresh, reviewNotice]
    cases hfind : findFileInCollection current f.filepath with
    | none =>
      simp only [ih]
      simp
    | some g =>
      by_cases hstate : f.state = g.state
      · have hsame : isModified f g = false :=
          Bool.eq_false_iff.mpr fun h => (is_modified_iff f g).mp h hstate
        have hkeep : ({ f with mtime := g.mtime, size := g.size } : FileSnapshot) = f := by
          obtain ⟨hmtime, hsize⟩ := Prod.mk.inj hstate
          rw [← hmtime, ← hsize]
        simp only [hsame, ih, hkeep]
        simp [hstate]
      · simp only [(is_modified_iff f g).mpr hstate, ih]
        simp [hstate]

theorem recorded_refresh (files : List FileSnapshot) (path : Bytes) :
    recorded (files.map (refresh current)) path =
      (recorded files path).bind fun v => (recorded current path).or (some v) := by
  induction files with
  | nil => rfl
  | cons f files ih =>
    by_cases hpath : f.filepath = path
    · have hnew : findFileInCollection ((f::files).map (refresh current)) path =
          some (refresh current f) := by
        simp [findFileInCollection, hpath]
      have hold : findFileInCollection (f::files) path = some f := by
        simp [findFileInCollection, hpath]
      rw [recorded, recorded, hnew, hold, Option.map_some, Option.map_some, refresh_state, hpath,
        Option.bind_some]
    · have hnew : findFileInCollection ((f::files).map (refresh current)) path =
          findFileInCollection (files.map (refresh current)) path := by
        simp [findFileInCollection, hpath]
      have hold : findFileInCollection (f::files) path = findFileInCollection files path := by
        simp [findFileInCollection, hpath]
      rw [recorded, hnew, recorded, hold]
      exact ih

theorem review_keys (files : List FileSnapshot) :
    ((files.flatMap (reviewNotice current)).map Change.key).Sublist
      (files.map FileSnapshot.filepath) := by
  induction files with
  | nil => exact List.Sublist.refl _
  | cons f files ih =>
    have hhead : ((reviewNotice current f).map Change.key).Sublist [f.filepath] := by
      unfold reviewNotice
      cases findFileInCollection current f.filepath with
      | none => exact List.Sublist.refl _
      | some g =>
        by_cases hstate : f.state = g.state
        · simp [hstate]
        · simp [hstate, Change.key]
    rw [List.flatMap_cons, List.map_append]
    exact hhead.append ih

end Review

section Additions
variable (original current : List FileSnapshot)

def newFiles : List FileSnapshot :=
  current.filter fun f => (findFileInCollection original f.filepath).isNone

theorem add_file_ok (fc : FileCollection) (filepath : Bytes) (mtime size : ℤ) :
    addFileToCollection fc filepath mtime size alwaysSucceeds =
      ({ files := ⟨filepath, mtime, size⟩::fc.files, fileCount := toInt (fc.fileCount+1),
         totalSize := toLong (fc.totalSize+size) }, alwaysSucceeds) := rfl

theorem new_files_cons {f : FileSnapshot} (hd : Distinct (f::current)) :
    newFiles (f::original) current = newFiles original current := by
  apply List.filter_congr
  intro g hg
  have hne : f.filepath ≠ g.filepath := by
    intro heq
    exact (List.nodup_cons.mp hd).1 (List.mem_map.mpr ⟨g, hg, heq.symm⟩)
  rw [findFileInCollection, List.find?_cons_of_neg (by simpa using hne), findFileInCollection]

theorem mem_new_files (f : FileSnapshot) : f ∈ newFiles original current ↔
    f ∈ current ∧ recorded original f.filepath = none := by
  rw [newFiles, List.mem_filter, Option.isNone_iff_eq_none, recorded, Option.map_eq_none_iff]

theorem add_new_files_ok (fc : FileCollection) (found : ℤ) (hd : Distinct current) :
    ∃ fc', addNewFiles current fc found alwaysSucceeds =
        (fc', (newFiles fc.files current).map (fun f => .created f.filepath),
          if newFiles fc.files current = [] then found else 1, alwaysSucceeds) ∧
      fc'.files = (newFiles fc.files current).reverse++fc.files := by
  induction current generalizing fc found with
  | nil => exact ⟨fc, rfl, rfl⟩
  | cons f current ih =>
    have htail : Distinct current := (List.nodup_cons.mp hd).2
    rw [addNewFiles]
    cases hfind : findFileInCollection fc.files f.filepath with
    | some g =>
      have hnew : newFiles fc.files (f::current) = newFiles fc.files current := by
        simp [newFiles, hfind]
      rw [hnew]
      exact ih fc found htail
    | none =>
      have hnew : newFiles fc.files (f::current) = f::newFiles fc.files current := by
        simp [newFiles, hfind]
      obtain ⟨fc', hadd, hfiles⟩ :=
        ih ⟨f::fc.files, toInt (fc.fileCount+1), toLong (fc.totalSize+f.size)⟩ 1 htail
      rw [new_files_cons fc.files current hd] at hadd hfiles
      refine ⟨fc', ?_, by rw [hfiles, hnew]; simp⟩
      simp only [add_file_ok, hadd, hnew]
      simp

end Additions

section Updated
variable {original current : List FileSnapshot}

def updatedFiles (original current : List FileSnapshot) : List FileSnapshot :=
  (newFiles original current).reverse++original.map (refresh current)

def checkNotices (original current : List FileSnapshot) : List Notice :=
  original.flatMap (reviewNotice current)++
    (newFiles original current).map fun f => .created f.filepath

/-- The flag raised by the two loops. -/
theorem check_code (original current : List FileSnapshot) :
    (if checkNotices original current = [] then (0 : ℤ) else 1) =
      if newFiles original current = [] then
        if original.flatMap (reviewNotice current) = [] then 0 else 1
      else 1 := by
  by_cases hnew : newFiles original current = []
  · simp [checkNotices, hnew]
  · simp [checkNotices, hnew]

theorem refreshed_paths (original current : List FileSnapshot) :
    (original.map (refresh current)).map FileSnapshot.filepath =
      original.map FileSnapshot.filepath := by
  rw [List.map_map]
  apply List.map_congr_left
  intro f _
  exact refresh_filepath current f

theorem new_files_refreshed (original current : List FileSnapshot) :
    newFiles (original.map (refresh current)) current = newFiles original current := by
  apply List.filter_congr
  intro f _
  rw [Bool.eq_iff_iff, Option.isNone_iff_eq_none, Option.isNone_iff_eq_none, find_none_iff,
    find_none_iff, refreshed_paths]

theorem updated_distinct (ho : Distinct original) (hc : Distinct current) :
    Distinct (updatedFiles original current) := by
  rw [Distinct, updatedFiles, List.map_append, refreshed_paths, List.map_reverse]
  apply List.nodup_append'.mpr
  have hnew : ((newFiles original current).map FileSnapshot.filepath).Nodup :=
    hc.sublist (List.filter_sublist.map _)
  refine ⟨List.nodup_reverse.mpr hnew, ho, ?_⟩
  intro path hpath horiginal
  obtain ⟨f, hf, rfl⟩ := List.mem_map.mp (List.mem_reverse.mp hpath)
  exact (recorded_none_iff _ _).mp ((mem_new_files _ _ f).mp hf).2 horiginal

theorem recorded_append (xs ys : List FileSnapshot) (path : Bytes) :
    recorded (xs++ys) path = (recorded xs path).or (recorded ys path) := by
  rw [recorded, findFileInCollection, List.find?_append, Option.map_or]
  rfl

theorem recorded_new (hc : Distinct current) (path : Bytes) :
    recorded (newFiles original current).reverse path =
      if recorded original path = none then recorded current path else none := by
  have hd : Distinct (newFiles original current) := hc.sublist (List.filter_sublist.map _)
  rw [recorded_reverse hd]
  by_cases hnew : recorded original path = none
  · rw [if_pos hnew]
    ext v
    rw [recorded_some_iff hd, recorded_some_iff hc]
    constructor
    · rintro ⟨f, hf, hpath, hv⟩
      exact ⟨f, ((mem_new_files _ _ f).mp hf).1, hpath, hv⟩
    · rintro ⟨f, hf, rfl, hv⟩
      exact ⟨f, (mem_new_files _ _ f).mpr ⟨hf, hnew⟩, rfl, hv⟩
  · rw [if_neg hnew, recorded_none_iff]
    rintro hpath
    obtain ⟨f, hf, rfl⟩ := List.mem_map.mp hpath
    exact hnew ((mem_new_files _ _ f).mp hf).2

theorem recorded_updated (hc : Distinct current) :
    recorded (updatedFiles original current) =
      overlay (recorded original) (recorded current) := by
  ext1 path
  rw [updatedFiles, recorded_append, recorded_new hc, recorded_refresh, overlay]
  cases recorded original path with
  | none => simp
  | some v =>
    cases recorded current path <;> simp

theorem mem_review_notices (ho : Distinct original) (c : Notice) :
    c ∈ original.flatMap (reviewNotice current) ↔
      Differs (recorded original) (recorded current) c ∧ c ≠ .created c.key := by
  rw [List.mem_flatMap]
  constructor
  · rintro ⟨f, hf, hc⟩
    have hrec := recorded_of_mem ho hf
    unfold reviewNotice at hc
    cases hfind : findFileInCollection current f.filepath with
    | none =>
      rw [hfind, List.mem_singleton] at hc
      subst hc
      refine ⟨⟨by rw [hrec]; simp, ?_⟩, by simp⟩
      rw [recorded, hfind, Option.map_none]
    | some g =>
      rw [hfind] at hc
      by_cases hstate : f.state = g.state
      · simp [hstate] at hc
      · simp only [ne_eq, hstate, not_false_eq_true, if_true, List.mem_singleton] at hc
        subst hc
        refine ⟨⟨f.state, g.state, hrec, ?_, hstate⟩, by simp⟩
        rw [recorded, hfind, Option.map_some]
  · rintro ⟨hdiff, hkind⟩
    cases c with
    | created path => exact absurd rfl hkind
    | modified path =>
      obtain ⟨a, b, ha, hb, hne⟩ := hdiff
      obtain ⟨f, hf, rfl, rfl⟩ := (recorded_some_iff ho _ _).mp ha
      obtain ⟨g, hg, rfl⟩ := Option.map_eq_some_iff.mp hb
      refine ⟨f, hf, ?_⟩
      rw [reviewNotice, hg]
      simp [hne]
    | deleted path =>
      obtain ⟨hsome, hnone⟩ := hdiff
      obtain ⟨v, hv⟩ := Option.ne_none_iff_exists'.mp hsome
      obtain ⟨f, hf, rfl, -⟩ := (recorded_some_iff ho _ _).mp hv
      refine ⟨f, hf, ?_⟩
      rw [reviewNotice, Option.map_eq_none_iff.mp hnone]
      simp

theorem mem_created_notices (hc : Distinct current) (c : Notice) :
    (c ∈ (newFiles original current).map fun f => Change.created f.filepath) ↔
      Differs (recorded original) (recorded current) c ∧ c = .created c.key := by
  rw [List.mem_map]
  constructor
  · rintro ⟨f, hf, rfl⟩
    obtain ⟨hf, hnone⟩ := (mem_new_files _ _ f).mp hf
    refine ⟨⟨hnone, ?_⟩, rfl⟩
    rw [recorded_of_mem hc hf]
    simp
  · rintro ⟨hdiff, hkind⟩
    rw [hkind] at hdiff ⊢
    obtain ⟨hnone, hsome⟩ := hdiff
    obtain ⟨v, hv⟩ := Option.ne_none_iff_exists'.mp hsome
    obtain ⟨f, hf, hpath, -⟩ := (recorded_some_iff hc _ _).mp hv
    exact ⟨f, (mem_new_files _ _ f).mpr ⟨hf, by rw [hpath]; exact hnone⟩, by rw [hpath]⟩

theorem check_reports (ho : Distinct original) (hc : Distinct current) :
    Reports (recorded original) (recorded current) (checkNotices original current) := by
  constructor
  · apply List.nodup_append'.mpr
    refine ⟨(ho.sublist (review_keys current original)).of_map _, ?_, ?_⟩
    · have hnew : ((newFiles original current).map FileSnapshot.filepath).Nodup :=
        hc.sublist (List.filter_sublist.map _)
      have hmap : (newFiles original current).map (fun f => Change.created f.filepath) =
          ((newFiles original current).map FileSnapshot.filepath).map Change.created := by
        rw [List.map_map]
        rfl
      rw [hmap]
      exact hnew.map fun a b hab => Change.created.inj hab
    · intro c hreview hcreated
      exact ((mem_review_notices ho c).mp hreview).2 ((mem_created_notices hc c).mp hcreated).2
  · intro c
    rw [checkNotices, List.mem_append, mem_review_notices ho, mem_created_notices hc, ← and_or_left]
    exact and_iff_left (ne_or_eq c _)

end Updated

end ProgSistema.FileDaemon
