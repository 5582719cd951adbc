import ProgSistema.FileDaemon.Monitor

/-!
# The result of a check and the check after it

A check finds something exactly when the collection and the new scan differ as
maps. It leaves a collection that agrees with the scan wherever the scan has a
file, so the same check made again changes nothing and finds deletions at most.
-/

set_option autoImplicit false

namespace ProgSistema.FileDaemon
open CRuntime FileTree Snapshot DirTree

section
variable {original current : List FileSnapshot}

theorem differs_of_ne {S S' : Bytes → Option (ℤ × ℤ)} (h : S ≠ S') : ∃ c, Differs S S' c := by
  obtain ⟨path, hpath⟩ := Function.ne_iff.mp h
  cases ha : S path with
  | none =>
    rw [ha] at hpath
    exact ⟨.created path, ha, hpath.symm⟩
  | some a =>
    cases hb : S' path with
    | none => exact ⟨.deleted path, by rw [ha]; exact Option.some_ne_none a, hb⟩
    | some b =>
      rw [ha, hb] at hpath
      exact ⟨.modified path, a, b, ha, hb, fun hab => hpath (congrArg some hab)⟩

theorem no_difference (S : Bytes → Option (ℤ × ℤ)) (c : Notice) : ¬ Differs S S c := by
  cases c with
  | created path => exact fun h => h.2 h.1
  | modified path =>
    rintro ⟨a, b, ha, hb, hne⟩
    exact hne (Option.some.inj (ha.symm.trans hb))
  | deleted path => exact fun h => h.1 h.2

theorem reports_nil_iff {S S' : Bytes → Option (ℤ × ℤ)} {notices : List Notice}
    (h : Reports S S' notices) : notices = [] ↔ S = S' := by
  constructor
  · intro hnil
    by_contra hne
    obtain ⟨c, hc⟩ := differs_of_ne hne
    rw [← h.2 c, hnil] at hc
    cases hc
  · rintro rfl
    apply List.eq_nil_iff_forall_not_mem.mpr
    intro c hc
    exact no_difference S c ((h.2 c).mp hc)

theorem code_cases (notices : List Notice) :
    ((if notices = [] then (0 : ℤ) else 1) = 1 ↔ ¬ notices = []) ∧
      ((if notices = [] then (0 : ℤ) else 1) = 0 ↔ notices = []) := by
  by_cases h : notices = []
  · simp [h]
  · simp [h]

/-- A file of a collection that extends the scan is as the scan has it. -/
theorem refresh_settled (ho : Distinct original)
    (hext : Extends (recorded original) (recorded current)) :
    original.map (refresh current) = original := by
  have hsame : ∀ f ∈ original, refresh current f = f := by
    intro f hf
    rw [refresh]
    cases hfind : findFileInCollection current f.filepath with
    | none => rfl
    | some g =>
      have hg : recorded current f.filepath = some g.state := by
        rw [recorded, hfind, Option.map_some]
      have hstate := (recorded_of_mem ho hf).symm.trans (hext _ _ hg)
      obtain ⟨hmtime, hsize⟩ := Prod.mk.inj (Option.some.inj hstate)
      dsimp only
      rw [← hmtime, ← hsize]
  rw [List.map_congr_left hsame, List.map_id']

theorem new_files_settled (hc : Distinct current)
    (hext : Extends (recorded original) (recorded current)) : newFiles original current = [] := by
  apply List.eq_nil_iff_forall_not_mem.mpr
  intro f hf
  obtain ⟨hcurrent, hnone⟩ := (mem_new_files original current f).mp hf
  rw [hext _ _ (recorded_of_mem hc hcurrent)] at hnone
  cases hnone

theorem notices_settled (hc : Distinct current) (ho : Distinct original)
    (hext : Extends (recorded original) (recorded current)) {c : Notice}
    (h : c ∈ checkNotices original current) : ∃ path, c = .deleted path := by
  rw [checkNotices, new_files_settled hc hext, List.map_nil, List.append_nil] at h
  obtain ⟨hdiff, hkind⟩ := (mem_review_notices ho c).mp h
  cases c with
  | created path => exact absurd rfl hkind
  | modified path =>
    obtain ⟨a, b, ha, hb, hne⟩ := hdiff
    exact absurd (Option.some.inj (ha.symm.trans (hext _ _ hb))) hne
  | deleted path => exact ⟨path, rfl⟩

theorem add_new_files_none (fc : FileCollection) (found : ℤ) (heap : Heap)
    (h : newFiles fc.files current = []) :
    addNewFiles current fc found heap = (fc, [], found, heap) := by
  induction current with
  | nil => rfl
  | cons f current ih =>
    rw [newFiles, List.filter_cons] at h
    cases hfind : findFileInCollection fc.files f.filepath with
    | none =>
      rw [hfind] at h
      cases h
    | some g =>
      rw [hfind] at h
      rw [addNewFiles, hfind]
      exact ih h

end

section
variable {fs : FileSystem} {base : Bytes} {es : List (Name × DirTree)} {fuel : ℕ}
  (hs : Scanned fs base es) (hfuel : heights es < fuel) (fc : FileCollection)
include hs hfuel

/-- The check of a collection that has taken over the scan before. -/
theorem check_settled (ho : Distinct fc.files)
    (hext : Extends (recorded fc.files) (snapshot base es)) : ∃ code notices,
      checkDirectoryModifications fs fuel base fc alwaysSucceeds =
        .ok (code, fc, notices, alwaysSucceeds) ∧ ∀ c ∈ notices, ∃ path, c = .deleted path := by
  have hd := regular_distinct hs
  have hc := distinct_reverse hd
  have hscanned : Extends (recorded fc.files) (recorded (regularFiles base es).reverse) := by
    rw [recorded_reverse hd]
    exact hext
  have hnone := new_files_settled hc hscanned
  obtain ⟨scan, hcollect, hscan⟩ := collect_ok hs hfuel ⟨[], 0, 0⟩
  rw [List.append_nil] at hscan
  refine ⟨if fc.files.flatMap (reviewNotice (regularFiles base es).reverse) = [] then 0 else 1,
    checkNotices fc.files (regularFiles base es).reverse, ?_,
    fun c hmem => notices_settled hc ho hscanned hmem⟩
  simp only [checkDirectoryModifications, initFileCollection, allocate_always, if_true, hcollect,
    ok_bind, ne_eq, not_true_eq_false, if_false, review_files_eq, hscan,
    refresh_settled ho hscanned]
  rw [add_new_files_none _ _ _ hnone, checkNotices, hnone]
  rfl

/-- A check returns one exactly if collection and scan differ, the collection
takes over what the scan has and keeps the rest, and the same check made again
leaves it as it is. -/
theorem check_result (ho : Distinct fc.files) : ∃ code fc' notices,
    checkDirectoryModifications fs fuel base fc alwaysSucceeds =
        .ok (code, fc', notices, alwaysSucceeds) ∧
      (code = 1 ↔ recorded fc.files ≠ snapshot base es) ∧
      (code = 0 ↔ recorded fc.files = snapshot base es) ∧
      (∀ path v, snapshot base es path = some v → recorded fc'.files path = some v) ∧
      (∀ path, snapshot base es path = none → recorded fc'.files path = recorded fc.files path) ∧
      Distinct fc'.files ∧
      ∃ code' notices', checkDirectoryModifications fs fuel base fc' alwaysSucceeds =
          .ok (code', fc', notices', alwaysSucceeds) ∧ ∀ c ∈ notices', ∃ path, c = .deleted path := by
  have hd := regular_distinct hs
  have hc := distinct_reverse hd
  have hsnapshot : recorded (regularFiles base es).reverse = snapshot base es :=
    recorded_reverse hd
  obtain ⟨fc', hcheck, hfiles⟩ := check_ok hs hfuel fc
  have hreports := check_reports ho hc
  rw [hsnapshot] at hreports
  have hnil := reports_nil_iff hreports
  have hoverlay : recorded fc'.files = overlay (recorded fc.files) (snapshot base es) := by
    rw [hfiles, ← hsnapshot]
    exact recorded_updated hc
  have hdistinct : Distinct fc'.files := by
    rw [hfiles]
    exact updated_distinct ho hc
  have hext : Extends (recorded fc'.files) (snapshot base es) := by
    rw [hoverlay]
    exact overlay_extends _ _
  refine ⟨_, fc', _, hcheck, ?_, ?_, hext, ?_, hdistinct, check_settled hs hfuel fc' hdistinct hext⟩
  · rw [Ne, ← hnil]
    exact (code_cases _).1
  · rw [← hnil]
    exact (code_cases _).2
  · intro path hpath
    rw [hoverlay, overlay, hpath, Option.none_or]

end

/-- A file that grows, in a collection that knows a file that is gone. -/
theorem grown_file_result : ∃ code fc' notices,
    checkDirectoryModifications (watchedHost (oneFile 8 4)).fileSystem 2 (text "/w")
        ⟨[⟨text "/w/f", 1, 7⟩, ⟨text "/w/g", 1, 5⟩], 2, 12⟩ alwaysSucceeds =
        .ok (code, fc', notices, alwaysSucceeds) ∧
      (code = 1 ↔ recorded [⟨text "/w/f", 1, 7⟩, ⟨text "/w/g", 1, 5⟩] ≠
        snapshot (text "/w") (oneFile 8 4)) ∧
      (code = 0 ↔ recorded [⟨text "/w/f", 1, 7⟩, ⟨text "/w/g", 1, 5⟩] =
        snapshot (text "/w") (oneFile 8 4)) ∧
      (∀ path v, snapshot (text "/w") (oneFile 8 4) path = some v →
        recorded fc'.files path = some v) ∧
      (∀ path, snapshot (text "/w") (oneFile 8 4) path = none → recorded fc'.files path =
        recorded [⟨text "/w/f", 1, 7⟩, ⟨text "/w/g", 1, 5⟩] path) ∧
      Distinct fc'.files ∧
      ∃ code' notices', checkDirectoryModifications (watchedHost (oneFile 8 4)).fileSystem 2
          (text "/w") fc' alwaysSucceeds = .ok (code', fc', notices', alwaysSucceeds) ∧
        ∀ c ∈ notices', ∃ path, c = .deleted path :=
  check_result (one_file_scanned 8 4) (by decide) _
    (show [text "/w/f", text "/w/g"].Nodup by decide)

end ProgSistema.FileDaemon
