import ProgSistema.DirectoryServer.Exploration
import ProgSistema.Lib.LineChunks
import ProgSistema.Lib.PathResolution

/-!
# The listing is the pre-order of the descendant directories

The accumulating visit is compared with a recursive description of the tree:
one line for each proper descendant directory, parents first and subtrees
contiguous. Paths are built entry by entry and their closed form follows.
-/

set_option autoImplicit false

namespace ProgSistema.DirectoryServer
open CRuntime FileTree

def pathText (base : Bytes) (ns : List Name) : Bytes :=
  base++separator base++List.intercalate [slash] (ns.map Name.bytes)

def listing (base : Bytes) (t : DirTree) : Bytes :=
  (directories t).flatMap (fun ns => pathText base ns++text "\n")

theorem concat_paths_ok (paths : List Bytes) (size : ℕ) (done : Bytes)
    (h : done.length+(paths.map fun p => p.length+1).sum < size) :
    concatPaths paths ⟨size, done⟩ =
      .ok ⟨size, done++paths.flatMap (fun p => p++text "\n")⟩ := by
  induction paths generalizing done with
  | nil => simp [concatPaths]
  | cons p paths ih =>
    have hnl : (text "\n").length = 1 := by decide
    rw [List.map_cons, List.sum_cons] at h
    rw [concatPaths, strcat_fits _ _ _ (by omega)]
    simp only [ok_bind]
    rw [strcat_fits _ _ _ (by rw [List.length_append, hnl]; omega)]
    simp only [ok_bind]
    rw [ih _ (by simp only [List.length_append, hnl]; omega)]
    simp

theorem lines_length (paths : List Bytes) :
    (paths.flatMap fun p => p++text "\n").length = (paths.map fun p => p.length+1).sum := by
  have hline : ∀ p : Bytes, (p++text "\n").length = p.length+1 := by
    intro p
    rw [List.length_append]
    rfl
  simp only [List.length_flatMap, hline]

/-- The second pass writes exactly what the first pass has measured: one line for
each path, up to the terminator of the block. -/
theorem to_string_allocated (list : DirectoryList) (heap : Heap)
    (h : (allocate heap).1 = true) :
    directoryListToString list heap =
        .ok (some (list.paths.flatMap fun p => p++text "\n"), (allocate heap).2) ∧
      (list.paths.flatMap fun p => p++text "\n").length+1 = totalLength list ∧
      concatPaths list.paths ⟨totalLength list, []⟩ =
        .ok ⟨totalLength list, list.paths.flatMap fun p => p++text "\n"⟩ := by
  have hconcat := concat_paths_ok list.paths (totalLength list) [] (by simp [totalLength])
  refine ⟨?_, by rw [lines_length, totalLength], hconcat⟩
  unfold directoryListToString
  split
  · rename_i hempty
    simp only [List.length_eq_zero_iff.mp hempty, strdup, h, if_true]
    rfl
  · simp only [h, hconcat, ok_bind, Bool.not_true, Bool.false_eq_true, if_false]
    rfl

theorem to_string_heap (list : DirectoryList) (heap : Heap) :
    ∃ result heap', directoryListToString list heap = .ok (result, heap') ∧
      (result = none ∨ result = some (list.paths.flatMap fun p => p++text "\n")) ∧
      (heap = alwaysSucceeds → result ≠ none ∧ heap' = alwaysSucceeds) := by
  cases hallocate : (allocate heap).1 with
  | false =>
    refine ⟨none, (allocate heap).2, ?_, Or.inl rfl, ?_⟩
    · unfold directoryListToString strdup
      split
      · simp only [hallocate, Bool.false_eq_true, if_false]
      · simp only [hallocate, Bool.not_false, if_true]
        rfl
    · rintro rfl
      cases hallocate
  | true =>
    refine ⟨_, _, (to_string_allocated list heap hallocate).1, Or.inr rfl, ?_⟩
    rintro rfl
    exact ⟨by simp, rfl⟩

theorem to_string_ok (list : DirectoryList) :
    directoryListToString list alwaysSucceeds =
      .ok (some (list.paths.flatMap (fun p => p++text "\n")), alwaysSucceeds) := by
  obtain ⟨result, heap', hstring, hcases, halways⟩ := to_string_heap list alwaysSucceeds
  obtain ⟨hne, rfl⟩ := halways rfl
  rw [hstring, hcases.resolve_left hne]

theorem create_list_heap (heap : Heap) :
    (∃ heap', createDirectoryList heap = (none, heap') ∧ heap ≠ alwaysSucceeds) ∨
      ∃ heap', createDirectoryList heap = (some ⟨[], 10⟩, heap') ∧
        (heap = alwaysSucceeds → heap' = alwaysSucceeds) := by
  unfold createDirectoryList allocate
  cases h0 : heap 0 with
  | false =>
    refine Or.inl ⟨_, rfl, ?_⟩
    rintro rfl
    cases h0
  | true =>
    cases h1 : heap 1 with
    | false =>
      refine Or.inl ⟨_, by simp only [if_true, h1]; rfl, ?_⟩
      rintro rfl
      cases h1
    | true =>
      refine Or.inr ⟨_, by simp only [if_true, h1]; rfl, ?_⟩
      rintro rfl
      rfl

theorem entry_path_no_slash (p : Bytes) (n : Name) : ¬ EndsInSlash (p++n.bytes) := by
  intro h
  rw [EndsInSlash, List.getLast?_append_of_ne_nil _ n.nonempty] at h
  exact n.noSlash (List.mem_of_getLast? h)

theorem path_from_eq (p : Bytes) (n : Name) (ns : List Name) :
    pathFrom p (n::ns) = pathText p (n::ns) := by
  induction ns generalizing p n with
  | nil => simp [pathFrom, pathText, List.intercalate]
  | cons m ms ih =>
    rw [pathFrom, ih]
    have hsep : separator (p++separator p++n.bytes) = [slash] := by
      rw [separator, if_pos ⟨by simp [n.nonempty], entry_path_no_slash _ n⟩]
    rw [pathText, hsep, pathText, List.map_cons, List.map_cons, List.map_cons]
    simp [List.intercalate]

theorem path_text_injective (p : Bytes) (ns ms : List Name) (hn : ns ≠ []) (hm : ms ≠ [])
    (h : pathText p ns = pathText p ms) : ns = ms := by
  have hi := List.append_cancel_left h
  have hc := congrArg components hi
  rw [components_intercalate ns hn, components_intercalate ms hm] at hc
  exact name_injective.list_map hc

theorem mem_directories (t : DirTree) (ns : List Name) :
    ns ∈ directories t ↔ ns ≠ [] ∧ ∃ u, DirTree.Leads t ns u ∧ u.isDirectory = true := by
  rw [directories, List.mem_map]
  constructor
  · rintro ⟨⟨_, u⟩, hd, rfl⟩
    obtain ⟨hmem, hu⟩ := List.mem_filter.mp hd
    obtain ⟨hne, hl⟩ := (DirTree.mem_descendants t _ u).mp hmem
    exact ⟨hne, u, hl, hu⟩
  · rintro ⟨hne, u, hl, hu⟩
    exact ⟨(ns, u), List.mem_filter.mpr ⟨(DirTree.mem_descendants t ns u).mpr ⟨hne, hl⟩, hu⟩, rfl⟩

theorem directories_nodup {t : DirTree} (h : t.Distinct) : (directories t).Nodup :=
  (DirTree.descendants_nodup h).sublist (List.filter_sublist.map _)

/-- A directory is followed at once by all the directories below it. -/
theorem directories_contiguous {t u : DirTree} {ns : List Name} (hl : DirTree.Leads t ns u)
    (hne : ns ≠ []) (hu : u.isDirectory = true) :
    ∃ before after, directories t = before++(ns::(directories u).map (ns++·))++after := by
  induction hl with
  | here => exact absurd rfl hne
  | @step st h es n t u ms hmem hl ih =>
    obtain ⟨es₁, es₂, rfl⟩ := List.append_of_mem hmem
    let entries : List (Name × DirTree) → List (List Name) := fun es => es.flatMap (fun e =>
      if e.2.isDirectory then [e.1]::(directories e.2).map (e.1::·) else [])
    rw [directories_dir, List.flatMap_append, List.flatMap_cons]
    cases ms with
    | nil =>
      cases hl
      refine ⟨entries es₁, entries es₂, ?_⟩
      rw [if_pos hu, ← List.append_assoc]
      rfl
    | cons m ms =>
      obtain ⟨a, b, hab⟩ := ih (by simp) hu
      have ht : t.isDirectory = true := by
        cases hl
        rfl
      refine ⟨entries es₁++[n]::a.map (n::·), b.map (n::·)++entries es₂, ?_⟩
      rw [if_pos ht, hab]
      simp only [List.map_append, List.map_cons, List.map_map, List.append_assoc,
        List.cons_append]
      rfl

theorem path_from_text (base : Bytes) (t : DirTree) :
    (directories t).map (pathFrom base) = (directories t).map (pathText base) := by
  apply List.map_congr_left
  intro ns hns
  obtain ⟨n, ms, rfl⟩ := List.exists_cons_of_ne_nil ((mem_directories t ns).mp hns).1
  exact path_from_eq base n ms

theorem listing_paths (base : Bytes) (t : DirTree) :
    listing base t = ((directories t).map (pathFrom base)).flatMap fun p => p++text "\n" := by
  rw [path_from_text, List.flatMap_map]
  rfl

/-- A separator follows the request path, so that a text without separators
begins what follows exactly when it begins the request. -/
theorem path_starts_iff {s base p : Bytes} (hs : slash ∉ s) (hne : base ≠ [])
    (h : base++separator base <+: p) : s <+: p ↔ s <+: base := by
  obtain ⟨below, rfl⟩ := h
  by_cases hend : EndsInSlash base
  · obtain ⟨dir, rfl⟩ := List.getLast?_eq_some_iff.mp hend
    rw [separator, if_neg (by simp [hend]), List.append_nil, List.append_assoc]
    exact (LineChunks.prefix_before hs dir below).trans (LineChunks.prefix_before hs dir []).symm
  · rw [separator, if_pos ⟨hne, hend⟩, List.append_assoc]
    exact LineChunks.prefix_before hs base below

theorem get_directories_ok {fs : FileSystem} {base : Bytes} {t : DirTree}
    (h : Names fs.opendir fs.stat base t) (ht : t.isDirectory = true) (fuel : ℕ)
    (hfuel : t.height ≤ fuel) :
    getDirectoriesRecursive fs fuel base alwaysSucceeds =
      .ok (some (listing base t), alwaysSucceeds) := by
  have hready : Ready ⟨[], 10⟩ := ⟨by decide, by decide⟩
  obtain ⟨list, hexp, hpaths, -⟩ := explore_ok h ht fuel hfuel ⟨[], 10⟩ hready
  have hdir : isDirectory fs base = true := by rw [names_is_directory h, ht]
  rw [getDirectoriesRecursive, if_neg (by simp [hdir])]
  simp only [createDirectoryList, allocate_always, if_true, hexp, ok_bind, ne_eq,
    not_true_eq_false, if_false, to_string_ok, hpaths, List.nil_append, ← listing_paths]

/-- With every call succeeding, the text is one line for each proper
descendant directory: the paths are different, a directory comes before the
directories below it, and these follow it without a gap. -/
theorem directories_listed (fs : FileSystem) (base : Bytes) (t : DirTree)
    (h : Names fs.opendir fs.stat base t) (ht : t.isDirectory = true) (hd : t.Distinct)
    (fuel : ℕ) (hfuel : t.height ≤ fuel) :
    getDirectoriesRecursive fs fuel base alwaysSucceeds =
        .ok (some ((directories t).flatMap (fun ns => pathText base ns++text "\n")),
          alwaysSucceeds) ∧
      ((directories t).map (pathText base)).Nodup ∧
      (∀ ns, ns ∈ directories t ↔ ns ≠ [] ∧ ∃ u, DirTree.Leads t ns u ∧ u.isDirectory = true) ∧
      directories t = t.entries.flatMap (fun e =>
        if e.2.isDirectory then [e.1]::(directories e.2).map (e.1::·) else []) ∧
      ∀ ns u, ns ≠ [] → DirTree.Leads t ns u → u.isDirectory = true → ∃ before after,
        directories t = before++(ns::(directories u).map (ns++·))++after := by
  refine ⟨get_directories_ok h ht fuel hfuel, ?_, mem_directories t, ?_, ?_⟩
  · refine List.Nodup.map_on ?_ (directories_nodup hd)
    intro ns hns ms hms heq
    exact path_text_injective base ns ms ((mem_directories t ns).mp hns).1
      ((mem_directories t ms).mp hms).1 heq
  · cases t with
    | leaf => cases ht
    | dir st hst es => exact directories_dir st hst es
  · intro ns u hne hl hu
    exact directories_contiguous hl hne hu

def nameA : Name := ⟨text "a", by decide, by decide, by decide, by decide, by decide⟩
def nameB : Name := ⟨text "b", by decide, by decide, by decide, by decide, by decide⟩
def dirStat : Stat := ⟨.directory, 1, 4096, 2, 0⟩

def emptyDir : DirTree := .dir dirStat rfl []

def innerDir : DirTree := .dir dirStat rfl [(nameB, emptyDir)]

def sampleTree : DirTree := .dir dirStat rfl [(nameA, innerDir)]

def sampleHost : Host := ⟨sampleTree, [sampleTree]⟩

theorem sample_distinct : sampleTree.Distinct := by
  have hb : emptyDir.Distinct := .dir _ _ _ List.nodup_nil (by simp)
  refine .dir _ _ _ (List.nodup_singleton _) (fun e he => ?_)
  rw [List.mem_singleton.mp he]
  refine .dir _ _ _ (List.nodup_singleton _) (fun e he => ?_)
  rw [List.mem_singleton.mp he]
  exact hb

theorem sample_listed : getDirectoriesRecursive sampleHost.fileSystem 3 (text "/") alwaysSucceeds =
    .ok (some (text "/a\n/a/b\n"), alwaysSucceeds) := by
  have h := directories_listed sampleHost.fileSystem (text "/") sampleTree
    (sampleHost.lookup_names sample_distinct _ [] (by rfl)) rfl sample_distinct 3 (by decide)
  have htext : (directories sampleTree).flatMap (fun ns => pathText (text "/") ns++text "\n") =
      text "/a\n/a/b\n" := by decide
  rw [h.1, htext]

end ProgSistema.DirectoryServer
