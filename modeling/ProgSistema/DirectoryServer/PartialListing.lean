import ProgSistema.DirectoryServer.Listing

/-!
# The exploration when system calls fail

A directory that cannot be opened, and memory that cannot be allocated, make
the exploration fail as a whole. A `stat` that fails looks like an entry that is
not a directory, and a `readdir` that fails like the end of its directory: the
listing then lacks the directories behind them.
-/

set_option autoImplicit false

namespace ProgSistema.DirectoryServer
open CRuntime FileTree

def IsError (result : Option Bytes) : Prop :=
  result = none ∨ result = some (text "ERRORE: Path specificato non è una directory\n") ∨
    result = some (text "ERRORE: Impossibile esplorare directory\n")

theorem strdup_is_error {message : Bytes} (heap : Heap)
    (h : IsError (some message)) : IsError (strdup message heap).1 := by
  unfold strdup
  dsimp only
  split
  · exact h
  · exact Or.inl rfl

/-- A listing cannot be taken for an error: there are separators in its paths. -/
theorem listing_not_error {paths : List Bytes} (h : ∀ p ∈ paths, slash ∈ p) :
    ¬ IsError (some (paths.flatMap fun p => p++text "\n")) := by
  have hneither : ∀ message : Bytes, message ≠ [] → slash ∉ message →
      paths.flatMap (fun p => p++text "\n") ≠ message := by
    rintro message hne hclean rfl
    cases paths with
    | nil => exact hne rfl
    | cons p paths =>
      apply hclean
      rw [List.flatMap_cons, List.append_assoc]
      exact List.mem_append_left _ (h p (by simp))
  rintro (hnone | hbase | hexplore)
  · cases hnone
  · exact hneither _ (by decide) (by decide) (Option.some.inj hbase)
  · exact hneither _ (by decide) (by decide) (Option.some.inj hexplore)

theorem flat_map_eq_of_sublist {α β : Type*} {a b : List α} {g : α → List β} (h : a.Sublist b)
    (hne : ∀ x ∈ b, g x ≠ []) (heq : a.flatMap g = b.flatMap g) : a = b := by
  induction h with
  | slnil => rfl
  | @cons a b x hab ih =>
    exfalso
    have hlen := congrArg List.length heq
    have hle := (hab.flatMap g).length_le
    have hpos := List.length_pos_iff.mpr (hne x (by simp))
    rw [List.flatMap_cons, List.length_append] at hlen
    omega
  | @cons_cons a b x hab ih =>
    rw [List.flatMap_cons, List.flatMap_cons, List.append_cancel_left_eq] at heq
    rw [ih (fun y hy => hne y (by simp [hy])) heq]

theorem get_directories_faulty {f : Faults} {fs : FileSystem} {base : Bytes} {t : DirTree}
    (h : Names fs.opendir fs.stat base t) (ht : t.isDirectory = true) (fuel : ℕ)
    (hfuel : t.height ≤ fuel) (hstat : f.stat base = false) (heap : Heap) :
    ∃ result heap', getDirectoriesRecursive (f.apply fs) fuel base heap = .ok (result, heap') ∧
      (IsError result ∨ ¬ Blocked f fs base t ∧
        ∃ paths, paths.Sublist ((directories t).map (pathFrom base)) ∧
          (paths = (directories t).map (pathFrom base) ↔ Unhidden f fs base t) ∧
          result = some (paths.flatMap fun p => p++text "\n")) ∧
      (heap = alwaysSucceeds → ¬ Blocked f fs base t →
        ∃ paths : List Bytes, result = some (paths.flatMap fun p => p++text "\n") ∧
          paths.Sublist ((directories t).map (pathFrom base)) ∧
          (paths = (directories t).map (pathFrom base) ↔ Unhidden f fs base t)) := by
  have hdir : isDirectory (f.apply fs) base = true := by
    have hbase := names_is_directory h
    rw [ht] at hbase
    rw [← hbase]
    unfold isDirectory Faults.apply
    simp [hstat]
  unfold getDirectoriesRecursive
  rw [if_neg (not_not.mpr hdir)]
  rcases create_list_heap heap with ⟨heap₁, hcreate, hne⟩ | ⟨heap₁, hcreate, halways₁⟩
  · rw [hcreate]
    exact ⟨none, heap₁, rfl, Or.inl (Or.inl rfl), fun halways => absurd halways hne⟩
  · rw [hcreate]
    obtain ⟨code, list, heap₂, hexplore, hzero, halways₂⟩ :=
      explore_returns (f := f) h ht fuel hfuel ⟨[], 10⟩ heap₁ ⟨by decide, by decide⟩
    dsimp only
    rw [hexplore]
    simp only [ok_bind]
    by_cases hcode : code = 0
    · rw [if_neg (not_not.mpr hcode)]
      obtain ⟨hfree, paths, hext, hsub, hfull⟩ := hzero hcode
      have hpaths : list.paths = paths := hext.1
      obtain ⟨result, heap₃, hstring, htext, halways₃⟩ := to_string_heap list heap₂
      rw [hpaths] at htext
      refine ⟨result, heap₃, hstring, ?_, ?_⟩
      · rcases htext with hnone | hsome
        · exact Or.inl (Or.inl hnone)
        · exact Or.inr ⟨hfree, paths, hsub, hfull, hsome⟩
      · rintro halways -
        have hheap := (halways₂ (halways₁ halways) hfree).2
        exact ⟨paths, htext.resolve_left (halways₃ hheap).1, hsub, hfull⟩
    · rw [if_pos hcode]
      refine ⟨_, _, rfl, Or.inl (strdup_is_error heap₂ (Or.inr (Or.inr rfl))), ?_⟩
      intro halways hfree
      exact absurd (halways₂ (halways₁ halways) hfree).1 hcode

theorem slash_in_paths {base : Bytes} {t : DirTree} (hne : base ≠ []) :
    ∀ p ∈ (directories t).map (pathFrom base), slash ∈ p := by
  rw [path_from_text]
  intro p hp
  obtain ⟨ns, -, rfl⟩ := List.mem_map.mp hp
  rw [pathText]
  apply List.mem_append_left
  by_cases hend : EndsInSlash base
  · exact List.mem_append_left _ (List.mem_of_getLast? hend)
  · rw [separator, if_pos ⟨hne, hend⟩]
    exact List.mem_append_right _ List.mem_cons_self

/-- The result is always an error or the complete listing, whatever becomes of
the allocations, exactly where the request itself fails, or some directory that
the exploration comes to cannot be opened, or no directory is hidden. -/
theorem complete_or_error (fs : FileSystem) (base : Bytes) (t : DirTree)
    (h : Names fs.opendir fs.stat base t) (ht : t.isDirectory = true) (fuel : ℕ)
    (hfuel : t.height ≤ fuel) (f : Faults) :
    (∀ heap, ∃ result heap',
      getDirectoriesRecursive (f.apply fs) fuel base heap = .ok (result, heap') ∧
        (IsError result ∨ result = some (listing base t))) ↔
      f.stat base = true ∨ Blocked f fs base t ∨ Unhidden f fs base t := by
  have hne : base ≠ [] := by
    cases h with
    | leaf => cases ht
    | dir _ hne _ _ _ _ _ => exact hne
  constructor
  · intro hall
    cases hstat : f.stat base with
    | true => exact Or.inl rfl
    | false =>
      right
      by_contra hboth
      obtain ⟨hfree, hhidden⟩ := not_or.mp hboth
      obtain ⟨result, heap', hget, hcases⟩ := hall alwaysSucceeds
      obtain ⟨result', heap₁, hget', hpartial, halways⟩ :=
        get_directories_faulty h ht fuel hfuel hstat alwaysSucceeds
      rw [hget] at hget'
      cases hget'
      obtain ⟨paths, hresult, hsub, hfull⟩ := halways rfl hfree
      have hslash : ∀ p ∈ paths, slash ∈ p := fun p hp => slash_in_paths hne p (hsub.subset hp)
      rcases hcases with herror | hlisting
      · rw [hresult] at herror
        exact listing_not_error hslash herror
      · rw [hresult, listing_paths] at hlisting
        refine hhidden (hfull.mp (flat_map_eq_of_sublist hsub ?_ (Option.some.inj hlisting)))
        intro p _
        exact List.append_ne_nil_of_right_ne_nil _ (by decide)
  · intro hcond heap
    cases hstat : f.stat base with
    | true =>
      have hdir : isDirectory (f.apply fs) base = false := by
        unfold isDirectory Faults.apply
        simp [hstat]
      refine ⟨_, (strdup (text "ERRORE: Path specificato non è una directory\n") heap).2, ?_,
        Or.inl (strdup_is_error heap (Or.inr (Or.inl rfl)))⟩
      unfold getDirectoriesRecursive
      rw [hdir, if_pos Bool.false_ne_true]
    | false =>
      rw [hstat] at hcond
      obtain ⟨result, heap', hget, hcases, -⟩ := get_directories_faulty h ht fuel hfuel hstat heap
      refine ⟨result, heap', hget, ?_⟩
      rcases hcases with herror | ⟨hfree, paths, -, hfull, hresult⟩
      · exact Or.inl herror
      · have hall := hfull.mpr ((hcond.resolve_left Bool.false_ne_true).resolve_left hfree)
        rw [hresult, hall, ← listing_paths]
        exact Or.inr rfl

def unopened : Faults where
  opendir p := p = text "/a"
  stat _ := false
  readdir _ := none

theorem unopened_error : ∃ result heap',
    getDirectoriesRecursive (unopened.apply sampleHost.fileSystem) 3 (text "/") alwaysSucceeds =
      .ok (result, heap') ∧ (IsError result ∨ result = some (listing (text "/") sampleTree)) := by
  have hnames := sampleHost.lookup_names sample_distinct (text "/") [] rfl
  refine (complete_or_error _ (text "/") sampleTree hnames rfl 3 (by decide) unopened).mpr ?_
    alwaysSucceeds
  have hread : (nameA, innerDir) ∈
      [(nameA, innerDir)].take (unopened.seen sampleHost.fileSystem (text "/")) :=
    List.mem_cons_self
  exact Or.inr (Or.inl (.inside hread ⟨rfl, rfl⟩ (.here rfl)))

def unseen : Faults where
  opendir _ := false
  stat p := p = text "/a/b"
  readdir _ := none

/-- The directory is then missing from a listing that is not an error. -/
theorem unseen_missing :
    (getDirectoriesRecursive (unseen.apply sampleHost.fileSystem) 3 (text "/")
        alwaysSucceeds).toOption.map Prod.fst = some (some (text "/a\n")) ∧
      ¬ IsError (some (text "/a\n")) ∧ listing (text "/") sampleTree = text "/a\n/a/b\n" := by
  refine ⟨by decide +kernel, by unfold IsError; decide, by decide⟩

end ProgSistema.DirectoryServer
