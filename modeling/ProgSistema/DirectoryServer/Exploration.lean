import ProgSistema.DirectoryServer.Model
import ProgSistema.Lib.FileFaults

/-!
# The visit of a tree

The exploration adds the directories of a tree to a list in pre-order. Calls may
fail on the way: a directory that cannot be opened, and memory that cannot be
allocated, end the exploration, while a `stat` that fails looks like an entry
that is not a directory and a `readdir` that fails like the end of its
directory. The list then lacks the directories behind them.
-/

set_option autoImplicit false

namespace ProgSistema.DirectoryServer
open CRuntime FileTree

def separator (p : Bytes) : Bytes := if p ≠ [] ∧ ¬ EndsInSlash p then [slash] else []

def directories (t : DirTree) : List (List Name) :=
  (t.descendants.filter (fun d => d.2.isDirectory)).map Prod.fst

/-- The block is as long as the path that is built in it. -/
theorem build_path_heap (dir name : Bytes) (heap : Heap) :
    buildPath dir name heap =
      .ok (if heap 0 then some (dir++separator dir++name) else none, fun n => heap (n+1)) := by
  have hcopy : strcpy ⟨dir.length+name.length+2, []⟩ dir =
      .ok ⟨dir.length+name.length+2, dir⟩ := by
    show strcat ⟨dir.length+name.length+2, []⟩ dir = _
    rw [strcat_fits _ _ _ (by rw [List.length_nil]; omega)]
    rfl
  unfold buildPath allocate
  cases heap 0 with
  | false => rfl
  | true =>
    simp only [separator, Bool.not_true, Bool.false_eq_true, if_false, if_true, hcopy, ok_bind]
    split
    · rw [strcat_fits _ _ _ (by rw [List.length_singleton]; omega)]
      simp only [ok_bind]
      rw [strcat_fits _ _ _ (by rw [List.length_append, List.length_singleton]; omega)]
      rfl
    · simp only [ok_bind, List.append_nil]
      rw [strcat_fits _ _ _ (by omega)]
      rfl

def Ready (list : DirectoryList) : Prop := list.count ≤ list.capacity ∧ 0 < list.capacity

def Extends (list : DirectoryList) (paths : List Bytes) (list' : DirectoryList) : Prop :=
  list'.paths = list.paths++paths ∧ Ready list'

theorem extends_append {list list' list'' : DirectoryList} {ps qs : List Bytes}
    (h : Extends list ps list') (h' : Extends list' qs list'') : Extends list (ps++qs) list'' :=
  ⟨by rw [h'.1, h.1, List.append_assoc], h'.2⟩

/-- A list with room for one more path is left or made, or the old one kept for
lack of memory. -/
theorem grow_list_heap (list : DirectoryList) (heap : Heap) (h : Ready list) :
    (∃ heap', growList list heap = (none, heap') ∧ heap ≠ alwaysSucceeds) ∨
      ∃ capacity heap', growList list heap = (some ⟨list.paths, capacity⟩, heap') ∧
        (capacity = list.capacity ∨ capacity = list.capacity*2) ∧ list.count < capacity ∧
        (heap = alwaysSucceeds → heap' = alwaysSucceeds) := by
  obtain ⟨hle, hpos⟩ := h
  unfold growList allocate
  by_cases hfull : list.count ≥ list.capacity
  · rw [if_pos hfull]
    cases h0 : heap 0 with
    | false =>
      refine Or.inl ⟨_, rfl, ?_⟩
      rintro rfl
      cases h0
    | true =>
      refine Or.inr ⟨list.capacity*2, _, rfl, Or.inr rfl, by omega, ?_⟩
      rintro rfl
      rfl
  · rw [if_neg hfull]
    exact Or.inr ⟨list.capacity, heap, rfl, Or.inl rfl, by omega, fun halways => halways⟩

/-- A path is added to a list with room or given up for lack of memory, perhaps
after the list has grown. -/
theorem add_path_cases (list : DirectoryList) (path : Bytes) (heap : Heap) (h : Ready list) :
    ∃ code list' heap', addPathToList list path heap = .ok (code, list', heap') ∧
      (code = 0 ∧ list'.paths = list.paths++[path] ∨ code = -1 ∧ list'.paths = list.paths) ∧
      (list'.capacity = list.capacity ∨ list'.capacity = list.capacity*2) ∧ Ready list' ∧
      (heap = alwaysSucceeds → code = 0 ∧ heap' = alwaysSucceeds) := by
  unfold addPathToList
  rcases grow_list_heap list heap h with ⟨heap₁, hgrow, hne⟩ |
    ⟨capacity, heap₁, hgrow, hcap, hroom, halways⟩
  · rw [hgrow]
    exact ⟨-1, list, heap₁, rfl, Or.inr ⟨rfl, rfl⟩, Or.inl rfl, h, fun hheap => absurd hheap hne⟩
  · have hroom' : list.paths.length < capacity := hroom
    rw [hgrow]
    dsimp only
    rw [if_pos (show DirectoryList.count ⟨list.paths, capacity⟩ < capacity from hroom), allocate]
    cases h0 : heap₁ 0 with
    | false =>
      refine ⟨-1, _, _, rfl, Or.inr ⟨rfl, rfl⟩, hcap, ⟨hroom.le, by dsimp only; omega⟩, ?_⟩
      intro hheap
      rw [halways hheap] at h0
      cases h0
    | true =>
      refine ⟨0, _, _, rfl, Or.inl ⟨rfl, rfl⟩, hcap, ⟨?_, by dsimp only; omega⟩, ?_⟩
      · rw [DirectoryList.count, List.length_append, List.length_singleton]
        exact hroom'
      · intro hheap
        rw [halways hheap]
        exact ⟨rfl, rfl⟩

theorem add_path_heap (list : DirectoryList) (path : Bytes) (heap : Heap) (h : Ready list) :
    ∃ code list' heap', addPathToList list path heap = .ok (code, list', heap') ∧
      (code = 0 ∧ Extends list [path] list' ∨ code = -1 ∧ list'.paths = list.paths) ∧
      (heap = alwaysSucceeds → code = 0 ∧ heap' = alwaysSucceeds) := by
  obtain ⟨code, list', heap', hadd, hcases, -, hready, halways⟩ := add_path_cases list path heap h
  refine ⟨code, list', heap', hadd, ?_, halways⟩
  rcases hcases with ⟨hcode, hpaths⟩ | hfailed
  · exact Or.inl ⟨hcode, hpaths, hready⟩
  · exact Or.inr hfailed

theorem names_is_directory {fs : FileSystem} {p : Bytes} {t : DirTree}
    (h : Names fs.opendir fs.stat p t) : isDirectory fs p = t.isDirectory := by
  cases h with
  | @leaf _ st hst h =>
    rw [isDirectory, h]
    cases st with
    | none => rfl
    | some s => simpa [DirTree.isDirectory] using hst s rfl
  | @dir _ st hst es stream hne h => simp [isDirectory, h, DirTree.isDirectory, hst]

/-- The path built for an entry of a named directory names the entry. -/
theorem names_entry {fs : FileSystem} {p : Bytes} {st : Stat} {hst}
    {es : List (Name × DirTree)} (h : Names fs.opendir fs.stat p (.dir st hst es))
    {e : Name × DirTree} (he : e ∈ es) :
    Names fs.opendir fs.stat (p++separator p++e.1.bytes) e.2 := by
  cases h with
  | dir stream hne _ _ _ hjoin hdirect =>
    unfold separator
    by_cases hs : EndsInSlash p
    · rw [if_neg (by simp [hs]), List.append_nil]
      exact hdirect hs e he
    · rw [if_pos ⟨hne, hs⟩, List.append_assoc]
      exact hjoin e he

def entryPaths (p : Bytes) (paths : Bytes → DirTree → List Bytes) (e : Name × DirTree) : List Bytes :=
  if e.2.isDirectory then (p++separator p++e.1.bytes)::paths (p++separator p++e.1.bytes) e.2
  else []

def pathFrom : Bytes → List Name → Bytes
  | p, [] => p
  | p, n::ns => pathFrom (p++separator p++n.bytes) ns

theorem directories_leaf {t : DirTree} (h : t.isDirectory = false) : directories t = [] := by
  cases t with
  | leaf => rfl
  | dir => cases h

theorem directories_dir (st : Stat) (h) (es : List (Name × DirTree)) :
    directories (.dir st h es) = es.flatMap (fun e =>
      if e.2.isDirectory then [e.1]::(directories e.2).map (e.1::·) else []) := by
  rw [directories, DirTree.descendants]
  induction es with
  | nil => rfl
  | cons e es ih =>
    obtain ⟨n, t⟩ := e
    rw [List.flatMap_cons, ← ih, DirTree.descendantsOf, List.filter_append, List.map_append]
    congr 1
    by_cases ht : t.isDirectory = true
    · rw [if_pos ht, List.filter_cons, if_pos ht, List.filter_map, List.map_cons, List.map_map,
        directories, List.map_map]
      rfl
    · have hnil : directories t = [] := directories_leaf (by simpa using ht)
      have hfil : t.descendants.filter (fun d => d.2.isDirectory) = [] :=
        List.map_eq_nil_iff.mp hnil
      rw [if_neg ht, List.filter_cons, if_neg ht, List.filter_map]
      show List.map _ (List.map _ (t.descendants.filter (fun d => d.2.isDirectory))) = []
      rw [hfil]
      rfl

theorem directory_paths (p : Bytes) (st : Stat) (h) (es : List (Name × DirTree)) :
    (directories (.dir st h es)).map (pathFrom p) =
      es.flatMap (entryPaths p (fun q t => (directories t).map (pathFrom q))) := by
  rw [directories_dir, List.map_flatMap]
  congr 1
  funext e
  unfold entryPaths
  split
  · rw [List.map_cons, List.map_map]
    rfl
  · rfl

def entryPath (p : Bytes) (e : Name × DirTree) : Bytes := p++separator p++e.1.bytes

section
variable (f : Faults) (fs : FileSystem)

def Visible (p : Bytes) (e : Name × DirTree) : Prop :=
  e.2.isDirectory = true ∧ f.stat (entryPath p e) = false

/-- The exploration comes to a directory that cannot be opened. -/
inductive Blocked : Bytes → DirTree → Prop where
  | here {p : Bytes} {st : Stat} {h} {es : List (Name × DirTree)} :
      f.opendir p = true → Blocked p (.dir st h es)
  | inside {p : Bytes} {st : Stat} {h} {es : List (Name × DirTree)} {e : Name × DirTree} :
      e ∈ es.take (f.seen fs p) → Visible f p e → Blocked (entryPath p e) e.2 →
      Blocked p (.dir st h es)

/-- No directory of the tree is behind a failed `stat` or `readdir`. -/
inductive Unhidden : Bytes → DirTree → Prop where
  | dir {p : Bytes} {st : Stat} {h} {es : List (Name × DirTree)} :
      (∀ e ∈ es.drop (f.seen fs p), e.2.isDirectory = false) →
      (∀ e ∈ es.take (f.seen fs p), e.2.isDirectory = true → f.stat (entryPath p e) = false) →
      (∀ e ∈ es.take (f.seen fs p), e.2.isDirectory = true → Unhidden (entryPath p e) e.2) →
      Unhidden p (.dir st h es)

end

def Returns (full : List Bytes) (blocked complete : Prop) (list : DirectoryList) (heap : Heap)
    (result : Except Fault (ℤ × DirectoryList × Heap)) : Prop :=
  ∃ code list' heap', result = .ok (code, list', heap') ∧
    (code = 0 → ¬ blocked ∧ ∃ paths, Extends list paths list' ∧ paths.Sublist full ∧
      (paths = full ↔ complete)) ∧
    (heap = alwaysSucceeds → ¬ blocked → code = 0 ∧ heap' = alwaysSucceeds)

theorem sublists_append {α : Type*} {a b x y : List α} (ha : a.Sublist x) (hb : b.Sublist y) :
    a++b = x++y ↔ a = x ∧ b = y := by
  constructor
  · intro h
    have hlen := congrArg List.length h
    have hax := ha.length_le
    have hby := hb.length_le
    rw [List.length_append, List.length_append] at hlen
    exact ⟨ha.eq_of_length (by omega), hb.eq_of_length (by omega)⟩
  · rintro ⟨rfl, rfl⟩
    rfl

section
variable {f : Faults} {fs : FileSystem}

def entryListing (p : Bytes) (e : Name × DirTree) : List Bytes :=
  entryPaths p (fun q t => (directories t).map (pathFrom q)) e

/-- Giving up is right where something fails. -/
theorem returns_failed {full : List Bytes} {blocked complete : Prop} {list list' : DirectoryList}
    {heap heap' : Heap} (h : heap = alwaysSucceeds → blocked) :
    Returns full blocked complete list heap (.ok (-1, list', heap')) :=
  ⟨-1, list', heap', rfl, fun hzero => by simp at hzero,
    fun hheap hfree => absurd (h hheap) hfree⟩

theorem returns_congr {full : List Bytes} {blocked blocked' complete complete' : Prop}
    {list : DirectoryList} {heap : Heap} {result : Except Fault (ℤ × DirectoryList × Heap)}
    (hb : blocked ↔ blocked') (hc : complete ↔ complete')
    (h : Returns full blocked complete list heap result) :
    Returns full blocked' complete' list heap result := by
  rw [← propext hb, ← propext hc]
  exact h

/-- An entry that is not found to be a directory adds nothing. -/
theorem returns_skipped {p : Bytes} {e : Name × DirTree} {es : List (Name × DirTree)}
    {blocked complete : Prop} {list : DirectoryList} {heap : Heap}
    {result : Except Fault (ℤ × DirectoryList × Heap)}
    (h : Returns (es.flatMap (entryListing p)) blocked complete list (fun n => heap (n+1)) result) :
    Returns ((e::es).flatMap (entryListing p)) blocked (e.2.isDirectory = false ∧ complete) list heap
      result := by
  obtain ⟨code, list', heap', rfl, hzero, halways⟩ := h
  refine ⟨code, list', heap', rfl, fun hcode => ?_, ?_⟩
  · obtain ⟨hfree, paths, hext, hsub, hfull⟩ := hzero hcode
    refine ⟨hfree, paths, hext, ?_, ?_⟩
    · rw [List.flatMap_cons]
      exact hsub.trans (List.sublist_append_right _ _)
    · rw [List.flatMap_cons, ← hfull, entryListing, entryPaths]
      have happend := sublists_append (List.nil_sublist (entryListing p e)) hsub
      rw [List.nil_append, entryListing, entryPaths] at happend
      rw [happend]
      refine and_congr_left fun _ => ?_
      cases hd : e.2.isDirectory <;> simp
  · rintro rfl
    exact halways rfl

/-- A directory adds its own path and what the visit of it adds. -/
theorem returns_visited {p : Bytes} {e : Name × DirTree} {es : List (Name × DirTree)}
    {blocked complete inside unhidden : Prop} {list l₁ l₂ : DirectoryList} {heap heap₂ : Heap}
    {paths : List Bytes} {result : Except Fault (ℤ × DirectoryList × Heap)}
    (hd : e.2.isDirectory = true) (h₁ : Extends list [entryPath p e] l₁)
    (hinside : ¬ inside) (h₂ : Extends l₁ paths l₂)
    (hsub₂ : paths.Sublist ((directories e.2).map (pathFrom (entryPath p e))))
    (hfull₂ : paths = (directories e.2).map (pathFrom (entryPath p e)) ↔ unhidden)
    (halways₂ : heap = alwaysSucceeds → heap₂ = alwaysSucceeds)
    (h : Returns (es.flatMap (entryListing p)) blocked complete l₂ heap₂ result) :
    Returns ((e::es).flatMap (entryListing p)) (inside ∨ blocked) (unhidden ∧ complete) list heap
      result := by
  obtain ⟨code, list', heap', rfl, hzero, halways⟩ := h
  refine ⟨code, list', heap', rfl, fun hcode => ?_, fun hheap hfree => ?_⟩
  · obtain ⟨hfree, rest, hext, hsub, hfull⟩ := hzero hcode
    have hentry : entryListing p e =
        [entryPath p e]++(directories e.2).map (pathFrom (entryPath p e)) := by
      rw [entryListing, entryPaths, if_pos hd]
      rfl
    have hsub' : ([entryPath p e]++paths).Sublist (entryListing p e) := by
      rw [hentry]
      exact hsub₂.append_left _
    refine ⟨not_or.mpr ⟨hinside, hfree⟩, [entryPath p e]++paths++rest,
      extends_append (extends_append h₁ h₂) hext, ?_, ?_⟩
    · rw [List.flatMap_cons]
      exact hsub'.append hsub
    · rw [List.flatMap_cons, sublists_append hsub' hsub, hfull, hentry,
        List.append_right_inj, hfull₂]
  · exact halways (halways₂ hheap) fun hblocked => hfree (Or.inr hblocked)

/-- The loop over the entries that are read of a directory. -/
theorem read_entries_returns (explore : Bytes → DirectoryList → Heap →
      Except Fault (ℤ × DirectoryList × Heap)) (p : Bytes) (stream : List Bytes)
    (es : List (Name × DirTree))
    (hstream : stream.filter (fun d => d ≠ dot ∧ d ≠ dotdot) = es.map fun e => e.1.bytes)
    (hdir : ∀ e ∈ es, isDirectory (f.apply fs) (entryPath p e) = true ↔ Visible f p e)
    (hexp : ∀ e ∈ es, Visible f p e → ∀ list heap, Ready list →
      Returns ((directories e.2).map (pathFrom (entryPath p e))) (Blocked f fs (entryPath p e) e.2)
        (Unhidden f fs (entryPath p e) e.2) list heap (explore (entryPath p e) list heap))
    (list : DirectoryList) (heap : Heap) (hlist : Ready list) :
    Returns (es.flatMap (entryListing p)) (∃ e ∈ es, Visible f p e ∧ Blocked f fs (entryPath p e) e.2)
      (∀ e ∈ es, e.2.isDirectory = true →
        f.stat (entryPath p e) = false ∧ Unhidden f fs (entryPath p e) e.2) list heap
      (readEntries (f.apply fs) explore p stream list heap) := by
  induction stream generalizing es list heap with
  | nil =>
    have hes : es = [] := List.map_eq_nil_iff.mp hstream.symm
    subst hes
    refine ⟨0, list, heap, rfl, fun _ => ⟨by simp, [], ⟨?_, hlist⟩, by simp, by simp⟩,
      fun halways _ => ⟨rfl, halways⟩⟩
    exact (List.append_nil _).symm
  | cons name stream ih =>
    rcases stream_cons hstream with ⟨hdot, hstream⟩ | ⟨hdot, e, es, rfl, rfl, htail⟩
    · rw [readEntries, if_pos hdot]
      exact ih es hstream hdir hexp list heap hlist
    · have hrest := ih es htail (fun d hd => hdir d (by simp [hd]))
        (fun d hd => hexp d (by simp [hd]))
      rw [readEntries, if_neg hdot, build_path_heap]
      rw [show p++separator p++e.1.bytes = entryPath p e from rfl]
      simp only [ok_bind]
      cases h0 : heap 0 with
      | false =>
        apply returns_failed
        rintro rfl
        cases h0
      | true =>
        simp only [if_true]
        by_cases hv : Visible f p e
        · rw [if_pos ((hdir e (by simp)).mpr hv)]
          obtain ⟨code, l₁, heap₁, hadd, hcases, halways₁⟩ :=
            add_path_heap list (entryPath p e) (fun n => heap (n+1)) hlist
          rw [hadd]
          simp only [ok_bind]
          rcases hcases with ⟨rfl, h₁⟩ | ⟨rfl, -⟩
          · simp only [ne_eq, not_true_eq_false, if_false]
            obtain ⟨code, l₂, heap₂, hexplore, hzero, halways₂⟩ := hexp e (by simp) hv l₁ heap₁ h₁.2
            rw [hexplore]
            simp only [ok_bind]
            by_cases hcode : code = 0
            · subst hcode
              obtain ⟨hfree, paths, h₂, hsub, hfull⟩ := hzero rfl
              rw [if_neg (not_not.mpr rfl)]
              refine returns_congr ?_ ?_ (returns_visited hv.1 h₁ hfree h₂ hsub hfull ?_
                (hrest l₂ heap₂ h₂.2))
              · simp [hv]
              · simp [hv.1, hv.2]
              · rintro rfl
                exact (halways₂ (halways₁ rfl).2 hfree).2
            · rw [if_pos hcode]
              apply returns_failed
              rintro rfl
              by_contra hfree
              refine hcode (halways₂ (halways₁ rfl).2 fun hblocked => hfree ?_).1
              exact ⟨e, by simp, hv, hblocked⟩
          · apply returns_failed
            rintro rfl
            exact absurd (halways₁ rfl).1 (by decide)
        · rw [if_neg (fun hyes => hv ((hdir e (by simp)).mp hyes))]
          refine returns_congr ?_ ?_ (returns_skipped (hrest list _ hlist))
          · simp [hv]
          · rw [List.forall_mem_cons]
            refine and_congr_left fun _ => ?_
            cases hd : e.2.isDirectory with
            | false => simp
            | true =>
              have hstat : f.stat (entryPath p e) ≠ false := fun hstat => hv ⟨hd, hstat⟩
              simp [hstat]

theorem visible_iff {p : Bytes} {st : Stat} {hst} {es : List (Name × DirTree)}
    (h : Names fs.opendir fs.stat p (.dir st hst es)) {e : Name × DirTree} (he : e ∈ es) :
    isDirectory (f.apply fs) (entryPath p e) = true ↔ Visible f p e := by
  have hdir := names_is_directory (names_entry h he)
  have hentry : isDirectory fs (entryPath p e) = e.2.isDirectory := hdir
  unfold Visible
  rw [← hentry]
  unfold isDirectory Faults.apply
  cases hstat : f.stat (entryPath p e) <;> simp [hstat]

/-- The entries that are not read are missed. -/
theorem returns_cut {a b : List Bytes} {blocked complete : Prop} {list : DirectoryList} {heap : Heap}
    {result : Except Fault (ℤ × DirectoryList × Heap)}
    (h : Returns a blocked complete list heap result) :
    Returns (a++b) blocked (b = [] ∧ complete) list heap result := by
  obtain ⟨code, list', heap', rfl, hzero, halways⟩ := h
  refine ⟨code, list', heap', rfl, fun hcode => ?_, halways⟩
  obtain ⟨hfree, paths, hext, hsub, hfull⟩ := hzero hcode
  refine ⟨hfree, paths, hext, hsub.trans (List.sublist_append_left _ _), ?_⟩
  have happend := sublists_append hsub (List.nil_sublist b)
  rw [List.append_nil] at happend
  rw [happend, hfull, and_comm, eq_comm]

theorem entry_listing_nil {p : Bytes} {es : List (Name × DirTree)} :
    es.flatMap (entryListing p) = [] ↔ ∀ e ∈ es, e.2.isDirectory = false := by
  rw [List.flatMap_eq_nil_iff]
  refine forall₂_congr fun e _ => ?_
  unfold entryListing entryPaths
  cases e.2.isDirectory <;> simp

theorem blocked_dir {p : Bytes} {st : Stat} {hst} {es : List (Name × DirTree)}
    (hopen : f.opendir p = false) :
    Blocked f fs p (.dir st hst es) ↔
      ∃ e ∈ es.take (f.seen fs p), Visible f p e ∧ Blocked f fs (entryPath p e) e.2 := by
  constructor
  · intro h
    cases h with
    | here hfails => simp [hopen] at hfails
    | inside he hv hblocked => exact ⟨_, he, hv, hblocked⟩
  · rintro ⟨e, he, hv, hblocked⟩
    exact .inside he hv hblocked

theorem unhidden_dir {p : Bytes} {st : Stat} {hst} {es : List (Name × DirTree)} :
    Unhidden f fs p (.dir st hst es) ↔
      (∀ e ∈ es.drop (f.seen fs p), e.2.isDirectory = false) ∧
      ∀ e ∈ es.take (f.seen fs p), e.2.isDirectory = true →
        f.stat (entryPath p e) = false ∧ Unhidden f fs (entryPath p e) e.2 := by
  constructor
  · intro h
    cases h with
    | dir hdrop hstat hbelow => exact ⟨hdrop, fun e he hd => ⟨hstat e he hd, hbelow e he hd⟩⟩
  · rintro ⟨hdrop, hall⟩
    exact .dir hdrop (fun e he hd => (hall e he hd).1) fun e he hd => (hall e he hd).2

theorem explore_returns {p : Bytes} {t : DirTree} (h : Names fs.opendir fs.stat p t)
    (ht : t.isDirectory = true) (fuel : ℕ) (hfuel : t.height ≤ fuel) (list : DirectoryList)
    (heap : Heap) (hlist : Ready list) :
    Returns ((directories t).map (pathFrom p)) (Blocked f fs p t) (Unhidden f fs p t) list heap
      (exploreDirectoryRecursive (f.apply fs) fuel p list heap) := by
  induction t using DirTree.induction generalizing p fuel list heap with
  | leaf st hst => cases ht
  | dir st hst es ih =>
    have hentry := fun e he => names_entry h (e := e) he
    have hvisible := fun e he => visible_iff (f := f) h (e := e) he
    cases h with
    | dir stream _ _ hopen hstream _ _ =>
      change DirTree.heights es+1 ≤ fuel at hfuel
      obtain ⟨fuel, rfl⟩ : ∃ k, fuel = k+1 := ⟨fuel-1, by omega⟩
      rw [exploreDirectoryRecursive]
      cases hfails : f.opendir p with
      | true =>
        have hnone : (f.apply fs).opendir p = none := by simp [Faults.apply, hfails]
        rw [hnone]
        exact returns_failed fun _ => .here hfails
      | false =>
        have hsome : (f.apply fs).opendir p = some (f.read p stream) := by
          simp [Faults.apply, hfails, hopen]
        rw [hsome, directory_paths]
        have hmem : ∀ {e}, e ∈ es.take (f.seen fs p) → e ∈ es := fun he => List.mem_of_mem_take he
        have hread := read_entries_returns (f := f)
          (exploreDirectoryRecursive (f.apply fs) fuel) p (f.read p stream) (es.take (f.seen fs p))
          (seen_entries f hopen hstream) (fun e he => hvisible e (hmem he)) ?_ list heap hlist
        · have hcut := returns_cut (b := (es.drop (f.seen fs p)).flatMap (entryListing p)) hread
          rw [← List.flatMap_append, List.take_append_drop] at hcut
          refine returns_congr ?_ ?_ hcut
          · exact (blocked_dir hfails).symm
          · rw [entry_listing_nil]
            exact unhidden_dir.symm
        · intro e he hv l heap' hl
          have hle := DirTree.height_le_heights (hmem he)
          exact ih e (hmem he) (hentry e (hmem he)) hv.1 fuel (by omega) l heap' hl

end

section
variable {fs : FileSystem}

theorem blocked_none {p : Bytes} {t : DirTree} : ¬ Blocked Faults.none fs p t := by
  intro h
  induction h with
  | here hfails => cases hfails
  | inside _ _ _ ih => exact ih

theorem unhidden_none {p : Bytes} {t : DirTree} (h : Names fs.opendir fs.stat p t)
    (ht : t.isDirectory = true) : Unhidden Faults.none fs p t := by
  induction t using DirTree.induction generalizing p with
  | leaf st hst => cases ht
  | dir st hst es ih =>
    have hentry := fun e he => names_entry h (e := e) he
    cases h with
    | dir stream _ _ hopen hstream _ _ =>
      refine unhidden_dir.mpr ?_
      rw [seen_none hopen hstream, List.drop_length, List.take_length]
      exact ⟨by simp, fun e he hd => ⟨rfl, ih e he (hentry e he) hd⟩⟩

/-- The visit of a named directory appends the paths of its descendant
directories. A budget of one call for each level of the tree is enough. -/
theorem explore_ok {p : Bytes} {t : DirTree} (h : Names fs.opendir fs.stat p t)
    (ht : t.isDirectory = true) (fuel : ℕ) (hfuel : t.height ≤ fuel) (list : DirectoryList)
    (hlist : Ready list) :
    ∃ list', exploreDirectoryRecursive fs fuel p list alwaysSucceeds =
        .ok (0, list', alwaysSucceeds) ∧
      Extends list ((directories t).map (pathFrom p)) list' := by
  obtain ⟨code, list', heap', hexplore, hzero, halways⟩ :=
    explore_returns (f := Faults.none) h ht fuel hfuel list alwaysSucceeds hlist
  obtain ⟨rfl, rfl⟩ := halways rfl blocked_none
  obtain ⟨-, paths, hext, -, hfull⟩ := hzero rfl
  rw [apply_none] at hexplore
  rw [hfull.mpr (unhidden_none h ht)] at hext
  exact ⟨list', hexplore, hext⟩

end

end ProgSistema.DirectoryServer
