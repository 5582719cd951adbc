import ProgSistema.DirectoryServer.Listing
import ProgSistema.Lib.LinkedHost
import ProgSistema.Lib.Unfolding

/-!
# The exploration of a file system with links

Whether an entry is a directory is asked with the links followed, and nothing
records which directories have been explored. The exploration therefore unfolds
the graph of directories and links, and only the limits of path resolution end
it. A directory that can be entered in two ways is listed twice.
-/

set_option autoImplicit false

namespace ProgSistema.DirectoryServer
open CRuntime FileTree

section Counting
variable (fs : FileSystem)

def readEntriesCounted
    (explore : Bytes → DirectoryList → Heap → Except Fault (ℤ × DirectoryList × Heap × ℕ))
    (dirPath : Bytes) :
    List Bytes → DirectoryList → Heap → Except Fault (ℤ × DirectoryList × Heap × ℕ)
  | [], list, heap => .ok (0, list, heap, 0)
  | name::stream, list, heap =>
    if name = dot ∨ name = dotdot then readEntriesCounted explore dirPath stream list heap
    else do
      let (fullPath, heap) ← buildPath dirPath name heap
      match fullPath with
      | none => return (-1, list, heap, 0)
      | some fullPath =>
        if isDirectory fs fullPath then
          let (added, list, heap) ← addPathToList list fullPath heap
          if added ≠ 0 then return (-1, list, heap, 0)
          else
            let (explored, list, heap, calls) ← explore fullPath list heap
            if explored ≠ 0 then return (-1, list, heap, calls)
            else
              let (code, list, heap, more) ← readEntriesCounted explore dirPath stream list heap
              return (code, list, heap, calls+more)
        else readEntriesCounted explore dirPath stream list heap

def exploreCounted :
    ℕ → Bytes → DirectoryList → Heap → Except Fault (ℤ × DirectoryList × Heap × ℕ)
  | 0, _, _, _ => .error .outOfFuel
  | fuel+1, dirPath, list, heap =>
    match fs.opendir dirPath with
    | none => .ok (-1, list, heap, 1)
    | some stream => do
      let (code, list, heap, calls) ←
        readEntriesCounted fs (exploreCounted fuel) dirPath stream list heap
      return (code, list, heap, calls+1)

def uncounted (r : ℤ × DirectoryList × Heap × ℕ) : ℤ × DirectoryList × Heap := (r.1, r.2.1, r.2.2.1)

theorem read_entries_uncounted
    (explore : Bytes → DirectoryList → Heap → Except Fault (ℤ × DirectoryList × Heap))
    (counted : Bytes → DirectoryList → Heap → Except Fault (ℤ × DirectoryList × Heap × ℕ))
    (h : ∀ p list heap, (counted p list heap).map uncounted = explore p list heap)
    (dirPath : Bytes) (stream : List Bytes) (list : DirectoryList) (heap : Heap) :
    (readEntriesCounted fs counted dirPath stream list heap).map uncounted =
      readEntries fs explore dirPath stream list heap := by
  induction stream generalizing list heap with
  | nil => rfl
  | cons name stream ih =>
    rw [readEntriesCounted, readEntries]
    split
    · exact ih list heap
    · cases buildPath dirPath name heap with
      | error fault => rfl
      | ok built =>
        obtain ⟨fullPath, heap⟩ := built
        cases fullPath with
        | none => rfl
        | some fullPath =>
          simp only [ok_bind]
          split
          · cases addPathToList list fullPath heap with
            | error fault => rfl
            | ok added =>
              obtain ⟨added, list, heap⟩ := added
              simp only [ok_bind]
              split
              · rfl
              · rw [← h fullPath list heap]
                cases counted fullPath list heap with
                | error fault => rfl
                | ok explored =>
                  obtain ⟨explored, list, heap, calls⟩ := explored
                  have hplain : Except.map uncounted (.ok (explored, list, heap, calls)) =
                    (.ok (explored, list, heap) : Except Fault _) := rfl
                  rw [hplain]
                  simp only [ok_bind]
                  by_cases hfails : explored ≠ 0
                  · rw [if_pos hfails, if_pos hfails]
                    rfl
                  · rw [if_neg hfails, if_neg hfails, ← ih list heap]
                    cases readEntriesCounted fs counted dirPath stream list heap <;> rfl
          · exact ih list heap

theorem explore_uncounted (fuel : ℕ) (p : Bytes) (list : DirectoryList) (heap : Heap) :
    (exploreCounted fs fuel p list heap).map uncounted =
      exploreDirectoryRecursive fs fuel p list heap := by
  induction fuel generalizing p list heap with
  | zero => rfl
  | succ fuel ih =>
    rw [exploreCounted, exploreDirectoryRecursive]
    cases fs.opendir p with
    | none => rfl
    | some stream =>
      dsimp only
      rw [← read_entries_uncounted fs _ _ ih]
      cases readEntriesCounted fs (exploreCounted fs fuel) p stream list heap <;> rfl

end Counting

section
variable {δ : Type} (host : LinkedHost δ)

def follow : Bytes → List Name → Option δ
  | p, [] => host.directoryAt p
  | p, n::ns => match host.directoryAt p with
    | none => none
    | some d =>
      if n ∈ (host.entries d).map Prod.fst then follow (p++separator p++n.bytes) ns else none

def entryFound (below : Bytes → List (List Name)) (p : Bytes) (n : Name) : List (List Name) :=
  if (host.directoryAt (p++separator p++n.bytes)).isSome then
    [n]::(below (p++separator p++n.bytes)).map (n::·)
  else []

def found : ℕ → Bytes → List (List Name)
  | 0, _ => []
  | fuel+1, p => match host.directoryAt p with
    | none => []
    | some d => (host.entries d).flatMap fun e => entryFound host (found fuel) p e.1

variable {host}

theorem follow_directory {p : Bytes} {ns : List Name} {d : δ} (h : follow host p ns = some d) :
    host.directoryAt (pathFrom p ns) = some d := by
  induction ns generalizing p with
  | nil => exact h
  | cons n ns ih =>
    rw [follow] at h
    split at h
    · cases h
    · split at h
      · exact ih h
      · cases h

theorem follow_start {p : Bytes} {ns : List Name} (h : (follow host p ns).isSome) :
    (host.directoryAt p).isSome := by
  cases ns with
  | nil => exact h
  | cons n ns =>
    rw [follow] at h
    cases hd : host.directoryAt p with
    | none => simp [hd] at h
    | some d => rfl

theorem follow_closed {p : Bytes} (ns : List Name) (n : Name) (h : follow host p ns = none) :
    follow host p (ns++[n]) = none := by
  induction ns generalizing p with
  | nil =>
    rw [follow] at h
    rw [List.nil_append, follow, h]
  | cons m ns ih =>
    rw [follow] at h
    rw [List.cons_append, follow]
    split
    · rfl
    · rename_i d hd
      rw [hd] at h
      dsimp only at h
      split
      · rename_i hm
        rw [if_pos hm] at h
        exact ih h
      · rfl

def unfolding (p : Bytes) (d : δ) (h : host.directoryAt p = some d) : Unfolding Name δ where
  place := follow host p
  start := d
  atStart := h
  closed := follow_closed

theorem entry_longer (p : Bytes) (n : Name) : p.length < (p++separator p++n.bytes).length := by
  have hpos := List.length_pos_iff.mpr n.nonempty
  rw [List.length_append, List.length_append]
  omega

theorem mem_entry_found {below : Bytes → List (List Name)} {p : Bytes} {n : Name} {ns : List Name} :
    ns ∈ entryFound host below p n ↔ (host.directoryAt (p++separator p++n.bytes)).isSome ∧
      ∃ ms, ns = n::ms ∧ (ms = [] ∨ ms ∈ below (p++separator p++n.bytes)) := by
  unfold entryFound
  split
  · rename_i hsome
    rw [List.mem_cons, List.mem_map]
    constructor
    · rintro (rfl | ⟨ms, hms, rfl⟩)
      · exact ⟨hsome, [], rfl, Or.inl rfl⟩
      · exact ⟨hsome, ms, rfl, Or.inr hms⟩
    · rintro ⟨-, ms, rfl, rfl | hms⟩
      · exact Or.inl rfl
      · exact Or.inr ⟨ms, hms, rfl⟩
  · rename_i hnone
    constructor
    · intro hmem
      cases hmem
    · rintro ⟨hsome, -⟩
      exact absurd hsome hnone

theorem follow_cons {p : Bytes} {d : δ} (hd : host.directoryAt p = some d) {n : Name}
    (hn : n ∈ (host.entries d).map Prod.fst) (ns : List Name) :
    follow host p (n::ns) = follow host (p++separator p++n.bytes) ns := by
  rw [follow, hd]
  exact if_pos hn

theorem mem_found {fuel : ℕ} {p : Bytes} (hfuel : host.pathMax ≤ fuel+p.length) (ns : List Name) :
    ns ∈ found host fuel p ↔ ns ≠ [] ∧ (follow host p ns).isSome := by
  induction fuel generalizing p ns with
  | zero =>
    have hnone : host.directoryAt p = none := by
      cases hd : host.directoryAt p with
      | none => rfl
      | some d => have := (LinkedHost.path_short hd).2; omega
    cases ns <;> simp [found, follow, hnone]
  | succ fuel ih =>
    rw [found]
    cases hd : host.directoryAt p with
    | none => cases ns <;> simp [follow, hd]
    | some d =>
      dsimp only
      rw [List.mem_flatMap]
      have hbelow : ∀ n : Name, ∀ ms, ms ∈ found host fuel (p++separator p++n.bytes) ↔
          ms ≠ [] ∧ (follow host (p++separator p++n.bytes) ms).isSome := by
        intro n
        have hlen := entry_longer p n
        exact ih (by omega)
      constructor
      · rintro ⟨e, he, hns⟩
        obtain ⟨hsome, ms, rfl, hms⟩ := mem_entry_found.mp hns
        refine ⟨by simp, ?_⟩
        rw [follow_cons hd (List.mem_map_of_mem he)]
        rcases hms with rfl | hms
        · exact hsome
        · exact ((hbelow e.1 ms).mp hms).2
      · rintro ⟨hne, hsome⟩
        obtain ⟨n, ms, rfl⟩ := List.exists_cons_of_ne_nil hne
        by_cases hn : n ∈ (host.entries d).map Prod.fst
        · obtain ⟨e, he, rfl⟩ := List.mem_map.mp hn
          rw [follow_cons hd hn] at hsome
          refine ⟨e, he, mem_entry_found.mpr ⟨follow_start hsome, ms, rfl, ?_⟩⟩
          rw [hbelow]
          by_cases hms : ms = []
          · exact Or.inl hms
          · exact Or.inr ⟨hms, hsome⟩
        · simp only [follow, hd, if_neg hn] at hsome
          cases hsome

theorem nil_not_found (fuel : ℕ) (p : Bytes) : [] ∉ found host fuel p := by
  cases fuel with
  | zero => simp [found]
  | succ fuel =>
    rw [found]
    split
    · simp
    · intro hmem
      obtain ⟨e, -, hnil⟩ := List.mem_flatMap.mp hmem
      obtain ⟨-, ms, hms, -⟩ := mem_entry_found.mp hnil
      cases hms

theorem found_nodup (fuel : ℕ) (p : Bytes) : (found host fuel p).Nodup := by
  induction fuel generalizing p with
  | zero => exact List.nodup_nil
  | succ fuel ih =>
    rw [found]
    split
    · exact List.nodup_nil
    · rename_i d _
      refine List.nodup_flatMap.mpr ⟨fun e _ => ?_, ?_⟩
      · unfold entryFound
        split
        · refine List.nodup_cons.mpr ⟨?_, (ih _).map fun a b hab => (List.cons.inj hab).2⟩
          intro hmem
          obtain ⟨ns, hns, hnil⟩ := List.mem_map.mp hmem
          rw [(List.cons.inj hnil).2] at hns
          exact nil_not_found _ _ hns
        · exact List.nodup_nil
      · have hnames := List.pairwise_map.mp (host.distinct d)
        refine hnames.imp fun {e e'} hne => ?_
        intro ns hns hns'
        obtain ⟨-, ms, rfl, -⟩ := mem_entry_found.mp hns
        obtain ⟨-, ms', heq, -⟩ := mem_entry_found.mp hns'
        exact hne (List.cons.inj heq).1

theorem found_enumerates {p : Bytes} {d : δ} (h : host.directoryAt p = some d) {fuel : ℕ}
    (hfuel : host.pathMax ≤ fuel+p.length) :
    (unfolding p d h).Enumerates (found host fuel p) :=
  ⟨found_nodup fuel p, mem_found hfuel⟩

/-- What an exploration does that is to add the paths: it adds some of them in
their order, one call of itself for each, and all of them if memory lasts. -/
def Counts (full : List Bytes) (extra : ℕ) (list : DirectoryList) (heap : Heap)
    (result : Except Fault (ℤ × DirectoryList × Heap × ℕ)) : Prop :=
  ∃ code list' heap' paths, result = .ok (code, list', heap', paths.length+extra) ∧
    list'.paths = list.paths++paths ∧ paths.Sublist full ∧ (code = 0 → Ready list') ∧
    (heap = alwaysSucceeds → code = 0 ∧ paths = full ∧ heap' = alwaysSucceeds)

theorem counts_failed {full : List Bytes} {list : DirectoryList} {heap heap' : Heap}
    (h : heap ≠ alwaysSucceeds) : Counts full 0 list heap (.ok (-1, list, heap', 0)) :=
  ⟨-1, list, heap', [], rfl, (List.append_nil _).symm, List.nil_sublist _,
    fun hzero => by simp at hzero, fun halways => absurd halways h⟩

theorem counts_one {full rest : List Bytes} {p : Bytes} {list l₁ l₂ : DirectoryList}
    {heap heap₂ : Heap} {paths : List Bytes}
    {result : Except Fault (ℤ × DirectoryList × Heap × ℕ)}
    (h₁ : l₁.paths = list.paths++[p]) (h₂ : l₂.paths = l₁.paths++paths) (hsub : paths.Sublist full)
    (halways : heap = alwaysSucceeds → paths = full ∧ heap₂ = alwaysSucceeds)
    (h : Counts rest 0 l₂ heap₂ result) :
    Counts ((p::full)++rest) 0 list heap (do
      let (code, list, heap, more) ← result
      return (code, list, heap, paths.length+1+more)) := by
  obtain ⟨code, list', heap', more, rfl, hpaths, hmore, hready, hall⟩ := h
  refine ⟨code, list', heap', (p::paths)++more, ?_, ?_, (hsub.cons_cons p).append hmore, hready, ?_⟩
  · simp only [ok_bind, List.length_append, List.length_cons, Nat.add_zero]
    rfl
  · rw [hpaths, h₂, h₁]
    simp
  · intro hheap
    obtain ⟨rfl, hheap₂⟩ := halways hheap
    obtain ⟨hcode, rfl, hheap'⟩ := hall hheap₂
    exact ⟨hcode, rfl, hheap'⟩

theorem is_directory_linked (p : Bytes) :
    isDirectory host.fileSystem p = true ↔ (host.directoryAt p).isSome := by
  have hstat : host.fileSystem.stat p = host.stat p := rfl
  rw [← LinkedHost.directory_iff, isDirectory, hstat]
  cases host.stat p <;> simp

theorem read_entries_counts (p : Bytes) (below : Bytes → List (List Name))
    (counted : Bytes → DirectoryList → Heap → Except Fault (ℤ × DirectoryList × Heap × ℕ))
    (es : List (Name × Entry δ))
    (hcounted : ∀ e ∈ es, (host.directoryAt (p++separator p++e.1.bytes)).isSome → ∀ list heap,
      Ready list → Counts ((below (p++separator p++e.1.bytes)).map
        (pathFrom (p++separator p++e.1.bytes))) 1 list heap
          (counted (p++separator p++e.1.bytes) list heap))
    (list : DirectoryList) (heap : Heap) (hlist : Ready list) :
    Counts (es.flatMap fun e => (entryFound host below p e.1).map (pathFrom p)) 0 list heap
      (readEntriesCounted host.fileSystem counted p (es.map fun e => e.1.bytes) list heap) := by
  induction es generalizing list heap with
  | nil =>
    exact ⟨0, list, heap, [], rfl, (List.append_nil _).symm, List.Sublist.refl _, fun _ => hlist,
      fun halways => ⟨rfl, rfl, halways⟩⟩
  | cons e es ih =>
    have hrest := fun list heap => ih (fun d hd => hcounted d (by simp [hd])) list heap
    rw [List.map_cons, readEntriesCounted, if_neg (by simp [e.1.notDot, e.1.notDotdot]),
      build_path_heap, List.flatMap_cons]
    simp only [ok_bind]
    cases h0 : heap 0 with
    | false =>
      refine counts_failed ?_
      rintro rfl
      cases h0
    | true =>
      simp only [if_true]
      by_cases hdir : (host.directoryAt (p++separator p++e.1.bytes)).isSome
      · rw [if_pos (is_directory_linked _ |>.mpr hdir)]
        have hentry : (entryFound host below p e.1).map (pathFrom p) =
            (p++separator p++e.1.bytes)::(below (p++separator p++e.1.bytes)).map
              (pathFrom (p++separator p++e.1.bytes)) := by
          rw [entryFound, if_pos hdir, List.map_cons, List.map_map]
          rfl
        rw [hentry]
        obtain ⟨code, l₁, heap₁, hadd, hcases, halways₁⟩ :=
          add_path_heap list (p++separator p++e.1.bytes) (fun n => heap (n+1)) hlist
        rw [hadd]
        simp only [ok_bind]
        rcases hcases with ⟨rfl, h₁, hready₁⟩ | ⟨rfl, hsame⟩
        · obtain ⟨code, l₂, heap₂, paths, hexplore, h₂, hsub, hready₂, halways₂⟩ :=
            hcounted e (by simp) hdir l₁ heap₁ hready₁
          rw [if_neg (not_not.mpr rfl), hexplore]
          simp only [ok_bind]
          by_cases hcode : code = 0
          · rw [if_neg (not_not.mpr hcode)]
            refine counts_one h₁ h₂ hsub ?_ (hrest l₂ heap₂ (hready₂ hcode))
            rintro rfl
            exact (halways₂ (halways₁ rfl).2).2
          · rw [if_pos hcode]
            refine ⟨-1, l₂, heap₂, (p++separator p++e.1.bytes)::paths, rfl, ?_, ?_, ?_, ?_⟩
            · rw [h₂, h₁]
              simp
            · exact (hsub.cons_cons _).trans (List.sublist_append_left _ _)
            · intro hzero
              simp at hzero
            · rintro rfl
              exact absurd (halways₂ (halways₁ rfl).2).1 hcode
        · refine ⟨-1, l₁, heap₁, [], rfl, ?_, List.nil_sublist _, ?_, ?_⟩
          · rw [hsame, List.append_nil]
          · intro hzero
            simp at hzero
          · rintro rfl
            exact absurd (halways₁ rfl).1 (by decide)
      · rw [if_neg (fun hyes => hdir (is_directory_linked _ |>.mp hyes)), entryFound, if_neg hdir]
        obtain ⟨code, list', heap', paths, hread, hpaths, hsub, hready, hall⟩ :=
          hrest list (fun n => heap (n+1)) hlist
        refine ⟨code, list', heap', paths, hread, hpaths, hsub, hready, ?_⟩
        rintro rfl
        exact hall rfl

/-- The depth of the exploration is bounded by the length of a path. -/
theorem explore_counts {fuel : ℕ} {p : Bytes} (hp : (host.directoryAt p).isSome)
    (hfuel : host.pathMax ≤ fuel+p.length) (list : DirectoryList) (heap : Heap) (hlist : Ready list) :
    Counts ((found host fuel p).map (pathFrom p)) 1 list heap
      (exploreCounted host.fileSystem fuel p list heap) := by
  induction fuel generalizing p list heap with
  | zero =>
    obtain ⟨d, hd⟩ := Option.isSome_iff_exists.mp hp
    have := (LinkedHost.path_short hd).2
    omega
  | succ fuel ih =>
    obtain ⟨d, hd⟩ := Option.isSome_iff_exists.mp hp
    have hopen : host.fileSystem.opendir p =
        some (dot::dotdot::(host.entries d).map fun e => e.1.bytes) := by
      show (host.directoryAt p).map _ = _
      rw [hd, Option.map_some]
    have hskip : ∀ stream, readEntriesCounted host.fileSystem (exploreCounted host.fileSystem fuel)
        p (dot::dotdot::stream) list heap =
          readEntriesCounted host.fileSystem (exploreCounted host.fileSystem fuel) p stream list
            heap := by
      intro stream
      rw [readEntriesCounted, if_pos (Or.inl rfl), readEntriesCounted, if_pos (Or.inr rfl)]
    obtain ⟨code, list', heap', paths, hread, hpaths, hsub, hready, hall⟩ :=
      read_entries_counts p (found host fuel) (exploreCounted host.fileSystem fuel)
        (host.entries d) (fun e _ hdir l h hl => by
          have hlen := entry_longer p e.1
          exact ih hdir (by omega) l h hl) list heap hlist
    rw [exploreCounted, hopen]
    dsimp only
    rw [hskip, hread, found, hd]
    dsimp only
    rw [List.map_flatMap]
    exact ⟨code, list', heap', paths, rfl, hpaths, hsub, hready, hall⟩

theorem listed_places {p : Bytes} {ls : List (List Name)}
    (h : ∀ ns ∈ ls, (follow host p ns).isSome) :
    (ls.map (pathFrom p)).map host.directoryAt = ls.map (follow host p) := by
  rw [List.map_map]
  refine List.map_congr_left fun ns hns => ?_
  obtain ⟨d, hd⟩ := Option.isSome_iff_exists.mp (h ns hns)
  rw [hd]
  exact follow_directory hd

/-- Whatever becomes of the allocations, the exploration returns, no directory
is listed twice and the calls are no more than the directories that are come
to, exactly when no entry among these leads back to the start and no two of
them lead to the same directory. -/
theorem listed_once (host : LinkedHost δ) (base : Bytes) (d : δ)
    (h : host.directoryAt base = some d) (fuel : ℕ) (hfuel : host.pathMax ≤ fuel+base.length) :
    (∀ heap, ∃ code list heap' calls,
      exploreDirectoryRecursive host.fileSystem fuel base ⟨[], 10⟩ heap = .ok (code, list, heap') ∧
      exploreCounted host.fileSystem fuel base ⟨[], 10⟩ heap = .ok (code, list, heap', calls) ∧
      (list.paths.map host.directoryAt).Nodup ∧ calls ≤ (unfolding base d h).nodes.ncard) ↔
    (unfolding base d h).SingleEntry := by
  have hsome : (host.directoryAt base).isSome := by simp [h]
  have hready : Ready ⟨[], 10⟩ := ⟨by decide, by decide⟩
  have henum := found_enumerates h hfuel
  have hplaces := listed_places (fun ns hns => ((henum.mem ns).mp hns).2)
  have honce := Unfolding.each_once_iff henum
  rw [← honce]
  constructor
  · intro hall
    obtain ⟨code, list, heap', calls, -, hcounted, hnodup, hcalls⟩ := hall alwaysSucceeds
    obtain ⟨code', list', heap₁, paths, hcounts, hpaths, -, -, halways⟩ :=
      explore_counts hsome hfuel ⟨[], 10⟩ alwaysSucceeds hready
    rw [hcounted] at hcounts
    cases hcounts
    obtain ⟨-, rfl, -⟩ := halways rfl
    rw [hpaths, List.nil_append, hplaces] at hnodup
    rw [List.length_map] at hcalls
    exact ⟨hnodup, hcalls⟩
  · rintro ⟨hnodup, hlen⟩ heap
    obtain ⟨code, list, heap', paths, hcounts, hpaths, hsub, -, -⟩ :=
      explore_counts hsome hfuel ⟨[], 10⟩ heap hready
    refine ⟨code, list, heap', paths.length+1, ?_, hcounts, ?_, ?_⟩
    · rw [← explore_uncounted, hcounts]
      rfl
    · rw [hpaths, List.nil_append]
      refine (hsub.map host.directoryAt).nodup ?_
      rw [hplaces]
      exact hnodup
    · have hle := hsub.length_le
      rw [List.length_map] at hle
      omega

end

def nameC : Name := ⟨text "c", by decide, by decide, by decide, by decide, by decide⟩
def linkStat : Stat := ⟨.symlink, 20, 2, 1, 0⟩

inductive SampleDir where
  | root
  | dirA
  | dirC
  deriving DecidableEq

def linkHost (target : Bytes) : LinkedHost SampleDir where
  root := .root
  cwd := .root
  parent _ := .root
  status _ := dirStat
  isDir _ := rfl
  entries
    | .root => [(nameA, .directory .dirA), (nameC, .directory .dirC)]
    | .dirA => [(nameB, .link linkStat rfl target)]
    | .dirC => []
  distinct d := by
    cases d with
    | root =>
      show [nameA, nameC].Nodup
      decide
    | dirA => exact List.nodup_singleton _
    | dirC => exact List.nodup_nil
  symloopMax := 40
  pathMax := 4096

theorem link_host_start : (linkHost (text "/c")).directoryAt (text "/a") = some .dirA := rfl

/-- A link out of the tree leads to a directory that is listed once. -/
theorem outside_listed_once : ∃ code list heap' calls,
    exploreDirectoryRecursive (linkHost (text "/c")).fileSystem 4096 (text "/a") ⟨[], 10⟩
      alwaysSucceeds = .ok (code, list, heap') ∧
    exploreCounted (linkHost (text "/c")).fileSystem 4096 (text "/a") ⟨[], 10⟩ alwaysSucceeds =
      .ok (code, list, heap', calls) ∧
    (list.paths.map (linkHost (text "/c")).directoryAt).Nodup ∧
      calls ≤ (unfolding (text "/a") SampleDir.dirA link_host_start).nodes.ncard := by
  have hfound : (unfolding (text "/a") SampleDir.dirA link_host_start).Enumerates
      (found (linkHost (text "/c")) 4096 (text "/a")) := found_enumerates _ (by decide)
  have hsingle := (Unfolding.single_entry_iff_nodup hfound).mpr (by decide +kernel)
  exact (listed_once (linkHost (text "/c")) (text "/a") .dirA link_host_start 4096
    (by decide)).mpr hsingle alwaysSucceeds

/-- A link to a sibling: its directory is listed twice, with four calls for
three directories. -/
theorem sibling_listed_twice :
    (exploreCounted (linkHost (text "/c")).fileSystem 4096 (text "/") ⟨[], 10⟩
      alwaysSucceeds).toOption.map (fun r => (r.2.1.paths, r.2.2.2)) =
        some ([text "/a", text "/a/b", text "/c"], 4) ∧
      (linkHost (text "/c")).directoryAt (text "/a/b") = some .dirC ∧
      (linkHost (text "/c")).directoryAt (text "/c") = some .dirC := by
  decide +kernel

end ProgSistema.DirectoryServer
