import ProgSistema.Lib.PathResolution

/-!
# Recursive visits of a directory tree

Many programs visit a tree in the same way: open a directory, skip its two
special entries, join each other name to the path by a separator in a buffer
of fixed size, ask for its status and descend into directories. A visitor
says what happens to the state at each entry; a visit of a tree is then a
fold over its descendants in pre-order.
-/

set_option autoImplicit false

namespace ProgSistema.FileTree
open CRuntime DirTree

structure Visitor (σ : Type) where
  bufferSize : ℕ
  opendir : Bytes → Option (List Bytes)
  status : Bytes → Option Stat
  openFailed : σ → σ
  statusFailed : σ → σ
  visit : Bytes → Stat → σ → σ

section
variable {σ : Type} (v : Visitor σ)

/-- The `readdir` loop over the entries still to come, where `descend` is the
recursive call. -/
def Visitor.entries (descend : Bytes → σ → Except Fault (Bool × σ)) (dirPath : Bytes) :
    List Bytes → σ → Except Fault σ
  | [], s => .ok s
  | name::stream, s =>
    if name = dot ∨ name = dotdot then Visitor.entries descend dirPath stream s
    else
      let fullPath := snprintf v.bufferSize (dirPath++slash::name)
      match v.status fullPath with
      | none => Visitor.entries descend dirPath stream (v.statusFailed s)
      | some st => do
        let s := v.visit fullPath st s
        let s ← (if st.type = .directory then (descend fullPath s).map Prod.snd else .ok s)
        Visitor.entries descend dirPath stream s

def Visitor.directory : ℕ → Bytes → σ → Except Fault (Bool × σ)
  | 0, _, _ => .error .outOfFuel
  | fuel+1, dirPath, s =>
    match v.opendir dirPath with
    | none => .ok (false, v.openFailed s)
    | some stream =>
      (v.entries (Visitor.directory fuel) dirPath stream s).map fun s => (true, s)

end

def entryPath (base : Bytes) (ns : List Name) : Bytes :=
  base++ns.flatMap (fun n => slash::n.bytes)

theorem entry_path_cons (base : Bytes) (n : Name) (ns : List Name) :
    entryPath base (n::ns) = entryPath (base++slash::n.bytes) ns := by
  simp [entryPath]

theorem entry_path_concat (base : Bytes) (ns : List Name) (n : Name) :
    entryPath base (ns++[n]) = entryPath base ns++slash::n.bytes := by
  simp [entryPath]

theorem entry_longer (p : Bytes) (n : Name) : p.length < (p++slash::n.bytes).length := by
  rw [List.length_append, List.length_cons]
  omega

theorem components_entry_path (ns : List Name) :
    components (ns.flatMap fun n => slash::n.bytes) = []::ns.map Name.bytes := by
  induction ns with
  | nil => rfl
  | cons n ns ih =>
    rw [List.flatMap_cons, List.cons_append, components, if_pos rfl, List.map_cons]
    congr 1
    cases ns with
    | nil => simpa using components_of_no_slash _ n.noSlash
    | cons m ms =>
      rw [List.flatMap_cons, List.cons_append, components, if_pos rfl] at ih
      rw [List.flatMap_cons, List.cons_append, components_append, (List.cons.inj ih).2,
        components_of_no_slash _ n.noSlash]
      rfl

theorem entry_path_injective (base : Bytes) : Function.Injective (entryPath base) := by
  intro ns ms h
  have hnames := congrArg components (List.append_cancel_left h)
  rw [components_entry_path, components_entry_path] at hnames
  exact List.map_injective_iff.mpr name_injective (List.cons.inj hnames).2

/-- The start of a path that ends in a name ends in the last name, or before it. -/
theorem last_name {a b p c : Bytes} (hb : slash ∉ b) (hc : slash ∉ c)
    (h : a++slash::b <+: p++slash::c) : a = p ∨ a++slash::b <+: p := by
  have hp : p <+: p++slash::c := List.prefix_append _ _
  rcases le_or_gt (a++slash::b).length p.length with hle | hlt
  · exact .inr (List.prefix_of_prefix_length_le h hp hle)
  · left
    obtain ⟨r, hr⟩ := List.prefix_of_prefix_length_le hp h hlt.le
    have hrc : r <+: slash::c := by
      rw [← hr] at h
      exact (List.prefix_append_right_inj p).mp h
    cases r with
    | nil =>
      rw [List.append_nil] at hr
      rw [← hr] at hlt
      exact absurd hlt (lt_irrefl _)
    | cons x r =>
      obtain ⟨rfl, hrest⟩ := List.cons_prefix_cons.mp hrc
      rcases List.append_eq_append_iff.mp hr with ⟨t, ha, ht⟩ | ⟨t, hp', ht⟩
      · cases t with
        | nil => rw [ha, List.append_nil]
        | cons y t =>
          have hmem : slash ∈ r := by
            rw [(List.cons.inj ht).2]
            simp
          exact absurd (hrest.subset hmem) hc
      · cases t with
        | nil => rw [hp', List.append_nil]
        | cons y t =>
          have hmem : slash ∈ b := by
            rw [(List.cons.inj ht).2]
            simp
          exact absurd hmem hb

/-- What is recorded of different nodes under their paths is recorded under
different paths. -/
theorem recorded_nodup {β : Type*} {record : List Name × Option Stat → Option β} {path : β → Bytes}
    (base : Bytes) {ds : List (List Name × Option Stat)} (hd : (ds.map Prod.fst).Nodup)
    (h : ∀ d ∈ ds, ∀ b, record d = some b → path b = entryPath base d.1) :
    ((ds.filterMap record).map path).Nodup := by
  have hsub : ((ds.filterMap record).map path).Sublist ((ds.map Prod.fst).map (entryPath base)) := by
    clear hd
    induction ds with
    | nil => exact List.Sublist.refl _
    | cons d ds ih =>
      have hrest := ih fun d hd => h d (List.mem_cons_of_mem _ hd)
      rw [List.map_cons, List.map_cons]
      cases hrecord : record d with
      | none =>
        rw [List.filterMap_cons_none hrecord]
        exact hrest.cons _
      | some b =>
        rw [List.filterMap_cons_some hrecord, List.map_cons, h d List.mem_cons_self b hrecord]
        exact hrest.cons_cons _
  exact hsub.nodup (hd.map (entry_path_injective base))

/-- The start directory can be opened and lists the entries, and the calls
show the trees below it. -/
structure Shows (opendir : Bytes → Option (List Bytes)) (status : Bytes → Option Stat)
    (base : Bytes) (es : List (Name × DirTree)) : Prop where
  stream : ∃ stream, opendir base = some stream ∧
    stream.filter (fun d => d ≠ dot ∧ d ≠ dotdot) = es.map (fun e => e.1.bytes)
  entries : ∀ e ∈ es, Names opendir status (base++slash::e.1.bytes) e.2

theorem shows_of_names {opendir : Bytes → Option (List Bytes)} {status : Bytes → Option Stat}
    {p : Bytes} {st : Stat} {h} {es : List (Name × DirTree)}
    (hn : Names opendir status p (.dir st h es)) : Shows opendir status p es := by
  cases hn with
  | dir stream _ _ hopen hfilter hentries _ => exact ⟨⟨stream, hopen, hfilter⟩, hentries⟩

theorem status_of_names {opendir : Bytes → Option (List Bytes)} {status : Bytes → Option Stat}
    {p : Bytes} {t : DirTree} (h : Names opendir status p t) : status p = t.status := by
  cases h with
  | leaf h => exact h
  | dir _ _ h => exact h

def PathsFit (size : ℕ) (base : Bytes) (es : List (Name × DirTree)) : Prop :=
  ∀ d ∈ statuses es, (entryPath base d.1).length < size

theorem paths_fit_cons {size : ℕ} {base : Bytes} {n : Name} {t : DirTree}
    {es : List (Name × DirTree)} (h : PathsFit size base ((n, t)::es)) :
    (base++slash::n.bytes).length < size ∧ PathsFit size (base++slash::n.bytes) t.entries ∧
      PathsFit size base es := by
  unfold PathsFit at h
  simp only [statuses_cons, List.cons_append, List.forall_mem_cons, List.forall_mem_append] at h
  obtain ⟨hlen, hsub, hrest⟩ := h
  refine ⟨by simpa [entryPath] using hlen, ?_, hrest⟩
  intro d hd
  have hd := hsub (n::d.1, d.2) (List.mem_map.mpr ⟨d, hd, rfl⟩)
  rwa [entry_path_cons] at hd

section
variable {σ : Type} (v : Visitor σ)

def Visitor.meet (base : Bytes) (s : σ) (d : List Name × Option Stat) : σ :=
  match d.2 with
  | none => v.statusFailed s
  | some st => v.visit (entryPath base d.1) st s

theorem meet_cons (base : Bytes) (n : Name) (t : DirTree) (es : List (Name × DirTree)) (s : σ) :
    (statuses ((n, t)::es)).foldl (v.meet base) s =
      (statuses es).foldl (v.meet base)
        ((statuses t.entries).foldl (v.meet (base++slash::n.bytes))
          (v.meet base s ([n], t.status))) := by
  have hsub : ∀ s, ((statuses t.entries).map fun d => (n::d.1, d.2)).foldl (v.meet base) s =
      (statuses t.entries).foldl (v.meet (base++slash::n.bytes)) s := by
    intro s
    rw [List.foldl_map]
    congr 1
    funext s d
    rw [Visitor.meet, Visitor.meet, entry_path_cons]
  rw [statuses_cons, List.cons_append, List.foldl_cons, List.foldl_append, hsub]

theorem entries_filter (descend : Bytes → σ → Except Fault (Bool × σ)) (p : Bytes)
    (stream : List Bytes) (s : σ) : v.entries descend p stream s =
      v.entries descend p (stream.filter fun d => d ≠ dot ∧ d ≠ dotdot) s := by
  induction stream generalizing s with
  | nil => rfl
  | cons name stream ih =>
    rw [List.filter_cons]
    by_cases hdot : name = dot ∨ name = dotdot
    · have hskip : ¬ (name ≠ dot ∧ name ≠ dotdot) := by tauto
      rw [Visitor.entries, if_pos hdot, if_neg (by simpa using hskip), ih]
    · have hkeep : name ≠ dot ∧ name ≠ dotdot := by tauto
      rw [Visitor.entries, if_neg hdot, if_pos (by simpa using hkeep), Visitor.entries,
        if_neg hdot]
      simp only
      split
      · exact ih _
      · simp only [ih]

theorem visit_entry (descend : Bytes → σ → Except Fault (Bool × σ)) (p : Bytes) (n : Name)
    {t : DirTree} (rest : List Bytes) (s : σ) (hn : Names v.opendir v.status (p++slash::n.bytes) t)
    (hlen : (p++slash::n.bytes).length < v.bufferSize)
    (hdescend : t.isDirectory = true → ∀ s, descend (p++slash::n.bytes) s =
      .ok (true, (statuses t.entries).foldl (v.meet (p++slash::n.bytes)) s)) :
    v.entries descend p (n.bytes::rest) s = v.entries descend p rest
      ((statuses t.entries).foldl (v.meet (p++slash::n.bytes)) (v.meet p s ([n], t.status))) := by
  have hstatus := status_of_names hn
  have hpath : entryPath p [n] = p++slash::n.bytes := by simp [entryPath]
  rw [Visitor.entries, if_neg (by simp [n.notDot, n.notDotdot]), snprintf_fits _ _ hlen]
  simp only [hstatus, Visitor.meet, hpath]
  cases t with
  | leaf st hleaf =>
    cases st with
    | none => rfl
    | some st =>
      simp only [DirTree.status]
      rw [if_neg (hleaf st rfl)]
      rfl
  | dir st hdir es =>
    simp only [DirTree.status]
    rw [if_pos hdir, hdescend rfl]
    rfl

theorem visit_entries_ok (descend : Bytes → σ → Except Fault (Bool × σ)) (p : Bytes)
    (es : List (Name × DirTree)) (s : σ)
    (hn : ∀ e ∈ es, Names v.opendir v.status (p++slash::e.1.bytes) e.2)
    (hfit : PathsFit v.bufferSize p es)
    (hdescend : ∀ e ∈ es, e.2.isDirectory = true →
      PathsFit v.bufferSize (p++slash::e.1.bytes) e.2.entries → ∀ s,
        descend (p++slash::e.1.bytes) s =
          .ok (true, (statuses e.2.entries).foldl (v.meet (p++slash::e.1.bytes)) s)) :
    v.entries descend p (es.map fun e => e.1.bytes) s =
      .ok ((statuses es).foldl (v.meet p) s) := by
  induction es generalizing s with
  | nil => rfl
  | cons e es ih =>
    obtain ⟨n, t⟩ := e
    obtain ⟨hlen, hsub, hrest⟩ := paths_fit_cons hfit
    rw [List.map_cons, visit_entry v descend p n _ s (hn (n, t) (by simp)) hlen
      (fun ht => hdescend (n, t) (by simp) ht hsub),
      ih _ (fun e he => hn e (by simp [he])) hrest (fun e he => hdescend e (by simp [he])),
      meet_cons]

/-- With fuel for its height, a visit of a tree whose paths fit in the buffer
meets every descendant once, in pre-order. -/
theorem visit_directory_ok (fuel : ℕ) (base : Bytes) (es : List (Name × DirTree)) (s : σ)
    (hfuel : heights es < fuel) (hs : Shows v.opendir v.status base es)
    (hfit : PathsFit v.bufferSize base es) :
    v.directory fuel base s = .ok (true, (statuses es).foldl (v.meet base) s) := by
  induction fuel generalizing base es s with
  | zero => omega
  | succ fuel ih =>
    obtain ⟨stream, hopen, hfilter⟩ := hs.stream
    rw [Visitor.directory, hopen]
    dsimp only
    rw [entries_filter, hfilter, visit_entries_ok v _ base es s hs.entries hfit]
    · rfl
    · intro e he hdir hsub s
      obtain ⟨n, t⟩ := e
      cases t with
      | leaf => cases hdir
      | dir st h sub =>
        have hheight : heights sub+1 ≤ heights es := height_le_heights he
        exact ih _ sub s (by omega) (shows_of_names (hs.entries _ he)) hsub

end

end ProgSistema.FileTree
