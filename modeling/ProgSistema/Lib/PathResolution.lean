import ProgSistema.Lib.FileTree

/-!
# Path resolution

A host is a root tree with a current directory. Resolution splits a path at
its separators and walks from the root or from the current directory, with a
stack of ancestors for the parent entries. Every path that resolves to a
directory names it, so the file system calls of a host show its trees.
-/

set_option autoImplicit false

namespace ProgSistema.FileTree

/-- The parts between separators; a separator at either end gives an empty part. -/
def components : Bytes → List Bytes
  | [] => [[]]
  | b::bs =>
    if b = slash then []::components bs
    else match components bs with
      | [] => [[b]]
      | c::cs => (b::c)::cs

theorem components_ne_nil (p : Bytes) : components p ≠ [] := by
  cases p with
  | nil => simp [components]
  | cons b bs =>
    rw [components]
    split
    · simp
    · split <;> simp

theorem components_append (p q : Bytes) :
    components (p++slash::q) = components p++components q := by
  induction p with
  | nil => simp [components]
  | cons b bs ih =>
    rw [List.cons_append, components, components, ih]
    by_cases hb : b = slash
    · rw [if_pos hb, if_pos hb]
      rfl
    · rw [if_neg hb, if_neg hb]
      cases hc : components bs with
      | nil => exact absurd hc (components_ne_nil bs)
      | cons c cs => rfl

theorem components_of_no_slash (p : Bytes) (h : slash ∉ p) : components p = [p] := by
  induction p with
  | nil => rfl
  | cons b bs ih =>
    rw [List.mem_cons, not_or] at h
    rw [components, if_neg (Ne.symm h.1), ih h.2]

/-- Joining names by separators loses nothing. -/
theorem components_intercalate (ns : List Name) (h : ns ≠ []) :
    components (List.intercalate [slash] (ns.map Name.bytes)) = ns.map Name.bytes := by
  induction ns with
  | nil => exact absurd rfl h
  | cons n ns ih =>
    cases ns with
    | nil => simpa [List.intercalate] using components_of_no_slash _ n.noSlash
    | cons m ms =>
      have hcons : List.intercalate [slash] ((n::m::ms).map Name.bytes) =
          n.bytes++slash::List.intercalate [slash] ((m::ms).map Name.bytes) := by
        simp [List.intercalate]
      rw [hcons, components_append, ih (by simp), components_of_no_slash _ n.noSlash]
      rfl

structure Host where
  root : DirTree
  /-- The current directory and its ancestors, innermost first. -/
  cwd : List DirTree

namespace Host

def walk : List Bytes → List DirTree → Option (List DirTree)
  | [], stack => some stack
  | c::cs, stack =>
    match stack with
    | .dir _ _ es::up =>
      if c = [] ∨ c = dot then walk cs stack
      else if c = dotdot then walk cs (if up = [] then stack else up)
      else match es.find? (fun e => e.1.bytes = c) with
        | some e => walk cs (e.2::stack)
        | none => none
    | _ => none

def lookup (host : Host) (p : Bytes) : Option (List DirTree) :=
  if p = [] then none
  else walk (components p) (if p.head? = some slash then [host.root] else host.cwd)

def fileSystem (host : Host) : FileSystem where
  opendir p := match host.lookup p with
    | some (.dir _ _ es::_) => some (dot::dotdot::es.map (fun e => e.1.bytes))
    | _ => none
  stat p := (host.lookup p).bind fun stack => stack.head?.bind DirTree.status
  lstat p := (host.lookup p).bind fun stack => stack.head?.bind DirTree.status

theorem walk_append (cs ds : List Bytes) (stack : List DirTree) :
    walk (cs++ds) stack = (walk cs stack).bind (walk ds) := by
  induction cs generalizing stack with
  | nil => rfl
  | cons c cs ih =>
    rw [List.cons_append, walk.eq_def, walk.eq_def (c::cs)]
    dsimp only
    split
    · split
      · exact ih _
      · split
        · exact ih _
        · split
          · exact ih _
          · rfl
    · rfl

theorem find_entry {es : List (Name × DirTree)} (hnd : (es.map Prod.fst).Nodup)
    {e : Name × DirTree} (he : e ∈ es) : es.find? (fun d => d.1.bytes = e.1.bytes) = some e := by
  induction es with
  | nil => cases he
  | cons d es ih =>
    obtain ⟨hd, hnd⟩ := List.nodup_cons.mp hnd
    rcases List.mem_cons.mp he with rfl | he
    · simp
    · have hne : d.1.bytes ≠ e.1.bytes := by
        intro heq
        exact hd (List.mem_map.mpr ⟨e, he, (name_injective heq).symm⟩)
      rw [List.find?_cons_of_neg (by simpa using hne), ih hnd he]

theorem walk_entry {st : Stat} {h} {es : List (Name × DirTree)} {up : List DirTree}
    (hnd : (es.map Prod.fst).Nodup) {e : Name × DirTree} (he : e ∈ es) :
    walk [e.1.bytes] (.dir st h es::up) = some (e.2::.dir st h es::up) := by
  rw [walk, if_neg (by simp [e.1.nonempty, e.1.notDot]), if_neg e.1.notDotdot,
    find_entry hnd he]
  rfl

/-- Appending an entry name to the path of a directory steps into the entry. -/
theorem lookup_entry {host : Host} {p : Bytes} {st : Stat} {h} {es : List (Name × DirTree)}
    {up : List DirTree} (hp : host.lookup p = some (.dir st h es::up))
    (hnd : (es.map Prod.fst).Nodup) {e : Name × DirTree} (he : e ∈ es) :
    host.lookup (p++slash::e.1.bytes) = some (e.2::.dir st h es::up) := by
  unfold lookup at hp ⊢
  have hne : p ≠ [] := by
    rintro rfl
    simp at hp
  rw [if_neg hne] at hp
  rw [if_neg (by simp), components_append, components_of_no_slash _ e.1.noSlash, walk_append,
    List.head?_append_of_ne_nil _ hne, hp]
  exact walk_entry hnd he

theorem lookup_entry_slash {host : Host} {p : Bytes} {st : Stat} {h} {es : List (Name × DirTree)}
    {up : List DirTree} (hp : host.lookup p = some (.dir st h es::up)) (hs : EndsInSlash p)
    (hnd : (es.map Prod.fst).Nodup) {e : Name × DirTree} (he : e ∈ es) :
    host.lookup (p++e.1.bytes) = some (e.2::.dir st h es::up) := by
  have hne : p ≠ [] := by
    rintro rfl
    simp [EndsInSlash] at hs
  obtain ⟨q, rfl⟩ : ∃ q, p = q++[slash] := by
    refine ⟨p.dropLast, ?_⟩
    have hlast : p.getLast hne = slash := by
      rw [EndsInSlash, List.getLast?_eq_getLast_of_ne_nil hne] at hs
      exact Option.some.inj hs
    rw [← hlast, List.dropLast_append_getLast]
  unfold lookup at hp ⊢
  rw [if_neg hne, components_append, walk_append] at hp
  have hhead : (q++[slash]++e.1.bytes).head? = (q++[slash]).head? :=
    List.head?_append_of_ne_nil _ hne
  rw [if_neg (by simp), hhead, List.append_assoc, List.singleton_append, components_append,
    components_of_no_slash _ e.1.noSlash, walk_append]
  obtain ⟨stack, hstack, hwalk⟩ := Option.bind_eq_some_iff.mp hp
  rw [hstack]
  have hself : stack = .dir st h es::up := by
    rw [components, walk.eq_def] at hwalk
    dsimp only at hwalk
    split at hwalk
    · exact Option.some.inj hwalk
    · cases hwalk
  rw [hself]
  exact walk_entry hnd he

theorem lookup_names (host : Host) {t : DirTree} (hd : t.Distinct) (p : Bytes) (up : List DirTree)
    (hp : host.lookup p = some (t::up)) :
    Names host.fileSystem.opendir host.fileSystem.stat p t := by
  induction hd generalizing p up with
  | leaf st h =>
    refine .leaf ?_
    simp [fileSystem, hp, DirTree.status]
  | dir st h es hnd _ ih =>
    have hne : p ≠ [] := by
      rintro rfl
      simp [lookup] at hp
    refine .dir (dot::dotdot::es.map (fun e => e.1.bytes)) hne ?_ ?_ ?_ ?_ ?_
    · simp [fileSystem, hp, DirTree.status]
    · simp [fileSystem, hp]
    · have hkeep : ∀ d ∈ es.map (fun e => e.1.bytes), d ≠ dot ∧ d ≠ dotdot := by
        intro d hd
        obtain ⟨e, -, rfl⟩ := List.mem_map.mp hd
        exact ⟨e.1.notDot, e.1.notDotdot⟩
      rw [List.filter_cons_of_neg (by simp), List.filter_cons_of_neg (by simp)]
      exact List.filter_eq_self.mpr (fun d hd => by simpa using hkeep d hd)
    · intro e he
      exact ih e he _ _ (lookup_entry hp hnd he)
    · intro hs e he
      exact ih e he _ _ (lookup_entry_slash hp hs hnd he)

end Host
end ProgSistema.FileTree
