import ProgSistema.Lib.CRuntime

/-!
# Directory trees and the file system calls that show them

A tree records what a status call reports at each node and, for a directory,
its entries in the order `readdir` returns them. Programs see a tree through
path-indexed calls only. A path names a tree when the calls agree with it
there and under every extension of the path by entry names.
-/

set_option autoImplicit false

namespace ProgSistema.FileTree

def slash : UInt8 := 47
def dot : Bytes := [46]
def dotdot : Bytes := [46, 46]

/-- A file name: neither empty nor one of the two special names, and free of
separators and terminators. -/
structure Name where
  bytes : Bytes
  nonempty : bytes ≠ []
  noSlash : slash ∉ bytes
  noNul : 0 ∉ bytes
  notDot : bytes ≠ dot
  notDotdot : bytes ≠ dotdot
  deriving DecidableEq

theorem name_injective : Function.Injective Name.bytes := by
  intro a b h
  cases a
  cases b
  simpa using h

inductive FileType where
  | regular
  | directory
  | symlink
  | other
  deriving DecidableEq, Repr

structure Stat where
  type : FileType
  ino : ℕ
  size : ℤ
  nlink : ℕ
  mtime : ℤ
  deriving DecidableEq, Repr

structure FileSystem where
  opendir : Bytes → Option (List Bytes)
  stat : Bytes → Option Stat
  lstat : Bytes → Option Stat

/-- `none` at a leaf is a status call that fails. -/
inductive DirTree where
  | leaf (st : Option Stat) (notDir : ∀ s, st = some s → s.type ≠ .directory)
  | dir (st : Stat) (isDir : st.type = .directory) (entries : List (Name × DirTree))

namespace DirTree

theorem induction {P : DirTree → Prop} (leaf : ∀ st h, P (.leaf st h))
    (dir : ∀ st h entries, (∀ e ∈ entries, P e.2) → P (.dir st h entries)) (t : DirTree) : P t :=
  @DirTree.rec P (fun entries => ∀ e ∈ entries, P e.2) (fun e => P e.2) leaf dir (by simp)
    (fun e entries he hes => List.forall_mem_cons.mpr ⟨he, hes⟩) (fun _ _ ht => ht) t

def status : DirTree → Option Stat
  | .leaf st _ => st
  | .dir st _ _ => some st

def isDirectory : DirTree → Bool
  | .leaf _ _ => false
  | .dir _ _ _ => true

def entries : DirTree → List (Name × DirTree)
  | .leaf _ _ => []
  | .dir _ _ es => es

mutual
def height : DirTree → ℕ
  | .leaf _ _ => 0
  | .dir _ _ es => heights es+1
def heights : List (Name × DirTree) → ℕ
  | [] => 0
  | (_, t)::es => max t.height (heights es)
end

theorem height_le_heights {e : Name × DirTree} {es : List (Name × DirTree)} (h : e ∈ es) :
    e.2.height ≤ heights es := by
  induction es with
  | nil => cases h
  | cons a es ih =>
    obtain ⟨n, t⟩ := a
    rw [heights]
    rcases List.mem_cons.mp h with rfl | h
    · exact Nat.le_max_left _ _
    · exact (ih h).trans (Nat.le_max_right _ _)

mutual
/-- The proper descendants in pre-order, each with the names leading to it. -/
def descendants : DirTree → List (List Name × DirTree)
  | .leaf _ _ => []
  | .dir _ _ es => descendantsOf es
def descendantsOf : List (Name × DirTree) → List (List Name × DirTree)
  | [] => []
  | (n, t)::es => ([n], t)::(t.descendants.map fun d => (n::d.1, d.2)) ++ descendantsOf es
end

inductive Leads : DirTree → List Name → DirTree → Prop where
  | here (t : DirTree) : Leads t [] t
  | step {st : Stat} {h : st.type = .directory} {es : List (Name × DirTree)} {n : Name}
      {t u : DirTree} {ns : List Name} : (n, t) ∈ es → Leads t ns u → Leads (.dir st h es) (n::ns) u

inductive Distinct : DirTree → Prop where
  | leaf (st : Option Stat) (h) : Distinct (.leaf st h)
  | dir (st : Stat) (h) (es : List (Name × DirTree)) : (es.map Prod.fst).Nodup →
      (∀ e ∈ es, Distinct e.2) → Distinct (.dir st h es)

theorem leads_concat {t d u : DirTree} {ns : List Name} {n : Name} (h : Leads t ns d)
    (he : (n, u) ∈ d.entries) : Leads t (ns++[n]) u := by
  induction h with
  | here t =>
    cases t with
    | leaf => cases he
    | dir => exact .step he (.here u)
  | step hmem _ ih => exact .step hmem (ih he)

theorem leads_last {t u : DirTree} {ns : List Name} {n : Name} (h : Leads t (ns++[n]) u) :
    ∃ d, Leads t ns d ∧ (n, u) ∈ d.entries := by
  induction ns generalizing t with
  | nil =>
    cases h with
    | step hmem hrest =>
      cases hrest
      exact ⟨_, .here _, hmem⟩
  | cons m ns ih =>
    cases h with
    | step hmem hrest =>
      obtain ⟨d, hd, hu⟩ := ih hrest
      exact ⟨d, .step hmem hd, hu⟩

theorem leads_unique {t u u' : DirTree} {ns : List Name} (hd : Distinct t) (h : Leads t ns u)
    (h' : Leads t ns u') : u = u' := by
  induction h with
  | here =>
    cases h'
    rfl
  | step hmem _ ih =>
    cases hd with
    | dir _ _ _ hnames hsub =>
      cases h' with
      | step hmem' hrest =>
        cases List.inj_on_of_nodup_map hnames hmem hmem' rfl
        exact ih (hsub _ hmem) hrest

theorem mem_descendants_of (es : List (Name × DirTree)) (ns : List Name) (u : DirTree) :
    (ns, u) ∈ descendantsOf es ↔
      ∃ n t, (n, t) ∈ es ∧ (ns = [n] ∧ u = t ∨ ∃ ms, ns = n::ms ∧ (ms, u) ∈ t.descendants) := by
  induction es with
  | nil => simp [descendantsOf]
  | cons e es ih =>
    obtain ⟨n, t⟩ := e
    rw [descendantsOf, List.mem_append, List.mem_cons, ih]
    constructor
    · rintro ((h | h) | ⟨n', t', hmem, h⟩)
      · cases h
        exact ⟨n, u, by simp, .inl ⟨rfl, rfl⟩⟩
      · obtain ⟨⟨ms, v⟩, hd, hv⟩ := List.mem_map.mp h
        cases hv
        exact ⟨n, t, by simp, .inr ⟨ms, rfl, hd⟩⟩
      · exact ⟨n', t', by simp [hmem], h⟩
    · rintro ⟨n', t', hmem, h⟩
      rcases List.mem_cons.mp hmem with heq | hmem
      · cases heq
        left
        rcases h with ⟨rfl, rfl⟩ | ⟨ms, rfl, hms⟩
        · exact .inl rfl
        · exact .inr (List.mem_map.mpr ⟨(ms, u), hms, rfl⟩)
      · exact .inr ⟨n', t', hmem, h⟩

/-- The pre-order list holds exactly the nodes reached by nonempty names. -/
theorem mem_descendants (t : DirTree) (ns : List Name) (u : DirTree) :
    (ns, u) ∈ t.descendants ↔ ns ≠ [] ∧ Leads t ns u := by
  induction t using DirTree.induction generalizing ns with
  | leaf st h =>
    constructor
    · intro hm
      cases hm
    · rintro ⟨hne, hl⟩
      cases hl
      exact absurd rfl hne
  | dir st h es ih =>
    rw [descendants, mem_descendants_of]
    constructor
    · rintro ⟨n, t, hmem, ⟨rfl, rfl⟩ | ⟨ms, rfl, hms⟩⟩
      · exact ⟨by simp, .step hmem (.here u)⟩
      · exact ⟨by simp, .step hmem ((ih _ hmem ms).mp hms).2⟩
    · rintro ⟨hne, hl⟩
      cases hl with
      | here => exact absurd rfl hne
      | @step _ _ _ n t _ ms hmem hl =>
        refine ⟨n, t, hmem, ?_⟩
        cases ms with
        | nil =>
          cases hl
          exact .inl ⟨rfl, rfl⟩
        | cons m ms => exact .inr ⟨m::ms, rfl, (ih _ hmem _).mpr ⟨by simp, hl⟩⟩

theorem descendants_of_flat_map (es : List (Name × DirTree)) : descendantsOf es =
    es.flatMap (fun e => ([e.1], e.2)::e.2.descendants.map fun d => (e.1::d.1, d.2)) := by
  induction es with
  | nil => rfl
  | cons e es ih => rw [descendantsOf, ih, List.flatMap_cons]

inductive Reordered : List (Name × DirTree) → List (Name × DirTree) → Prop where
  | perm {es es' : List (Name × DirTree)} : es.Perm es' → Reordered es es'
  | inside {es es' : List (Name × DirTree)} (n : Name) (st : Stat) (h)
      (rest : List (Name × DirTree)) : Reordered es es' →
      Reordered ((n, .dir st h es)::rest) ((n, .dir st h es')::rest)
  | trans {es es' es'' : List (Name × DirTree)} : Reordered es es' → Reordered es' es'' →
      Reordered es es''

def statuses (es : List (Name × DirTree)) : List (List Name × Option Stat) :=
  (descendantsOf es).map fun d => (d.1, d.2.status)

theorem statuses_cons (n : Name) (t : DirTree) (es : List (Name × DirTree)) :
    statuses ((n, t)::es) =
      ([n], t.status)::(statuses t.entries).map (fun d => (n::d.1, d.2))++statuses es := by
  cases t <;> simp [statuses, descendantsOf, descendants, entries]

theorem statuses_reordered {es es' : List (Name × DirTree)} (h : Reordered es es') :
    (statuses es).Perm (statuses es') := by
  induction h with
  | perm h =>
    unfold statuses
    rw [descendants_of_flat_map, descendants_of_flat_map]
    exact (h.flatMap_right _).map _
  | inside n st h rest _ ih =>
    rw [statuses_cons, statuses_cons]
    exact ((ih.map _).append_right _).cons _
  | trans _ _ ih₁ ih₂ => exact ih₁.trans ih₂

theorem descendants_nodup {t : DirTree} (h : Distinct t) : (t.descendants.map Prod.fst).Nodup := by
  induction h with
  | leaf => exact List.nodup_nil
  | dir st h es hnd hds ih =>
    rw [descendants]
    clear hds
    induction es with
    | nil => exact List.nodup_nil
    | cons e es ihes =>
      obtain ⟨n, t⟩ := e
      obtain ⟨hn, hnd⟩ := List.nodup_cons.mp hnd
      have hrest := ihes hnd (fun e he => ih e (by simp [he]))
      have hsub := ih (n, t) (by simp)
      have hhead : ∀ ns ∈ (descendantsOf es).map Prod.fst, ∀ ms, ns ≠ n::ms := by
        rintro ns hns ms rfl
        obtain ⟨⟨_, u⟩, hu, rfl⟩ := List.mem_map.mp hns
        obtain ⟨n', t', hmem, hor⟩ := (mem_descendants_of es _ u).mp hu
        have hnn : n' = n := by
          rcases hor with ⟨heq, -⟩ | ⟨_, heq, -⟩
          · exact (List.cons.inj heq).1.symm
          · exact (List.cons.inj heq).1.symm
        exact hn (List.mem_map.mpr ⟨(n', t'), hmem, hnn⟩)
      rw [descendantsOf, List.cons_append, List.map_cons, List.map_append, List.map_map]
      refine List.nodup_cons.mpr ⟨?_, List.nodup_append'.mpr ⟨?_, hrest, ?_⟩⟩
      · rw [List.mem_append, not_or]
        refine ⟨?_, fun hm => hhead _ hm [] rfl⟩
        intro hm
        obtain ⟨⟨ms, u⟩, hu, heq⟩ := List.mem_map.mp hm
        have hms : ms = [] := (List.cons.inj heq).2
        exact ((mem_descendants t ms u).mp hu).1 hms
      · have hmap : t.descendants.map (Prod.fst ∘ fun d => (n::d.1, d.2)) =
            (t.descendants.map Prod.fst).map (n::·) := by rw [List.map_map]; rfl
        rw [hmap]
        exact hsub.map (fun a b hab => (List.cons.inj hab).2)
      · intro ns hns hns'
        obtain ⟨⟨ms, u⟩, -, rfl⟩ := List.mem_map.mp hns
        exact hhead _ hns' ms rfl

theorem statuses_nodup {es : List (Name × DirTree)} (hnd : (es.map Prod.fst).Nodup)
    (hd : ∀ e ∈ es, Distinct e.2) : ((statuses es).map Prod.fst).Nodup := by
  have hroot := descendants_nodup (.dir ⟨.directory, 0, 0, 0, 0⟩ rfl es hnd hd)
  rw [statuses, List.map_map]
  exact hroot

end DirTree

def EndsInSlash (p : Bytes) : Prop := p.getLast? = some slash

instance (p : Bytes) : Decidable (EndsInSlash p) := inferInstanceAs (Decidable (_ = _))

/-- A name at the head of a directory stream is one of the two special names, or
that of the first entry. -/
theorem stream_cons {name : Bytes} {stream : List Bytes} {es : List (Name × DirTree)}
    (h : (name::stream).filter (fun d => d ≠ dot ∧ d ≠ dotdot) = es.map fun e => e.1.bytes) :
    ((name = dot ∨ name = dotdot) ∧
      stream.filter (fun d => d ≠ dot ∧ d ≠ dotdot) = es.map fun e => e.1.bytes) ∨
    (¬ (name = dot ∨ name = dotdot) ∧ ∃ e rest, es = e::rest ∧ name = e.1.bytes ∧
      stream.filter (fun d => d ≠ dot ∧ d ≠ dotdot) = rest.map fun e => e.1.bytes) := by
  by_cases hdot : name = dot ∨ name = dotdot
  · have hskip : ¬ (decide (name ≠ dot ∧ name ≠ dotdot) = true) := by
      rw [decide_eq_true_eq]
      tauto
    rw [List.filter_cons, if_neg hskip] at h
    exact Or.inl ⟨hdot, h⟩
  · have hkeep : decide (name ≠ dot ∧ name ≠ dotdot) = true := by
      rw [decide_eq_true_eq]
      tauto
    rw [List.filter_cons, if_pos hkeep] at h
    cases es with
    | nil => cases h
    | cons e es =>
      obtain ⟨hname, hrest⟩ := List.cons.inj h
      exact Or.inr ⟨hdot, e, es, rfl, hname, hrest⟩

/-- The calls show the tree at the path. A name may be joined to a directory
path by a separator, or directly when the path already ends in one. -/
inductive Names (opendir : Bytes → Option (List Bytes)) (status : Bytes → Option Stat) :
    Bytes → DirTree → Prop where
  | leaf {p : Bytes} {st : Option Stat} {h} : status p = st → Names opendir status p (.leaf st h)
  | dir {p : Bytes} {st : Stat} {h} {es : List (Name × DirTree)} (stream : List Bytes) :
      p ≠ [] → status p = some st → opendir p = some stream →
      stream.filter (fun d => d ≠ dot ∧ d ≠ dotdot) = es.map (fun e => e.1.bytes) →
      (∀ e ∈ es, Names opendir status (p++slash::e.1.bytes) e.2) →
      (EndsInSlash p → ∀ e ∈ es, Names opendir status (p++e.1.bytes) e.2) →
      Names opendir status p (.dir st h es)

end ProgSistema.FileTree
