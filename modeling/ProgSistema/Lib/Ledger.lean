import Mathlib.Tactic

/-!
# A ledger of what has been added and removed

A bounded list that drops all its entries when it is full, and from which any
entry may be taken. The ledger identifies each entry by its place in the order
of additions, so that two equal entries are never confused.
-/

set_option autoImplicit false

namespace ProgSistema

/-- `base` is the number of entries added before the last reset, `present` the
places of those that are there, `removed` the places of those taken. -/
structure Ledger (α : Type*) where
  added : List α
  base : ℕ
  present : List ℕ
  removed : List ℕ
  deriving DecidableEq, Repr

namespace Ledger
variable {α : Type*}

def empty : Ledger α := ⟨[], 0, [], []⟩

def add (cap : ℕ) (x : α) (l : Ledger α) : Ledger α :=
  if l.present.length ≥ cap then
    { l with added := l.added++[x], base := l.added.length, present := [l.added.length] }
  else { l with added := l.added++[x], present := l.present++[l.added.length] }

def take (k : ℕ) (l : Ledger α) : Ledger α :=
  { l with present := l.present.eraseIdx k, removed := l.removed++l.present[k]?.toList }

def remaining (l : Ledger α) : List ℕ :=
  (List.range' l.base (l.added.length-l.base)).filter (· ∉ l.removed)

structure Valid (l : Ledger α) : Prop where
  base : l.base ≤ l.added.length
  present : l.present = l.remaining
  nodup : l.removed.Nodup
  removed : ∀ p ∈ l.removed, p < l.added.length

theorem valid_empty : Valid (empty : Ledger α) :=
  ⟨le_rfl, rfl, List.nodup_nil, fun _ hp => by cases hp⟩

theorem present_lt {l : Ledger α} (h : Valid l) {p : ℕ} (hp : p ∈ l.present) :
    p < l.added.length := by
  rw [h.present] at hp
  have hrange := List.mem_range'_1.mp (List.mem_filter.mp hp).1
  have hbase := h.base
  omega

theorem present_nodup {l : Ledger α} (h : Valid l) : l.present.Nodup := by
  rw [h.present]
  exact (List.nodup_range' ..).filter _

theorem fresh_not_removed {l : Ledger α} (h : Valid l) : l.added.length ∉ l.removed :=
  fun hmem => absurd (h.removed _ hmem) (lt_irrefl _)

theorem valid_add {l : Ledger α} (h : Valid l) (cap : ℕ) (x : α) : Valid (l.add cap x) := by
  have hfresh := fresh_not_removed h
  have hbase := h.base
  have hremoved : ∀ p ∈ l.removed, p < (l.added++[x]).length := by
    intro p hp
    have hlt := h.removed p hp
    rw [List.length_append]
    omega
  unfold add
  split
  · refine ⟨?_, ?_, h.nodup, hremoved⟩
    · show l.added.length ≤ (l.added++[x]).length
      rw [List.length_append]
      omega
    · show [l.added.length] =
        (List.range' l.added.length ((l.added++[x]).length-l.added.length)).filter (· ∉ l.removed)
      rw [List.length_append, Nat.add_sub_cancel_left]
      simp [hfresh]
  · refine ⟨?_, ?_, h.nodup, hremoved⟩
    · show l.base ≤ (l.added++[x]).length
      rw [List.length_append]
      omega
    · show l.present++[l.added.length] =
        (List.range' l.base ((l.added++[x]).length-l.base)).filter (· ∉ l.removed)
      have hlen : (l.added++[x]).length-l.base = l.added.length-l.base+1 := by
        rw [List.length_append, List.length_singleton]
        omega
      have hlast : l.base+(l.added.length-l.base) = l.added.length := by omega
      rw [hlen, List.range'_1_concat, hlast, List.filter_append, h.present, remaining]
      simp [hfresh]

theorem valid_take {l : Ledger α} (h : Valid l) (k : ℕ) : Valid (l.take k) := by
  cases hk : l.present[k]? with
  | none =>
    have hsame : l.take k = l := by
      unfold take
      rw [hk, List.eraseIdx_of_length_le (List.getElem?_eq_none_iff.mp hk)]
      simp
    rw [hsame]
    exact h
  | some p =>
    obtain ⟨hlt, hget⟩ := List.getElem?_eq_some_iff.mp hk
    have hp : p ∈ l.present := List.mem_of_getElem? hk
    have hnot : p ∉ l.removed := by
      rw [h.present] at hp
      simpa using (List.mem_filter.mp hp).2
    refine ⟨h.base, ?_, ?_, ?_⟩
    · show l.present.eraseIdx k = (List.range' l.base (l.added.length-l.base)).filter
        (· ∉ l.removed++l.present[k]?.toList)
      rw [hk, ← (present_nodup h).erase_getElem k hlt, hget, (present_nodup h).erase_eq_filter,
        h.present, remaining, List.filter_filter]
      apply List.filter_congr
      intro q _
      by_cases hq : q = p <;> simp [hq]
    · show (l.removed++l.present[k]?.toList).Nodup
      rw [hk]
      exact h.nodup.append (List.nodup_singleton p) (by simpa using hnot)
    · show ∀ q ∈ l.removed++l.present[k]?.toList, q < l.added.length
      rw [hk]
      intro q hq
      rcases List.mem_append.mp hq with hq | hq
      · exact h.removed q hq
      · rw [List.mem_singleton.mp hq]
        exact present_lt h hp

def Holds (l : Ledger α) (xs : List α) : Prop := xs.map some = l.present.map (l.added[·]?)

theorem holds_length {l : Ledger α} {xs : List α} (h : Holds l xs) :
    l.present.length = xs.length := by
  have hlen := congrArg List.length h
  rw [List.length_map, List.length_map] at hlen
  exact hlen.symm

theorem holds_empty : Holds (empty : Ledger α) [] := rfl

/-- Another addition leaves the entries at the places before it. -/
theorem lookup_append {added : List α} {places : List ℕ} (h : ∀ p ∈ places, p < added.length)
    (x : α) : places.map ((added++[x])[·]?) = places.map (added[·]?) :=
  List.map_congr_left fun p hp => List.getElem?_append_left (h p hp)

theorem removed_add {l : Ledger α} (h : Valid l) (cap : ℕ) (x : α) :
    (l.add cap x).removed.map ((l.add cap x).added[·]?) = l.removed.map (l.added[·]?) := by
  unfold add
  split <;> exact lookup_append h.removed x

theorem holds_add {l : Ledger α} {xs : List α} (hv : Valid l) (h : Holds l xs) (cap : ℕ) (x : α) :
    Holds (l.add cap x) (if xs.length ≥ cap then [x] else xs++[x]) := by
  have hold := lookup_append (fun p hp => present_lt hv hp) x
  have hnew : (l.added++[x])[l.added.length]? = some x := List.getElem?_concat_length
  unfold add
  rw [holds_length h]
  split
  · show [x].map some = [l.added.length].map ((l.added++[x])[·]?)
    rw [List.map_singleton, List.map_singleton, hnew]
  · show (xs++[x]).map some = (l.present++[l.added.length]).map ((l.added++[x])[·]?)
    rw [List.map_append, List.map_append, hold, ← h, List.map_singleton, List.map_singleton, hnew]

theorem holds_take {l : Ledger α} {xs : List α} (h : Holds l xs) (k : ℕ) :
    Holds (l.take k) (xs.eraseIdx k) := by
  show (xs.eraseIdx k).map some = (l.present.eraseIdx k).map (l.added[·]?)
  rw [← List.eraseIdx_map, ← List.eraseIdx_map, h]

/-- The entry at an index is the one added at its place. -/
theorem holds_get {l : Ledger α} {xs : List α} (h : Holds l xs) {k : ℕ} {x : α}
    (hx : xs[k]? = some x) : ∃ p, l.present[k]? = some p ∧ l.added[p]? = some x := by
  have hk := congrArg (·[k]?) h
  simp only [List.getElem?_map, hx] at hk
  obtain ⟨p, hp, hadded⟩ := Option.map_eq_some_iff.mp hk.symm
  exact ⟨p, hp, hadded⟩

theorem read_places {added xs : List α} {places : List ℕ}
    (h : xs.map some = places.map (added[·]?)) : xs = places.filterMap (added[·]?) := by
  have hid := congrArg (List.filterMap id) h
  rw [List.filterMap_map, List.filterMap_map, Function.id_comp, Function.id_comp,
    List.filterMap_some] at hid
  exact hid

/-- No addition is removed twice. -/
theorem removed_subperm {l : Ledger α} (h : Valid l) {xs : List α}
    (hxs : xs.map some = l.removed.map (l.added[·]?)) : xs.Subperm l.added := by
  have hall : l.added = (List.range l.added.length).filterMap (l.added[·]?) :=
    read_places (List.ext_getElem (by simp) (by simp))
  obtain ⟨places, hperm, hsub⟩ :=
    h.nodup.subperm fun p hp => List.mem_range.mpr (h.removed p hp)
  refine ⟨places.filterMap (l.added[·]?), ?_, ?_⟩
  · rw [read_places hxs]
    exact hperm.filterMap _
  · have hfilter := hsub.filterMap (l.added[·]?)
    rwa [← hall] at hfilter

/-- Without a reset, everything has been removed once nothing is there. -/
theorem removed_perm {l : Ledger α} (h : Valid l) {xs : List α}
    (hxs : xs.map some = l.removed.map (l.added[·]?)) (hbase : l.base = 0) (hnone : l.present = []) :
    xs.Perm l.added := by
  refine (removed_subperm h hxs).perm_of_length_le ?_
  have hlen := congrArg List.length hxs
  rw [List.length_map, List.length_map] at hlen
  have hall : List.range l.added.length ⊆ l.removed := by
    intro p hp
    rw [h.present, remaining, hbase, List.filter_eq_nil_iff] at hnone
    have hin := hnone p (by simpa using hp)
    simpa using hin
  have hle := (List.nodup_range.subperm hall).length_le
  rw [List.length_range] at hle
  omega

end Ledger

end ProgSistema
