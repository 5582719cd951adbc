import Mathlib.Tactic

/-!
# The filled part of an array

Programs keep a list in the first cells of an array and its length beside it.
The loops below append to the list, keep the elements that pass a test, and
close the gap after a removal, all in place.
-/

set_option autoImplicit false

namespace ProgSistema.ArrayPrefix

variable {α : Type*}

def contents (a : ℕ → α) (n : ℕ) : List α := (List.range n).map a

@[simp] theorem contents_length (a : ℕ → α) (n : ℕ) : (contents a n).length = n := by
  simp [contents]

theorem contents_succ (a : ℕ → α) (n : ℕ) : contents a (n+1) = contents a n++[a n] := by
  rw [contents, List.range_succ, List.map_append]
  rfl

theorem contents_get (a : ℕ → α) (n i : ℕ) (h : i < n) : (contents a n)[i]? = some (a i) := by
  rw [contents, List.getElem?_map, List.getElem?_range h]
  rfl

theorem contents_congr {a b : ℕ → α} {n : ℕ} (h : ∀ i, i < n → a i = b i) :
    contents a n = contents b n :=
  List.map_congr_left fun i hi => h i (List.mem_range.mp hi)

theorem contents_update (a : ℕ → α) (x : α) {n k : ℕ} (h : n ≤ k) :
    contents (Function.update a k x) n = contents a n :=
  contents_congr fun _ hi => Function.update_of_ne (by omega) _ _

theorem contents_set (a : ℕ → α) (x : α) (n k : ℕ) :
    contents (Function.update a k x) n = (contents a n).set k x := by
  apply List.ext_getElem?
  intro i
  by_cases hi : i < n
  · rw [contents_get _ _ i hi, List.getElem?_set, contents_length]
    by_cases hk : k = i
    · subst hk
      rw [Function.update_self, if_pos rfl, if_pos hi]
    · rw [Function.update_of_ne (Ne.symm hk), if_neg hk, contents_get a n i hi]
  · rw [List.getElem?_eq_none (by rw [contents_length]; omega),
      List.getElem?_eq_none (by rw [List.length_set, contents_length]; omega)]

/-- An element that takes the place of another is counted in its place. -/
theorem count_update (p : α → Bool) (a : ℕ → α) (x : α) {n k : ℕ} (h : k < n) :
    (contents (Function.update a k x) n).countP p+(p (a k)).toNat =
      (contents a n).countP p+(p x).toNat := by
  have hlen : k < (contents a n).length := by rwa [contents_length]
  have hget : (contents a n)[k] = a k := by simp [contents]
  have hmem : a k ∈ contents a n := List.mem_map.mpr ⟨k, List.mem_range.mpr h, rfl⟩
  rw [contents_set, List.countP_set hlen, hget]
  cases hold : p (a k)
  · cases p x <;> simp
  · have hpos := List.countP_pos_iff.mpr ⟨a k, hmem, hold⟩
    cases p x <;> simp <;> omega

/-- The element stored behind the list is appended to it. -/
theorem contents_append (a : ℕ → α) (x : α) (n : ℕ) :
    contents (Function.update a n x) (n+1) = contents a n++[x] := by
  rw [contents_succ, contents_update a x le_rfl, Function.update_self]

def keepOne (keep : α → Bool) (s : (ℕ → α) × ℕ) (i : ℕ) : (ℕ → α) × ℕ :=
  if keep (s.1 i) then (Function.update s.1 s.2 (s.1 i), s.2+1) else s

/-- The loop moves the elements that pass to the front; its result is the
array and their number. -/
def compact (keep : α → Bool) (a : ℕ → α) (n : ℕ) : (ℕ → α) × ℕ :=
  (List.range n).foldl (keepOne keep) (a, 0)

theorem compact_succ (keep : α → Bool) (a : ℕ → α) (n : ℕ) :
    compact keep a (n+1) = keepOne keep (compact keep a n) n := by
  unfold compact
  rw [List.range_succ, List.foldl_append]
  rfl

/-- The elements already moved lie before the next one to be read. -/
theorem compact_spec (keep : α → Bool) (a : ℕ → α) (n : ℕ) :
    (compact keep a n).2 ≤ n ∧ (∀ i, n ≤ i → (compact keep a n).1 i = a i) ∧
      contents (compact keep a n).1 (compact keep a n).2 = (contents a n).filter keep := by
  induction n with
  | zero => exact ⟨le_rfl, fun _ _ => rfl, rfl⟩
  | succ n ih =>
    obtain ⟨hle, hrest, hkept⟩ := ih
    have hread := hrest n le_rfl
    rw [compact_succ, keepOne, hread, contents_succ, List.filter_append, ← hkept]
    by_cases hn : keep (a n) = true
    · rw [if_pos hn, List.filter_cons_of_pos hn]
      refine ⟨by omega, ?_, contents_append _ _ _⟩
      intro i hi
      have hne : i ≠ (compact keep a n).2 := by omega
      exact (Function.update_of_ne hne _ _).trans (hrest i (by omega))
    · rw [if_neg hn, List.filter_cons_of_neg hn, List.filter_nil, List.append_nil]
      exact ⟨by omega, fun i hi => hrest i (by omega), rfl⟩

theorem compact_contents (keep : α → Bool) (a : ℕ → α) (n : ℕ) :
    contents (compact keep a n).1 (compact keep a n).2 = (contents a n).filter keep :=
  (compact_spec keep a n).2.2

theorem compact_le (keep : α → Bool) (a : ℕ → α) (n : ℕ) : (compact keep a n).2 ≤ n :=
  (compact_spec keep a n).1

def shiftDown (a : ℕ → α) (index m : ℕ) : ℕ → α :=
  (List.range' index m).foldl (fun a i => Function.update a i (a (i+1))) a

theorem shift_down_apply (a : ℕ → α) (index m i : ℕ) :
    shiftDown a index m i = if index ≤ i ∧ i < index+m then a (i+1) else a i := by
  induction m generalizing i with
  | zero =>
    rw [if_neg (by omega)]
    rfl
  | succ m ih =>
    unfold shiftDown at ih ⊢
    rw [List.range'_1_concat, List.foldl_append, List.foldl_cons, List.foldl_nil]
    by_cases hi : i = index+m
    · subst hi
      rw [Function.update_self, ih, if_neg (by omega), if_pos (by omega)]
    · rw [Function.update_of_ne hi, ih]
      congr 1
      simp only [eq_iff_iff]
      omega

/-- Moving the elements after an index down removes the one at the index. -/
theorem shift_down_contents (a : ℕ → α) (index n : ℕ) (h : index < n) :
    contents (shiftDown a index (n-1-index)) (n-1) = (contents a n).eraseIdx index := by
  apply List.ext_getElem?
  intro i
  rw [List.getElem?_eraseIdx]
  by_cases hi : i < n-1
  · rw [contents_get _ _ _ hi, shift_down_apply]
    by_cases hindex : index ≤ i
    · rw [if_pos ⟨hindex, by omega⟩, if_neg (by omega), contents_get a n (i+1) (by omega)]
    · rw [if_neg (by omega), if_pos (by omega), contents_get a n i (by omega)]
  · rw [List.getElem?_eq_none (by rw [contents_length]; omega)]
    rw [if_neg (by omega), List.getElem?_eq_none (by rw [contents_length]; omega)]

def write (a : ℕ → α) (pos : ℕ) (b : List α) : ℕ → α := fun i =>
  if pos ≤ i then (b[i-pos]?).getD (a i) else a i

theorem contents_write_before (a : ℕ → α) (b : List α) {n pos : ℕ} (h : n ≤ pos) :
    contents (write a pos b) n = contents a n :=
  contents_congr fun _ hi => if_neg (by omega)

/-- Elements copied behind the list are appended to it. -/
theorem contents_write (a : ℕ → α) (pos : ℕ) (b : List α) :
    contents (write a pos b) (pos+b.length) = contents a pos++b := by
  apply List.ext_getElem?
  intro i
  by_cases hi : i < pos+b.length
  · rw [contents_get _ _ i hi]
    by_cases hpos : i < pos
    · rw [List.getElem?_append_left (by rwa [contents_length]), contents_get a pos i hpos]
      exact congrArg some (if_neg (by omega))
    · rw [List.getElem?_append_right (by rw [contents_length]; omega), contents_length,
        List.getElem?_eq_getElem (by omega)]
      have hwritten : write a pos b i = (b[i-pos]?).getD (a i) := if_pos (by omega)
      rw [hwritten, List.getElem?_eq_getElem (by omega), Option.getD_some]
  · rw [List.getElem?_eq_none (by rw [contents_length]; omega),
      List.getElem?_eq_none (by rw [List.length_append, contents_length]; omega)]

def slice (a : ℕ → α) (pos len : ℕ) : List α := (List.range' pos len).map a

@[simp] theorem slice_length (a : ℕ → α) (pos len : ℕ) : (slice a pos len).length = len := by
  simp [slice]

theorem contents_add (a : ℕ → α) (pos len : ℕ) :
    contents a (pos+len) = contents a pos++slice a pos len := by
  have hrange : List.range (pos+len) = List.range pos++List.range' pos len := by
    rw [List.range_eq_range', List.range_eq_range', ← List.range'_append_1, zero_add]
  rw [contents, hrange, List.map_append]
  rfl

/-- Two arrays with the same list have the same elements in its places. -/
theorem get_of_contents {a b : ℕ → α} {n : ℕ} (h : contents a n = contents b n) {i : ℕ}
    (hi : i < n) : a i = b i := by
  have hget := contents_get a n i hi
  rw [h, contents_get b n i hi] at hget
  exact (Option.some.inj hget).symm

end ProgSistema.ArrayPrefix
