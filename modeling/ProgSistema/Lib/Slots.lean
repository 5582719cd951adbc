import Mathlib.Data.Finset.Union
import Mathlib.Data.List.FinRange
import Mathlib.Tactic

/-!
# Tables of slots

A table gives each of its slots one value or none. No value stands in two
slots as long as only new values are stored.
-/

set_option autoImplicit false

namespace ProgSistema.Slots

variable {ι κ α : Type*}

def Distinct (t : ι → Option α) : Prop := ∀ i j x, t i = some x → t j = some x → i = j

theorem distinct_none : Distinct fun _ : ι => (none : Option α) := by
  intro i j x hi
  cases hi

/-- Values that stand for others: the table of the others is distinct too. -/
theorem Distinct.bind {t : ι → Option κ} {u : κ → Option α} (ht : Distinct t) (hu : Distinct u) :
    Distinct fun i => (t i).bind u := by
  intro i j x hi hj
  obtain ⟨k, hk, hkx⟩ := Option.bind_eq_some_iff.mp hi
  obtain ⟨l, hl, hlx⟩ := Option.bind_eq_some_iff.mp hj
  cases hu k l x hkx hlx
  exact ht i j k hk hl

section Updates
variable [DecidableEq ι] {t : ι → Option α}

theorem Distinct.put (h : Distinct t) (i : ι) {x : α} (hnew : ∀ j, t j ≠ some x) :
    Distinct (Function.update t i (some x)) := by
  intro j k y hj hk
  by_cases hji : j = i <;> by_cases hki : k = i
  · rw [hji, hki]
  · rw [hji, Function.update_self] at hj
    cases hj
    rw [Function.update_of_ne hki] at hk
    exact absurd hk (hnew k)
  · rw [hki, Function.update_self] at hk
    cases hk
    rw [Function.update_of_ne hji] at hj
    exact absurd hj (hnew j)
  · rw [Function.update_of_ne hji] at hj
    rw [Function.update_of_ne hki] at hk
    exact h j k y hj hk

theorem clear_some {i j : ι} {x : α} :
    Function.update t i none j = some x ↔ j ≠ i ∧ t j = some x := by
  by_cases hji : j = i
  · rw [hji, Function.update_self]
    simp
  · rw [Function.update_of_ne hji]
    simp [hji]

theorem put_some {i j : ι} {x y : α} :
    Function.update t i (some x) j = some y ↔ (j = i ∧ x = y) ∨ (j ≠ i ∧ t j = some y) := by
  by_cases hji : j = i
  · rw [hji, Function.update_self]
    simp
  · rw [Function.update_of_ne hji]
    simp [hji]

theorem Distinct.clear (h : Distinct t) (i : ι) : Distinct (Function.update t i none) := by
  intro j k x hj hk
  exact h j k x (clear_some.mp hj).2 (clear_some.mp hk).2

end Updates

section Occupied
variable [Fintype ι] [DecidableEq α]

def occupied (t : ι → Option α) : Finset α := Finset.univ.biUnion fun i => (t i).toFinset

theorem mem_occupied {t : ι → Option α} {x : α} : x ∈ occupied t ↔ ∃ i, t i = some x := by
  simp [occupied]

theorem occupied_none : occupied (fun _ : ι => (none : Option α)) = ∅ := by
  ext x
  simp [mem_occupied]

variable [DecidableEq ι] {t : ι → Option α} {i : ι} {x : α}

theorem occupied_put (hfree : t i = none) :
    occupied (Function.update t i (some x)) = insert x (occupied t) := by
  ext y
  rw [Finset.mem_insert, mem_occupied, mem_occupied]
  constructor
  · rintro ⟨j, hj⟩
    rcases put_some.mp hj with ⟨-, rfl⟩ | ⟨-, hold⟩
    · exact Or.inl rfl
    · exact Or.inr ⟨j, hold⟩
  · rintro (rfl | ⟨j, hj⟩)
    · exact ⟨i, Function.update_self i _ t⟩
    · refine ⟨j, put_some.mpr (Or.inr ⟨?_, hj⟩)⟩
      rintro rfl
      rw [hfree] at hj
      cases hj

theorem occupied_clear (h : Distinct t) (hi : t i = some x) :
    occupied (Function.update t i none) = (occupied t).erase x := by
  ext y
  rw [Finset.mem_erase, mem_occupied, mem_occupied]
  constructor
  · rintro ⟨j, hj⟩
    obtain ⟨hne, hold⟩ := clear_some.mp hj
    refine ⟨?_, j, hold⟩
    rintro rfl
    exact hne (h j i y hold hi)
  · rintro ⟨hne, j, hj⟩
    refine ⟨j, clear_some.mpr ⟨?_, hj⟩⟩
    rintro rfl
    rw [hi] at hj
    exact hne (Option.some.inj hj).symm

end Occupied

section Arrays
variable {n : ℕ}

def firstFree (t : Fin n → Option α) : Option (Fin n) :=
  (List.finRange n).find? fun i => (t i).isNone

theorem first_free_some {t : Fin n → Option α} {i : Fin n} (h : firstFree t = some i) :
    t i = none := by
  have hfound := List.find?_some h
  exact Option.isNone_iff_eq_none.mp hfound

/-- Without a free slot there are as many values as slots. -/
theorem card_occupied_of_full [DecidableEq α] {t : Fin n → Option α} (h : Distinct t)
    (hfull : firstFree t = none) : (occupied t).card = n := by
  have hsome : ∀ i, ∃ x, t i = some x := by
    intro i
    have hnone := List.find?_eq_none.mp hfull i (List.mem_finRange i)
    rwa [Option.isNone_iff_eq_none, ← ne_eq, Option.ne_none_iff_exists'] at hnone
  choose f hf using hsome
  have himage : occupied t = Finset.univ.image f := by
    ext x
    simp [mem_occupied, hf]
  have hinjective : Function.Injective f := by
    intro i j hij
    exact h i j (f i) (hf i) (hij ▸ hf j)
  rw [himage, Finset.card_image_of_injective _ hinjective, Finset.card_univ, Fintype.card_fin]

def others (t : Fin n → Option α) (i : Fin n) : List (Fin n × α) :=
  (List.finRange n).filterMap fun j => if j = i then none else (t j).map (Prod.mk j)

theorem other_some {t : Fin n → Option α} {i j : Fin n} {p : Fin n × α} :
    (if j = i then none else (t j).map (Prod.mk j)) = some p ↔
      p.1 = j ∧ j ≠ i ∧ t j = some p.2 := by
  obtain ⟨k, x⟩ := p
  by_cases hji : j = i
  · simp [hji]
  · simp only [hji, ↓reduceIte, Option.map_eq_some_iff, Prod.mk.injEq, ne_eq, not_false_eq_true,
      true_and]
    constructor
    · rintro ⟨y, hy, rfl, rfl⟩
      exact ⟨rfl, hy⟩
    · rintro ⟨rfl, hx⟩
      exact ⟨x, hx, rfl, rfl⟩

theorem mem_others {t : Fin n → Option α} {i j : Fin n} {x : α} :
    (j, x) ∈ others t i ↔ j ≠ i ∧ t j = some x := by
  rw [others, List.mem_filterMap]
  constructor
  · rintro ⟨k, -, hk⟩
    obtain ⟨rfl, hslot⟩ := other_some.mp hk
    exact hslot
  · intro hslot
    exact ⟨j, List.mem_finRange j, other_some.mpr ⟨rfl, hslot⟩⟩

/-- What holds of any two of the other slots with a value, in their order. -/
theorem pairwise_others {t : Fin n → Option α} {i : Fin n} {R : Fin n × α → Fin n × α → Prop} :
    (others t i).Pairwise R ↔
      ∀ j k x y, j < k → (j ≠ i ∧ t j = some x) → (k ≠ i ∧ t k = some y) → R (j, x) (k, y) := by
  rw [others, List.pairwise_filterMap, List.finRange, List.pairwise_ofFn]
  constructor
  · intro h j k x y hjk hj hk
    exact h hjk (j, x) (other_some.mpr ⟨rfl, hj⟩) (k, y) (other_some.mpr ⟨rfl, hk⟩)
  · rintro h j k hjk ⟨_, x⟩ hj ⟨_, y⟩ hk
    obtain ⟨rfl, hj⟩ := other_some.mp hj
    obtain ⟨rfl, hk⟩ := other_some.mp hk
    exact h _ _ x y hjk hj hk

theorem others_nodup (t : Fin n → Option α) (i : Fin n) : (others t i).Nodup := by
  apply pairwise_others.mpr
  intro j k x y hjk _ _ heq
  exact hjk.ne (Prod.mk.inj heq).1

end Arrays

end ProgSistema.Slots
