import Mathlib.Algebra.BigOperators.Group.Finset.Basic
import Mathlib.Tactic

/-!
# Charging each key once

A tally goes through a sequence of items with a bounded table of the keys it
has met. An item whose key is in the table is skipped; any other item is
charged and its key is recorded while the table has room. With room for all
the keys the total is a sum over the set of keys, whatever the order. In any
case the table holds the first keys, and the total differs from the sum over a
set of goods by what is missed of them and what is charged again.
-/

set_option autoImplicit false

namespace ProgSistema.Tally

section
variable {κ ι M : Type*} [DecidableEq κ] [AddCommMonoid M]

structure State (κ M : Type*) where
  seen : List κ
  total : M

def record (cap : ℕ) (seen : List κ) (k : κ) : List κ :=
  if k ∉ seen ∧ seen.length < cap then seen++[k] else seen

def charge (cap : ℕ) (key : ι → κ) (amount : ι → M) (s : State κ M) (x : ι) : State κ M where
  seen := record cap s.seen (key x)
  total := if key x ∈ s.seen then s.total else s.total+amount x

theorem to_finset_concat (l : List κ) (k : κ) : (l++[k]).toFinset = insert k l.toFinset := by
  ext a
  simp

structure Charged (key : ι → κ) (value : κ → M) (xs : List ι) (s : State κ M) : Prop where
  nodup : s.seen.Nodup
  keys : s.seen.toFinset = (xs.map key).toFinset
  total : s.total = ∑ k ∈ (xs.map key).toFinset, value k

theorem charge_charged {key : ι → κ} {amount : ι → M} {value : κ → M} {cap : ℕ} {xs : List ι}
    {s : State κ M} (h : Charged key value xs s) (x : ι) (hx : amount x = value (key x))
    (hcap : ((xs++[x]).map key).toFinset.card ≤ cap) :
    Charged key value (xs++[x]) (charge cap key amount s x) := by
  have hset : ((xs++[x]).map key).toFinset = insert (key x) (xs.map key).toFinset := by
    rw [List.map_append]
    exact to_finset_concat _ _
  rw [hset] at hcap
  by_cases hmem : key x ∈ s.seen
  · have hkey : key x ∈ (xs.map key).toFinset := by rw [← h.keys]; exact List.mem_toFinset.mpr hmem
    have hsame : insert (key x) (xs.map key).toFinset = (xs.map key).toFinset :=
      Finset.insert_eq_of_mem hkey
    have hcharge : charge cap key amount s x = s := by
      simp [charge, record, hmem]
    rw [hcharge]
    exact ⟨h.nodup, by rw [hset, hsame, h.keys], by rw [hset, hsame, h.total]⟩
  · have hkey : key x ∉ (xs.map key).toFinset := by
      rw [← h.keys]
      exact fun hm => hmem (List.mem_toFinset.mp hm)
    have hroom : s.seen.length < cap := by
      rw [Finset.card_insert_of_notMem hkey, ← h.keys, List.toFinset_card_of_nodup h.nodup] at hcap
      exact hcap
    refine ⟨?_, ?_, ?_⟩
    · rw [charge, record, if_pos ⟨hmem, hroom⟩]
      exact List.nodup_append'.mpr ⟨h.nodup, List.nodup_singleton _, by simpa using hmem⟩
    · rw [charge, record, if_pos ⟨hmem, hroom⟩, hset, ← h.keys]
      exact to_finset_concat _ _
    · rw [charge, if_neg hmem, hset, Finset.sum_insert hkey, h.total, hx, add_comm]

theorem charged_nil (key : ι → κ) (value : κ → M) : Charged key value [] ⟨[], 0⟩ :=
  ⟨List.nodup_nil, rfl, rfl⟩

/-- With room for every key, each key is recorded once and charged once. -/
theorem foldl_charged (cap : ℕ) (key : ι → κ) (amount : ι → M) (value : κ → M) (xs : List ι)
    (hx : ∀ x ∈ xs, amount x = value (key x)) (hcap : (xs.map key).toFinset.card ≤ cap) :
    Charged key value xs (xs.foldl (charge cap key amount) ⟨[], 0⟩) := by
  induction xs using List.reverseRecOn with
  | nil => exact charged_nil key value
  | append_singleton xs x ih =>
    have hsub : (xs.map key).toFinset ⊆ ((xs++[x]).map key).toFinset := by
      rw [List.map_append, List.toFinset_append]
      exact Finset.subset_union_left
    rw [List.foldl_append]
    exact charge_charged (ih (fun y hy => hx y (by simp [hy])) ((Finset.card_le_card hsub).trans hcap))
      x (hx x (by simp)) hcap

def firstKeys (ks : List κ) : List κ := ks.reverse.dedup.reverse

theorem first_keys_concat (ks : List κ) (k : κ) : firstKeys (ks++[k]) =
    if k ∈ ks then firstKeys ks else firstKeys ks++[k] := by
  unfold firstKeys
  rw [List.reverse_append, List.reverse_singleton, List.singleton_append]
  split
  · rename_i hmem
    rw [List.dedup_cons_of_mem (List.mem_reverse.mpr hmem)]
  · rename_i hmem
    rw [List.dedup_cons_of_notMem (fun h => hmem (List.mem_reverse.mp h)), List.reverse_cons]

theorem mem_first_keys (ks : List κ) (k : κ) : k ∈ firstKeys ks ↔ k ∈ ks := by
  simp [firstKeys]

/-- The table holds the keys that came first. -/
theorem record_first (cap : ℕ) (ks : List κ) (k : κ) :
    record cap ((firstKeys ks).take cap) k = (firstKeys (ks++[k])).take cap := by
  rw [first_keys_concat, record]
  by_cases hroom : (firstKeys ks).length < cap
  · have hall : (firstKeys ks).take cap = firstKeys ks :=
      List.take_of_length_le hroom.le
    rw [hall]
    by_cases hmem : k ∈ ks
    · rw [if_neg (fun h => h.1 ((mem_first_keys ks k).mpr hmem)), if_pos hmem, hall]
    · rw [if_pos ⟨fun h => hmem ((mem_first_keys ks k).mp h), hroom⟩, if_neg hmem]
      refine (List.take_of_length_le ?_).symm
      rw [List.length_append, List.length_singleton]
      omega
  · have hfull : ((firstKeys ks).take cap).length = cap := by
      rw [List.length_take]
      omega
    rw [if_neg (fun h => by omega)]
    split
    · rfl
    · rw [List.take_append_of_le_length (by omega)]

def chargedAfter (cap : ℕ) (key : ι → κ) : List κ → List ι → List ι
  | _, [] => []
  | before, x::xs =>
    if key x ∈ (firstKeys before).take cap then chargedAfter cap key (before++[key x]) xs
    else x::chargedAfter cap key (before++[key x]) xs

theorem charged_after_total (cap : ℕ) (key : ι → κ) (amount : ι → M) (before : List κ)
    (xs : List ι) (total : M) :
    (xs.foldl (charge cap key amount) ⟨(firstKeys before).take cap, total⟩).total =
      total+((chargedAfter cap key before xs).map amount).sum := by
  induction xs generalizing before total with
  | nil => simp [chargedAfter]
  | cons x xs ih =>
    rw [List.foldl_cons, charge, chargedAfter]
    dsimp only
    rw [record_first, ih]
    split
    · rfl
    · rw [List.map_cons, List.sum_cons, add_assoc]

theorem charged_after_subset (cap : ℕ) (key : ι → κ) (before : List κ) (xs : List ι) :
    (chargedAfter cap key before xs).Sublist xs := by
  induction xs generalizing before with
  | nil => exact List.Sublist.refl _
  | cons x xs ih =>
    rw [chargedAfter]
    split
    · exact (ih _).cons x
    · exact (ih _).cons_cons x

theorem charged_after_append (cap : ℕ) (key : ι → κ) (before : List κ) (xs ys : List ι) :
    chargedAfter cap key before (xs++ys) =
      chargedAfter cap key before xs++chargedAfter cap key (before++xs.map key) ys := by
  induction xs generalizing before with
  | nil => rw [List.map_nil, List.append_nil, List.nil_append, chargedAfter, List.nil_append]
  | cons x xs ih =>
    have hnext : before++(x::xs).map key = before++[key x]++xs.map key := by simp
    rw [List.cons_append, chargedAfter, chargedAfter, hnext, ih]
    split
    · rfl
    · rfl

/-- A key that is recorded is charged once, and any other whenever it comes. -/
theorem charged_count (cap : ℕ) (ks : List κ) (k : κ) : (chargedAfter cap id [] ks).count k =
    if k ∈ (firstKeys ks).take cap then 1 else ks.count k := by
  induction ks using List.reverseRecOn with
  | nil => simp [chargedAfter, firstKeys]
  | append_singleton ks x ih =>
    rw [charged_after_append, List.count_append, List.count_append, ih, List.map_id,
      List.nil_append, ← record_first, chargedAfter, chargedAfter, id_eq]
    by_cases hx : x ∈ (firstKeys ks).take cap
    · have hrecord : record cap ((firstKeys ks).take cap) x = (firstKeys ks).take cap :=
        if_neg fun h => h.1 hx
      rw [hrecord, if_pos hx, List.count_nil, add_zero]
      by_cases hk : k ∈ (firstKeys ks).take cap
      · rw [if_pos hk, if_pos hk]
      · have hne : k ≠ x := fun h => hk (h ▸ hx)
        rw [if_neg hk, if_neg hk, List.count_eq_zero_of_not_mem (l := [x]) (by simpa using hne),
          add_zero]
    · rw [if_neg hx]
      by_cases hroom : ((firstKeys ks).take cap).length < cap
      · have hrecord : record cap ((firstKeys ks).take cap) x = (firstKeys ks).take cap++[x] :=
          if_pos ⟨hx, hroom⟩
        have hall : (firstKeys ks).take cap = firstKeys ks := by
          rw [List.length_take] at hroom
          exact List.take_of_length_le (by omega)
        rw [hrecord]
        by_cases hkx : k = x
        · subst hkx
          have hfresh : k ∉ ks := by
            rw [hall, mem_first_keys] at hx
            exact hx
          rw [if_neg hx, if_pos (by simp), List.count_eq_zero_of_not_mem hfresh,
            List.count_singleton_self]
        · have hmem : k ∈ (firstKeys ks).take cap++[x] ↔ k ∈ (firstKeys ks).take cap := by
            simp [hkx]
          have hcount : [x].count k = 0 := List.count_eq_zero_of_not_mem (by simpa using hkx)
          simp only [hmem, hcount, add_zero]
      · have hrecord : record cap ((firstKeys ks).take cap) x = (firstKeys ks).take cap :=
          if_neg fun h => hroom h.2
        rw [hrecord]
        by_cases hk : k ∈ (firstKeys ks).take cap
        · have hne : k ≠ x := fun h => hx (h ▸ hk)
          rw [if_pos hk, if_pos hk, List.count_eq_zero_of_not_mem (by simpa using hne)]
        · rw [if_neg hk, if_neg hk]

/-- As many charges as keys are made exactly if no key comes again that is not
recorded. -/
theorem charged_length_iff (cap : ℕ) (ks : List κ) :
    (chargedAfter cap id [] ks).length = ks.toFinset.card ↔
      ∀ k ∈ ks, k ∉ (firstKeys ks).take cap → ks.count k = 1 := by
  have hpos : ∀ k ∈ ks, 1 ≤ (chargedAfter cap id [] ks).count k := by
    intro k hk
    rw [charged_count]
    split
    · exact le_rfl
    · exact List.count_pos_iff.mpr hk
  have hset : (chargedAfter cap id [] ks).toFinset = ks.toFinset := by
    ext k
    rw [List.mem_toFinset, List.mem_toFinset]
    exact ⟨fun h => (charged_after_subset cap id [] ks).subset h,
      fun h => List.count_pos_iff.mp (hpos k h)⟩
  rw [← List.sum_toFinset_count_eq_length, hset, Finset.card_eq_sum_ones, eq_comm,
    Finset.sum_eq_sum_iff_of_le fun k hk => hpos k (List.mem_toFinset.mp hk)]
  constructor
  · intro h k hk hnot
    have hone := h k (List.mem_toFinset.mpr hk)
    rw [charged_count, if_neg hnot] at hone
    exact hone.symm
  · intro h k hk
    rw [charged_count]
    split
    · rfl
    · exact (h k (List.mem_toFinset.mp hk) ‹_›).symm

end

section
variable {γ : Type*} [DecidableEq γ] (price : γ → ℤ)

def missed (goods : Finset γ) (charged : List γ) : ℤ := ∑ g ∈ goods \ charged.toFinset, price g

def repeated (charged : List γ) : ℤ := ∑ g ∈ charged.toFinset, ((charged.count g : ℤ)-1)*price g

theorem charged_balance {goods : Finset γ} {charged : List γ} (h : charged.toFinset ⊆ goods) :
    (charged.map price).sum + missed price goods charged =
      ∑ g ∈ goods, price g + repeated price charged := by
  have hsum : (charged.map price).sum = ∑ g ∈ charged.toFinset, (charged.count g : ℤ)*price g := by
    rw [Finset.sum_list_map_count]
    refine Finset.sum_congr rfl fun g _ => ?_
    rw [nsmul_eq_mul]
  have hsplit : ∑ g ∈ charged.toFinset, (charged.count g : ℤ)*price g =
      ∑ g ∈ charged.toFinset, price g + repeated price charged := by
    rw [repeated, ← Finset.sum_add_distrib]
    refine Finset.sum_congr rfl fun g _ => ?_
    ring
  rw [hsum, hsplit, missed, ← Finset.sum_sdiff h]
  ring

end

end ProgSistema.Tally
