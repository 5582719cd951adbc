import ProgSistema.HashedDatabase.Search

/-!
# The room that records take

Where all keys have one length and all data have one length, the data file has a line
for each key of the table and for each free record.
-/

set_option autoImplicit false

namespace ProgSistema.HashedDatabase
open CRuntime RecordLayout

variable {L L' : Layout} {m : Bytes → Option Bytes} {key data d dat dat' : Bytes} {σ : Slot}
  {n l live live' : ℕ}

def keysOf (m : Bytes → Option Bytes) : Set Bytes := {k | (m k).isSome = true}

noncomputable def count (m : Bytes → Option Bytes) : ℕ := (keysOf m).ncard

theorem keys_put (m : Bytes → Option Bytes) (key data : Bytes) :
    keysOf (Function.update m key (some data)) = insert key (keysOf m) := by
  ext k
  by_cases hk : k = key
  · simp [keysOf, hk]
  · simp [keysOf, hk]

theorem keys_removed (m : Bytes → Option Bytes) (key : Bytes) :
    keysOf (Function.update m key none) = keysOf m \ {key} := by
  ext k
  by_cases hk : k = key
  · simp [keysOf, hk]
  · simp [keysOf, hk]

theorem count_new (hm : (keysOf m).Finite) (hkey : m key = none) (data : Bytes) :
    count (Function.update m key (some data)) = count m+1 := by
  have hno : key ∉ keysOf m := by simp [keysOf, hkey]
  rw [count, keys_put, Set.ncard_insert_of_notMem hno hm, count]

theorem count_replaced (hkey : m key = some d) (data : Bytes) :
    count (Function.update m key (some data)) = count m := by
  have hmem : key ∈ keysOf m := by simp [keysOf, hkey]
  rw [count, keys_put, Set.insert_eq_of_mem hmem, count]

theorem count_removed (hm : (keysOf m).Finite) (hkey : m key = some d) :
    count m = count (Function.update m key none)+1 := by
  have hmem : key ∈ keysOf m := by simp [keysOf, hkey]
  rw [count, count, keys_removed, Set.ncard_sdiff_singleton_add_one hmem hm]

structure Balanced (n l live : ℕ) (L : Layout) (dat : Bytes) : Prop where
  even : ∀ o σ, L.slot o = some σ → σ.key.length = n ∧ σ.data.length = l
  size : dat.length = (l+1)*((L.chain none).length+live)

def Spends (n l : ℕ) (L L' : Layout) (dat dat' : Bytes) (live live' : ℕ) : Prop :=
  Balanced n l live L dat → Balanced n l live' L' dat' ∧
    (dat'.length = dat.length ∨ L'.chain none = [] ∧ dat.length ≤ dat'.length)

theorem spends_refl (n l : ℕ) (L : Layout) (dat : Bytes) (live : ℕ) :
    Spends n l L L dat dat live live := fun h => ⟨h, Or.inl rfl⟩

theorem even_update {slot : ℕ → Option Slot} {o : ℕ}
    (h : ∀ i τ, slot i = some τ → τ.key.length = n ∧ τ.data.length = l)
    (hkey : σ.key.length = n) (hdata : σ.data.length = l) (i : ℕ) (τ : Slot)
    (hτ : Function.update slot o (some σ) i = some τ) :
    τ.key.length = n ∧ τ.data.length = l := by
  by_cases hio : i = o
  · subst hio
    rw [Function.update_self] at hτ
    cases hτ
    exact ⟨hkey, hdata⟩
  · rw [Function.update_of_ne hio] at hτ
    exact h i τ hτ

end ProgSistema.HashedDatabase
