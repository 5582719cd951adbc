import Mathlib.Tactic

/-!
# The owner of a mutex

Which threads are inside follows from their positions, and the mutex names its
owner. The two agree while each thread that enters finds the mutex free and
takes it, and each thread that leaves releases it.
-/

set_option autoImplicit false

namespace ProgSistema.Mutex

variable {ι : Type*}

def Owned (inside : ι → Bool) (mutex : Option ι) : Prop := ∀ i, inside i = true ↔ mutex = some i

inductive Passes (i : ι) (old new : Bool) (mutex mutex' : Option ι) : Prop where
  | keeps (hinside : new = old) (hmutex : mutex' = mutex)
  | takes (hfree : mutex = none) (hnew : new = true) (hmutex : mutex' = some i)
  | releases (hold : old = true) (hnew : new = false) (hmutex : mutex' = none)

theorem owned_free {inside : ι → Bool} (h : ∀ i, inside i = false) : Owned inside none := by
  intro i
  rw [h i]
  exact iff_of_false Bool.false_ne_true (Option.some_ne_none i).symm

variable {inside : ι → Bool} {mutex mutex' : Option ι} (ho : Owned inside mutex)
include ho

theorem owned_unique {i j : ι} (hi : inside i = true) (hj : inside j = true) : i = j :=
  Option.some.inj (((ho i).mp hi).symm.trans ((ho j).mp hj))

theorem owned_outside {i j : ι} (hi : inside i = true) (hj : j ≠ i) : inside j = false := by
  by_contra h
  exact hj (owned_unique ho (by simpa using h) hi)

theorem owned_none (hfree : mutex = none) (i : ι) : inside i = false := by
  by_contra h
  have howner := (ho i).mp (by simpa using h)
  rw [hfree] at howner
  cases howner

theorem owned_step [DecidableEq ι] {i : ι} {new : Bool}
    (h : Passes i (inside i) new mutex mutex') : Owned (Function.update inside i new) mutex' := by
  apply (Function.forall_update_iff inside fun j b => b = true ↔ mutex' = some j).mpr
  cases h with
  | keeps hinside hmutex =>
    rw [hinside, hmutex]
    exact ⟨ho i, fun j _ => ho j⟩
  | takes hfree hnew hmutex =>
    rw [hnew, hmutex]
    refine ⟨iff_of_true rfl rfl, fun j hj => ?_⟩
    rw [owned_none ho hfree j]
    exact iff_of_false Bool.false_ne_true fun h => hj (Option.some.inj h).symm
  | releases hold hnew hmutex =>
    rw [hnew, hmutex]
    refine ⟨iff_of_false Bool.false_ne_true (Option.some_ne_none i).symm, fun j hj => ?_⟩
    rw [owned_outside ho hold hj]
    exact iff_of_false Bool.false_ne_true (Option.some_ne_none j).symm

end ProgSistema.Mutex
