import Mathlib.Tactic

/-!
# Circular buffers

A window of a circular array is the list of the cells met when reading on
from an index, wrapping at the end. Writing the first cell after a window
that leaves room extends it at the back; moving the read index past its first
cell shortens it at the front.
-/

set_option autoImplicit false

namespace ProgSistema.Ring

theorem add_mod_ne {n read i j : ℕ} (hij : i < j) (hj : j < n) : (read+i) % n ≠ (read+j) % n := by
  intro h
  have hmod : (j-i) % n = 0 := by
    have hsub := (Nat.modEq_iff_dvd' (by omega : read+i ≤ read+j)).mp h
    rw [show read+j-(read+i) = j-i by omega] at hsub
    exact Nat.mod_eq_zero_of_dvd hsub
  rw [Nat.mod_eq_of_lt (by omega)] at hmod
  omega

variable {α : Type*} {n : ℕ} [NeZero n]

def window (cells : Fin n → α) (read count : ℕ) : List α :=
  (List.range count).map fun i => cells (Fin.ofNat n (read+i))

@[simp] theorem window_length (cells : Fin n → α) (read count : ℕ) :
    (window cells read count).length = count := by
  simp [window]

/-- The cell behind a window that does not fill the array is outside it. -/
theorem window_push (cells : Fin n → α) (read count : ℕ) (h : count < n) (x : α) :
    window (Function.update cells (Fin.ofNat n (read+count)) x) read (count+1) =
      window cells read count++[x] := by
  rw [window, List.range_succ, List.map_append, List.map_singleton, Function.update_self]
  congr 1
  apply List.map_congr_left
  intro i hi
  have hne : Fin.ofNat n (read+i) ≠ Fin.ofNat n (read+count) := by
    intro heq
    exact add_mod_ne (List.mem_range.mp hi) h (Fin.mk.inj heq)
  exact Function.update_of_ne hne _ _

theorem window_pop (cells : Fin n → α) (read count : ℕ) :
    window cells read (count+1) =
      cells (Fin.ofNat n read)::window cells ((read+1) % n) count := by
  rw [window, List.range_succ_eq_map, List.map_cons, List.map_map]
  congr 1
  apply List.map_congr_left
  intro i _
  have hidx : (Fin.ofNat n (read+(i+1)) : Fin n) = Fin.ofNat n ((read+1) % n+i) := by
    apply Fin.ext
    show (read+(i+1)) % n = ((read+1) % n+i) % n
    rw [Nat.mod_add_mod, show read+(i+1) = read+1+i by omega]
  show cells (Fin.ofNat n (read+(i+1))) = _
  rw [hidx]

end ProgSistema.Ring
