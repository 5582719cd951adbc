import Mathlib.Tactic

/-!
# A pass over a list that overwrites it

The pass keeps the number of times that the last element has been repeated,
replaces each element that it has treated by a filler, and notes the positions
that it is looking for. Positions count from one.
-/

set_option autoImplicit false

namespace ProgSistema.OnePass

variable {α : Type*}

section
variable [DecidableEq α]

def repeats (l : List α) : ℕ → ℕ
  | 0 => 0
  | 1 => 0
  | n+2 => if l[n]? = l[n+1]? then repeats l (n+1)+1 else 0

theorem repeats_succ (l : List α) {n : ℕ} (h : 1 ≤ n) :
    repeats l (n+1) = if l[n-1]? = l[n]? then repeats l n+1 else 0 := by
  cases n with
  | zero => exact absurd h (by decide)
  | succ n => rfl

theorem repeats_lt (l : List α) {n : ℕ} (h : 1 ≤ n) : repeats l n < n := by
  induction n, h using Nat.le_induction with
  | base => exact Nat.one_pos
  | succ n hn ih =>
    rw [repeats_succ l hn]
    split <;> omega

theorem succ_le_repeats (l : List α) (k n : ℕ) :
    k+1 ≤ repeats l n ↔ 2 ≤ n ∧ l[n-2]? = l[n-1]? ∧ k ≤ repeats l (n-1) := by
  cases n with
  | zero => simp [repeats]
  | succ n =>
    cases n with
    | zero => simp [repeats]
    | succ n =>
      rw [repeats_succ l (by omega), Nat.add_sub_cancel]
      by_cases heq : l[n]? = l[n+1]?
      · rw [if_pos heq]
        simp [heq]
      · rw [if_neg heq]
        simp [heq]

/-- The last of the first `n` elements ends three equal ones. -/
theorem two_le_repeats (l : List α) (n : ℕ) :
    2 ≤ repeats l n ↔ 3 ≤ n ∧ l[n-3]? = l[n-2]? ∧ l[n-2]? = l[n-1]? := by
  rw [succ_le_repeats l 1, succ_le_repeats l 0, show n-1-2 = n-3 by omega,
    show n-1-1 = n-2 by omega]
  constructor
  · rintro ⟨-, hlast, hn, hfirst, -⟩
    exact ⟨by omega, hfirst, hlast⟩
  · rintro ⟨hn, hfirst, hlast⟩
    exact ⟨by omega, hlast, by omega, hfirst, Nat.zero_le _⟩

end

def overwritten (filler : α) (l : List α) (n : ℕ) : List α := List.replicate n filler++l.drop n

theorem overwritten_one (filler x : α) (l : List α) :
    overwritten filler (x::l) 1 = filler::l := rfl

theorem overwritten_get (filler : α) (l : List α) (n : ℕ) :
    (overwritten filler l n)[n]? = l[n]? := by
  rw [overwritten, List.getElem?_append_right (by simp), List.length_replicate, Nat.sub_self,
    List.getElem?_drop, Nat.add_zero]

theorem overwritten_take (filler : α) (l : List α) {k n : ℕ} (h : k ≤ n) :
    (overwritten filler l n).take k = List.replicate k filler := by
  rw [overwritten, List.take_append_of_le_length (by simpa using h), List.take_replicate,
    min_eq_left h]

/-- The element behind those that have been overwritten is the next one. -/
theorem overwritten_set (filler : α) (l : List α) {n : ℕ} (h : n < l.length) :
    (overwritten filler l n).set n filler = overwritten filler l (n+1) := by
  rw [overwritten, List.set_append_right _ _ (by simp), List.length_replicate, Nat.sub_self,
    List.drop_eq_getElem_cons h, List.set_cons_zero, overwritten, List.replicate_succ',
    List.append_assoc]
  rfl

section
variable (p : ℕ → Prop) [DecidablePred p]

def positions (n : ℕ) : List ℕ := (List.range' 1 n).filter fun i => p i

theorem positions_succ (n : ℕ) :
    positions p (n+1) = if p (n+1) then positions p n++[n+1] else positions p n := by
  rw [positions, List.range'_1_concat, List.filter_append, Nat.add_comm 1 n]
  by_cases h : p (n+1)
  · rw [if_pos h, List.filter_cons_of_pos (by simpa using h)]
    rfl
  · rw [if_neg h, List.filter_cons_of_neg (by simpa using h)]
    exact List.append_nil _

variable {p}

theorem position_found {i n : ℕ} (h : i ∈ positions p n) : p i := by
  simpa using (List.mem_filter.mp h).2

end

end ProgSistema.OnePass
