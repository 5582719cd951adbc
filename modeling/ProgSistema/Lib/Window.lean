import Mathlib.Tactic

/-!
# Elements since a moment

A store that drops old elements shows the same recent ones as the full
history, as long as its limit is not behind the one asked about.
-/

set_option autoImplicit false

namespace ProgSistema.Window

variable {α : Type*} (time : α → ℤ)

def recent (limit : ℤ) (xs : List α) : List α := xs.filter fun x => limit ≤ time x

theorem recent_append (limit : ℤ) (xs ys : List α) :
    recent time limit (xs++ys) = recent time limit xs++recent time limit ys :=
  List.filter_append _ _

theorem recent_recent {limit limit' : ℤ} (h : limit ≤ limit') (xs : List α) :
    recent time limit' (recent time limit xs) = recent time limit' xs := by
  unfold recent
  rw [List.filter_filter]
  apply List.filter_congr
  intro x _
  simp only [← Bool.decide_and, decide_eq_decide]
  omega

/-- Two histories that agree since a moment agree since any later one. -/
theorem recent_later {limit limit' : ℤ} (h : limit ≤ limit') {xs ys : List α}
    (heq : recent time limit xs = recent time limit ys) :
    recent time limit' xs = recent time limit' ys := by
  rw [← recent_recent time h xs, heq, recent_recent time h ys]

theorem count_recent (p : α → Bool) (limit : ℤ) (xs : List α) :
    (recent time limit xs).countP p = xs.countP fun x => p x ∧ limit ≤ time x := by
  unfold recent
  rw [List.countP_filter]
  simp

end ProgSistema.Window
