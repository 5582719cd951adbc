import Mathlib.Tactic

/-!
# Words joined by a separator

A text grows by one word at a time, with the separator in front of each word
that does not begin the text. An empty word at the start leaves no trace.
-/

set_option autoImplicit false

namespace ProgSistema.Joining

variable {α : Type*} (sep : α)

def appendWord (text word : List α) : List α :=
  match text with
  | [] => word
  | c::text => (c::text)++sep::word

def joined (words : List (List α)) : List α := words.foldl (appendWord sep) []

theorem joined_concat (words : List (List α)) (word : List α) :
    joined sep (words++[word]) = appendWord sep (joined sep words) word := by
  rw [joined, List.foldl_append]
  rfl

theorem intercalate_append (u v : List α) (words : List (List α)) :
    [sep].intercalate ((u++v)::words) = u++[sep].intercalate (v::words) := by
  cases words <;> simp

theorem append_words (c : α) (text : List α) (words : List (List α)) :
    words.foldl (appendWord sep) (c::text) = [sep].intercalate ((c::text)::words) := by
  induction words generalizing text with
  | nil => rw [List.intercalate_singleton, List.foldl_nil]
  | cons word words ih =>
    have hstep : appendWord sep (c::text) word = c::(text++sep::word) := rfl
    have hsplit : c::(text++sep::word) = ((c::text)++[sep])++word := by simp
    rw [List.foldl_cons, hstep, ih, hsplit, intercalate_append, List.intercalate_cons_cons]

theorem joined_intercalate (words : List (List α)) :
    joined sep words = [sep].intercalate (words.dropWhile List.isEmpty) := by
  induction words with
  | nil => rfl
  | cons word words ih =>
    cases word with
    | nil => exact ih
    | cons c text => exact append_words sep c text words

theorem joined_of_nonempty {words : List (List α)} (h : ∀ word ∈ words, word ≠ []) :
    joined sep words = [sep].intercalate words := by
  rw [joined_intercalate]
  cases words with
  | nil => rfl
  | cons word words =>
    have hword : ¬ word.isEmpty = true := by
      rw [List.isEmpty_iff]
      exact h word List.mem_cons_self
    rw [List.dropWhile_cons_of_neg hword]

/-- Words that are not empty leave at least as many characters. -/
theorem length_le_joined {words : List (List α)} (h : ∀ word ∈ words, word ≠ []) :
    words.length ≤ (joined sep words).length := by
  induction words using List.reverseRecOn with
  | nil => exact le_rfl
  | append_singleton words word ih =>
    have hle := ih fun w hw => h w (by simp [hw])
    have hpos : 0 < word.length := List.length_pos_iff.mpr (h word (by simp))
    rw [joined_concat, List.length_append, List.length_singleton]
    cases htext : joined sep words with
    | nil =>
      rw [htext] at hle
      exact (Nat.succ_le_succ hle).trans hpos
    | cons c text =>
      rw [htext] at hle
      simp only [appendWord, List.length_append, List.length_cons] at hle ⊢
      omega

end ProgSistema.Joining
