import Mathlib.Tactic

/-!
# Traces

What holds everywhere in a trace is said of each entry together with what came
before it and what came after it.
-/

set_option autoImplicit false

namespace ProgSistema.Traces
variable {α : Type*} {P : List α → α → List α → Prop} {l new : List α} {x : α}

def Everywhere (P : List α → α → List α → Prop) (l : List α) : Prop :=
  ∀ before x after, l = before++x::after → P before x after

theorem everywhere_nil : Everywhere P [] := by
  intro before x after h
  simp at h

theorem everywhere_append : Everywhere P (l++new) ↔
    Everywhere (fun before x after => P before x (after++new)) l ∧
      Everywhere (fun before => P (l++before)) new := by
  constructor
  · intro h
    refine ⟨fun before x after heq => h _ _ _ ?_, fun before x after heq => h _ _ _ ?_⟩
    · rw [heq, List.append_assoc, List.cons_append]
    · rw [heq, List.append_assoc]
  · rintro ⟨hold, hnew⟩ before x after heq
    rcases List.append_eq_append_iff.mp heq with ⟨rest, rfl, hrest⟩ | ⟨rest, hbefore, hrest⟩
    · exact hnew rest x after hrest
    · cases rest with
      | nil =>
        rw [List.append_nil] at hbefore
        subst hbefore
        simpa only [List.append_nil] using hnew [] x after hrest.symm
      | cons y rest =>
        obtain ⟨rfl, rfl⟩ := List.cons.inj hrest
        exact hold before x rest hbefore

theorem everywhere_singleton : Everywhere P [x] ↔ P [] x [] := by
  constructor
  · intro h
    exact h [] x [] rfl
  · intro h before y after heq
    cases before with
    | nil =>
      obtain ⟨rfl, rfl⟩ := List.cons.inj heq
      exact h
    | cons z before =>
      simp at heq

theorem everywhere_cons : Everywhere P (x::l) ↔
    P [] x l ∧ Everywhere (fun before => P (x::before)) l := by
  have happend : Everywhere P ([x]++l) ↔ _ := everywhere_append
  rw [everywhere_singleton] at happend
  exact happend

theorem Everywhere.mono {Q : List α → α → List α → Prop} (h : Everywhere P l)
    (hPQ : ∀ before x after, P before x after → Q before x after) : Everywhere Q l :=
  fun before x after heq => hPQ before x after (h before x after heq)

/-- What holds of an entry wherever it stands. -/
theorem everywhere_of_forall (h : ∀ x ∈ l, ∀ before after, P before x after) : Everywhere P l := by
  rintro before x after rfl
  exact h x (List.mem_append_right _ (List.mem_cons_self ..)) before after

end ProgSistema.Traces
