import ProgSistema.Lib.Sharing

/-!
# Resources in custody

The process inside its critical section knows how far it is with the resource,
and while nobody is inside the resource is at rest. A process that enters finds
the resource free, hence at rest, and one that leaves puts it to rest again.
-/

set_option autoImplicit false

namespace ProgSistema.Custody

variable {ι π ρ : Type*} (inside : π → Bool) (free rest : ρ → Prop) (stage : π → ρ → Prop)

structure Kept (s : Sharing.System ι π ρ) : Prop where
  alone : ∀ i j, inside (s.procs i) = true → inside (s.procs j) = true → i = j
  taken : ∀ i, inside (s.procs i) = true → ¬ free s.shared
  stage : ∀ i, inside (s.procs i) = true → stage (s.procs i) s.shared
  rest : (∀ i, inside (s.procs i) = false) → rest s.shared

inductive Moves (p p' : π) (r r' : ρ) : Prop where
  | outside (hp : inside p = false) (hp' : inside p' = false)
      (hstage : ∀ q, inside q = true → stage q r → stage q r') (hrest : rest r → rest r')
      (hfree : free r' → free r)
  | enters (hfree : free r) (hp' : inside p' = true)
      (hstage : rest r → stage p' r' ∧ ¬ free r')
  | works (hp : inside p = true) (hp' : inside p' = true) (hstage : stage p' r')
      (htaken : ¬ free r')
  | leaves (hp : inside p = true) (hp' : inside p' = false) (hrest : rest r')

variable {inside free rest stage} {s : Sharing.System ι π ρ}

theorem kept_outside (h : ∀ i, inside (s.procs i) = false) (hrest : rest s.shared) :
    Kept inside free rest stage s := by
  have hnot : ∀ i, inside (s.procs i) ≠ true := fun i => by simp [h i]
  exact ⟨fun i _ hi => absurd hi (hnot i), fun i hi => absurd hi (hnot i),
    fun i hi => absurd hi (hnot i), fun _ => hrest⟩

theorem kept_free (hk : Kept inside free rest stage s) (h : free s.shared) (i : ι) :
    inside (s.procs i) = false := by
  by_contra hin
  exact hk.taken i (by simpa using hin) h

theorem kept_others (hk : Kept inside free rest stage s) {i j : ι}
    (hi : inside (s.procs i) = true) (hj : j ≠ i) : inside (s.procs j) = false := by
  by_contra hin
  exact hj (hk.alone j i (by simpa using hin) hi)

variable [DecidableEq ι]

/-- The process is the only one inside after its step. -/
theorem kept_owner {i : ι} {p' : π} {r' : ρ} (hothers : ∀ j, j ≠ i → inside (s.procs j) = false)
    (hp' : inside p' = true) (hstage : stage p' r') (htaken : ¬ free r') :
    Kept inside free rest stage ⟨Function.update s.procs i p', r'⟩ := by
  have howner : ∀ j, inside (Function.update s.procs i p' j) = true → j = i := by
    intro j hj
    by_contra hne
    rw [Function.update_of_ne hne, hothers j hne] at hj
    cases hj
  refine ⟨fun j l hj hl => (howner j hj).trans (howner l hl).symm, fun _ _ => htaken,
    fun j hj => ?_, fun hnone => ?_⟩
  · obtain rfl := howner j hj
    dsimp only
    rwa [Function.update_self]
  · have hself := hnone i
    dsimp only at hself
    rw [Function.update_self, hp'] at hself
    cases hself

theorem kept_step (hk : Kept inside free rest stage s) {i : ι} {p' : π} {r' : ρ}
    (h : Moves inside free rest stage (s.procs i) p' s.shared r') :
    Kept inside free rest stage ⟨Function.update s.procs i p', r'⟩ := by
  cases h with
  | outside hp hp' hstage hrest hfree =>
    have hsame : ∀ j, inside (Function.update s.procs i p' j) = inside (s.procs j) := by
      apply (Function.forall_update_iff s.procs fun j q => inside q = inside (s.procs j)).mpr
      exact ⟨hp'.trans hp.symm, fun _ _ => rfl⟩
    refine ⟨fun j l hj hl => ?_, fun j hj => ?_, fun j hj => ?_, fun hnone => ?_⟩
    · exact hk.alone j l ((hsame j).symm.trans hj) ((hsame l).symm.trans hl)
    · exact fun hf => hk.taken j ((hsame j).symm.trans hj) (hfree hf)
    · have hne : j ≠ i := by
        rintro rfl
        dsimp only at hj
        rw [Function.update_self, hp'] at hj
        cases hj
      dsimp only at hj ⊢
      rw [Function.update_of_ne hne] at hj ⊢
      exact hstage _ hj (hk.stage j hj)
    · exact hrest (hk.rest fun j => (hsame j).symm.trans (hnone j))
  | enters hfree hp' hstage =>
    have hnone := kept_free hk hfree
    obtain ⟨hstage', htaken⟩ := hstage (hk.rest hnone)
    exact kept_owner (fun j _ => hnone j) hp' hstage' htaken
  | works hp hp' hstage htaken =>
    exact kept_owner (fun j hj => kept_others hk hp hj) hp' hstage htaken
  | leaves hp hp' hrest =>
    have hnone : ∀ j, inside (Function.update s.procs i p' j) = false := by
      apply (Function.forall_update_iff s.procs fun _ q => inside q = false).mpr
      exact ⟨hp', fun j hj => kept_others hk hp hj⟩
    exact kept_outside hnone hrest

end ProgSistema.Custody
