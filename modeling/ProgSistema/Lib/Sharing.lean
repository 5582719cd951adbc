import ProgSistema.Lib.Runs

/-!
# Processes that share a resource

Any number of processes act in turn on a shared resource. Where a process can
become its owner only while the resource is free, and only its owner changes
it, at most one process owns the resource at any time and nothing that the
others do touches it.
-/

set_option autoImplicit false

namespace ProgSistema.Sharing

structure System (ι π ρ : Type*) where
  procs : ι → π
  shared : ρ

section
variable {ι π κ : Type*} [DecidableEq ι] {procs : ι → π} {i : ι} {p : π}

/-- A key that is read off from the position of a process changes with it. -/
theorem keys_update (key : π → κ) (procs : ι → π) (i : ι) (p : π) :
    (fun j => key (Function.update procs i p j)) =
      Function.update (fun j => key (procs j)) i (key p) :=
  Function.comp_update key procs i p

theorem keys_keep (key : π → κ) (h : key p = key (procs i)) :
    (fun j => key (Function.update procs i p j)) = fun j => key (procs j) := by
  rw [keys_update, h]
  exact Function.update_eq_self i _

/-- A symmetric relation between any two processes survives a change of one of
them, where the relation holds between its new position and each other one. -/
theorem pairs_update (R : ι → π → ι → π → Prop)
    (hsymm : ∀ j q l q', R j q l q' → R l q' j q) (hself : R i p i p)
    (hnew : ∀ j, j ≠ i → R i p j (procs j))
    (hold : ∀ j l, R j (procs j) l (procs l)) (j l : ι) :
    R j (Function.update procs i p j) l (Function.update procs i p l) := by
  by_cases hj : j = i
  · by_cases hl : l = i
    · rw [hj, hl, Function.update_self]
      exact hself
    · rw [hj, Function.update_self, Function.update_of_ne hl]
      exact hnew l hl
  · rw [Function.update_of_ne hj]
    by_cases hl : l = i
    · rw [hl, Function.update_self]
      exact hsymm _ _ _ _ (hnew j hj)
    · rw [Function.update_of_ne hl]
      exact hold j l

end

def Solo {ι α π ρ : Type*} (act : ι → α → π → ρ → Option (π × ρ)) (ok : α → π → Prop) (i : ι) :
    π × ρ → π × ρ → Prop :=
  Relation.ReflTransGen fun x y => ∃ a, ok a x.1 ∧ act i a x.1 x.2 = some y

theorem solo_step {ι α π ρ : Type*} {act : ι → α → π → ρ → Option (π × ρ)} {ok : α → π → Prop}
    {i : ι} {a : α} {x y z : π × ρ} (hok : ok a x.1) (h : act i a x.1 x.2 = some y)
    (hrest : Solo act ok i y z) : Solo act ok i x z :=
  Relation.ReflTransGen.head ⟨a, hok, h⟩ hrest

section
variable {ι α π ρ : Type*} [DecidableEq ι] (act : ι → α → π → ρ → Option (π × ρ))

def step (a : ι × α) (s : System ι π ρ) : Option (System ι π ρ) :=
  (act a.1 a.2 (s.procs a.1) s.shared).map fun next =>
    { procs := Function.update s.procs a.1 next.1, shared := next.2 }

theorem step_next {a : ι × α} {s t : System ι π ρ} (h : step act a s = some t) :
    ∃ p r, act a.1 a.2 (s.procs a.1) s.shared = some (p, r) ∧
      t = { procs := Function.update s.procs a.1 p, shared := r } := by
  obtain ⟨⟨p, r⟩, hact, rfl⟩ := Option.map_eq_some_iff.mp h
  exact ⟨p, r, hact, rfl⟩

variable {act}

/-- What each process knows of the resource survives a step, where the step
establishes it for the process that acts and keeps it for each other one. -/
theorem knowledge_step (knows : ι → π → ρ → Prop) {a : ι × α} {s t : System ι π ρ}
    (h : step act a s = some t)
    (hself : ∀ p r, act a.1 a.2 (s.procs a.1) s.shared = some (p, r) → knows a.1 p r)
    (hother : ∀ p r i, i ≠ a.1 → act a.1 a.2 (s.procs a.1) s.shared = some (p, r) →
      knows i (s.procs i) r) :
    ∀ i, knows i (t.procs i) t.shared := by
  obtain ⟨p, r, hact, rfl⟩ := step_next act h
  apply (Function.forall_update_iff s.procs fun i q => knows i q r).mpr
  exact ⟨hself p r hact, fun i hi => hother p r i hi hact⟩

theorem solo_reachable {ok : α → π → Prop} {i : ι} {s : System ι π ρ} {y : π × ρ}
    (h : Solo act ok i (s.procs i, s.shared) y) :
    Runs.ReachableAlong (step act) (fun a s => ok a.2 (s.procs a.1)) s
      { procs := Function.update s.procs i y.1, shared := y.2 } := by
  induction h with
  | refl =>
    rw [Function.update_eq_self]
    exact Runs.reachable_along_refl _ s
  | @tail y z _ hlast ih =>
    obtain ⟨a, hok, hact⟩ := hlast
    have hstep : step act (i, a) { procs := Function.update s.procs i y.1, shared := y.2 } =
        some { procs := Function.update s.procs i z.1, shared := z.2 } := by
      unfold step
      dsimp only
      rw [Function.update_self, hact, Option.map_some, Function.update_idem]
    have hok' : ok a (Function.update s.procs i y.1 i) := by
      rw [Function.update_self]
      exact hok
    exact Runs.reachable_along_trans ih (Runs.reachable_along_step hok' hstep)

variable (act)

/-- The local conditions for exclusive ownership: `fits` says what a process
knows of the resource, and depends on the resource for its owner only. -/
structure Exclusive (fits : ι → π → ρ → Prop) (owns : π → Prop) (free : ρ → Prop) : Prop where
  taken : ∀ i p r, fits i p r → owns p → ¬ free r
  outside : ∀ i p r r', fits i p r → ¬ owns p → fits i p r'
  keeps : ∀ i a p r p' r', fits i p r → act i a p r = some (p', r') → fits i p' r'
  gains : ∀ i a p r p' r', fits i p r → act i a p r = some (p', r') → owns p' → owns p ∨ free r
  writes : ∀ i a p r p' r', fits i p r → act i a p r = some (p', r') → r' = r ∨ owns p ∨ free r

structure Inv (fits : ι → π → ρ → Prop) (owns : π → Prop) (s : System ι π ρ) : Prop where
  fits : ∀ i, fits i (s.procs i) s.shared
  unique : ∀ i j, owns (s.procs i) → owns (s.procs j) → i = j

variable {act} {fits : ι → π → ρ → Prop} {owns : π → Prop} {free : ρ → Prop}
  (he : Exclusive act fits owns free)
include he

theorem step_inv {a : ι × α} {s t : System ι π ρ} (hi : Inv fits owns s)
    (h : step act a s = some t) : Inv fits owns t := by
  obtain ⟨j, a⟩ := a
  obtain ⟨⟨p', r'⟩, hact, rfl⟩ := Option.map_eq_some_iff.mp h
  have hfits := hi.fits j
  constructor
  · apply (Function.forall_update_iff s.procs fun i q => fits i q r').mpr
    constructor
    · exact he.keeps j a _ _ p' r' hfits hact
    · intro i hij
      rcases he.writes j a _ _ p' r' hfits hact with hsame | howns | hfree
      · rw [hsame]
        exact hi.fits i
      · exact he.outside i _ _ r' (hi.fits i) fun hown => hij (hi.unique i j hown howns)
      · exact he.outside i _ _ r' (hi.fits i) fun hown => he.taken i _ _ (hi.fits i) hown hfree
  · apply pairs_update fun i q k q' => owns q → owns q' → i = k
    · intro i q k q' huniq hown hown'
      exact (huniq hown' hown).symm
    · intro _ _
      rfl
    · intro i hij hp' hown
      rcases he.gains j a _ _ p' r' hfits hact hp' with howns | hfree
      · exact hi.unique j i howns hown
      · exact absurd hfree (he.taken i _ _ (hi.fits i) hown)
    · exact hi.unique

theorem others_keep {a : ι × α} {s t : System ι π ρ} {i : ι} (hi : Inv fits owns s)
    (hown : owns (s.procs i)) (hother : a.1 ≠ i) (h : step act a s = some t) :
    t.shared = s.shared ∧ t.procs i = s.procs i := by
  obtain ⟨j, a⟩ := a
  obtain ⟨⟨p', r'⟩, hact, rfl⟩ := Option.map_eq_some_iff.mp h
  refine ⟨?_, Function.update_of_ne (Ne.symm hother) _ _⟩
  rcases he.writes j a _ _ p' r' (hi.fits j) hact with hsame | howns | hfree
  · exact hsame
  · exact absurd (hi.unique j i howns hown) hother
  · exact absurd hfree (he.taken i _ _ (hi.fits i) hown)

/-- Whatever the other processes do, an owner finds the resource as it was. -/
theorem others_keep_run (as : List (ι × α)) {s t : System ι π ρ} {i : ι} (hi : Inv fits owns s)
    (hown : owns (s.procs i)) (hothers : ∀ a ∈ as, a.1 ≠ i)
    (h : Runs.exec (step act) as s = some t) :
    t.shared = s.shared ∧ t.procs i = s.procs i := by
  induction as generalizing s with
  | nil =>
    cases h
    exact ⟨rfl, rfl⟩
  | cons a as ih =>
    obtain ⟨u, hu, ht⟩ := Option.bind_eq_some_iff.mp h
    obtain ⟨hshared, hproc⟩ := others_keep he hi hown (hothers a (by simp)) hu
    have hown' : owns (u.procs i) := by rw [hproc]; exact hown
    obtain ⟨hshared', hproc'⟩ :=
      ih (step_inv he hi hu) hown' (fun b hb => hothers b (by simp [hb])) ht
    exact ⟨hshared'.trans hshared, hproc'.trans hproc⟩

end

/-! Two, three and four processes, numbered from zero. -/

instance two_processes : NeZero 2 := ⟨by decide⟩

instance three_processes : NeZero 3 := ⟨by decide⟩

instance four_processes : NeZero 4 := ⟨by decide⟩

end ProgSistema.Sharing
