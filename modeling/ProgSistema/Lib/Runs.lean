import Mathlib.Tactic

/-!
# Runs of guarded and of replying machines

A guarded machine is a partial step function: an action that is not enabled
has no successor. A replying machine answers every request it accepts. The
rules below turn facts about one step into facts about every finite run.
-/

set_option autoImplicit false

namespace ProgSistema.Runs

section Guarded
variable {α σ : Type*} (step : α → σ → Option σ)

def exec : List α → σ → Option σ
  | [], s => some s
  | a::as, s => (step a s).bind (exec as)

def Reachable (init s : σ) : Prop := ∃ as, exec step as init = some s

/-- A run that succeeds ends in a reachable state. -/
theorem reachable_get {step : α → σ → Option σ} {as : List α} {init : σ}
    (h : (exec step as init).isSome = true) :
    Reachable step init ((exec step as init).get h) :=
  ⟨as, (Option.some_get h).symm⟩

theorem exec_append (as bs : List α) (s : σ) :
    exec step (as++bs) s = (exec step as s).bind (exec step bs) := by
  induction as generalizing s with
  | nil => rfl
  | cons a as ih =>
    cases h : step a s with
    | none => simp [exec, h]
    | some t => simp [exec, h, ih]

theorem exec_preserves (Inv : σ → Prop)
    (hstep : ∀ a s t, Inv s → step a s = some t → Inv t)
    (as : List α) (s t : σ) (hs : Inv s) (h : exec step as s = some t) : Inv t := by
  induction as generalizing s with
  | nil =>
    cases h
    exact hs
  | cons a as ih =>
    obtain ⟨u, hu, ht⟩ := Option.bind_eq_some_iff.mp h
    exact ih u (hstep a s u hs hu) ht

/-- An invariant that holds initially and survives each enabled action
holds in every reachable state. -/
theorem reachable_invariant (Inv : σ → Prop) {init s : σ} (hi : Inv init)
    (hstep : ∀ a s t, Inv s → step a s = some t → Inv t)
    (h : Reachable step init s) : Inv s := by
  obtain ⟨as, has⟩ := h
  exact exec_preserves step Inv hstep as init s hi has

/-- A measure that each step raises by the weight of its action has grown by
the weights of all the actions of a run. -/
theorem exec_weighs (Inv : σ → Prop) (f : σ → ℤ) (weight : α → ℤ)
    (hstep : ∀ a s t, Inv s → step a s = some t → Inv t)
    (hweight : ∀ a s t, Inv s → step a s = some t → f t = f s+weight a)
    {as : List α} {s t : σ} (hs : Inv s) (h : exec step as s = some t) :
    f t = f s+(as.map weight).sum := by
  induction as generalizing s with
  | nil =>
    cases h
    exact (add_zero _).symm
  | cons a as ih =>
    obtain ⟨u, hu, ht⟩ := Option.bind_eq_some_iff.mp h
    rw [ih (hstep a s u hs hu) ht, hweight a s u hs hu, List.map_cons, List.sum_cons, add_assoc]

/-- A measure that no step raises by more than the weight of its action. -/
theorem exec_weighs_le (Inv : σ → Prop) (f : σ → ℤ) (weight : α → ℤ)
    (hstep : ∀ a s t, Inv s → step a s = some t → Inv t)
    (hweight : ∀ a s t, Inv s → step a s = some t → f t ≤ f s+weight a)
    {as : List α} {s t : σ} (hs : Inv s) (h : exec step as s = some t) :
    f t ≤ f s+(as.map weight).sum := by
  induction as generalizing s with
  | nil =>
    cases h
    exact (add_zero _).ge
  | cons a as ih =>
    obtain ⟨u, hu, ht⟩ := Option.bind_eq_some_iff.mp h
    have hrest := ih (hstep a s u hs hu) ht
    have hfirst := hweight a s u hs hu
    rw [List.map_cons, List.sum_cons]
    omega

/-- Every step of a run meets a condition on the state before it. -/
def Along (ok : α → σ → Prop) : List α → σ → Prop
  | [], _ => True
  | a::as, s => ok a s ∧ ∀ t, step a s = some t → Along ok as t

instance decidableAlong (ok : α → σ → Prop) [∀ a s, Decidable (ok a s)] :
    ∀ as s, Decidable (Along step ok as s)
  | [], _ => isTrue trivial
  | a::as, s =>
    match h : step a s with
    | none => decidable_of_iff (ok a s) (by simp [Along, h])
    | some t =>
      haveI := decidableAlong ok as t
      decidable_of_iff (ok a s ∧ Along step ok as t) (by simp [Along, h])

theorem along_and {ok ok' : α → σ → Prop} {as : List α} {s : σ} (h : Along step ok as s)
    (h' : Along step ok' as s) : Along step (fun a s => ok a s ∧ ok' a s) as s := by
  induction as generalizing s with
  | nil => trivial
  | cons a as ih => exact ⟨⟨h.1, h'.1⟩, fun t ht => ih (h.2 t ht) (h'.2 t ht)⟩

/-- Steps that meet a condition keep an invariant under which they meet another
one too. -/
theorem along_of_invariant {ok ok' : α → σ → Prop} (Inv : σ → Prop)
    (hstep : ∀ a s t, Inv s → ok a s → step a s = some t → Inv t)
    (hok : ∀ a s, Inv s → ok a s → ok' a s) {as : List α} {s : σ} (hs : Inv s)
    (h : Along step ok as s) : Along step ok' as s := by
  induction as generalizing s with
  | nil => trivial
  | cons a as ih =>
    exact ⟨hok a s hs h.1, fun t ht => ih (hstep a s t hs h.1 ht) (h.2 t ht)⟩

def ReachableAlong (ok : α → σ → Prop) (init s : σ) : Prop :=
  ∃ as, exec step as init = some s ∧ Along step ok as init

theorem reachable_along_get {step : α → σ → Option σ} {ok : α → σ → Prop} {as : List α}
    {init : σ} (h : (exec step as init).isSome = true) (hok : Along step ok as init) :
    ReachableAlong step ok init ((exec step as init).get h) :=
  ⟨as, (Option.some_get h).symm, hok⟩

theorem along_append {ok : α → σ → Prop} {as bs : List α} {s : σ} (h : Along step ok as s)
    (h' : ∀ t, exec step as s = some t → Along step ok bs t) : Along step ok (as++bs) s := by
  induction as generalizing s with
  | nil => exact h' s rfl
  | cons a as ih =>
    refine ⟨h.1, fun t ht => ih (h.2 t ht) fun u hu => h' u ?_⟩
    rw [exec, ht]
    exact hu

theorem reachable_along_refl {ok : α → σ → Prop} (s : σ) : ReachableAlong step ok s s :=
  ⟨[], rfl, trivial⟩

theorem reachable_along_step {step : α → σ → Option σ} {ok : α → σ → Prop} {a : α} {s t : σ}
    (hok : ok a s) (h : step a s = some t) : ReachableAlong step ok s t := by
  refine ⟨[a], ?_, hok, fun _ _ => trivial⟩
  rw [exec, h]
  rfl

theorem reachable_along_trans {step : α → σ → Option σ} {ok : α → σ → Prop} {s t u : σ}
    (h : ReachableAlong step ok s t) (h' : ReachableAlong step ok t u) :
    ReachableAlong step ok s u := by
  obtain ⟨as, has, hok⟩ := h
  obtain ⟨bs, hbs, hok'⟩ := h'
  refine ⟨as++bs, ?_, ?_⟩
  · rw [exec_append, has]
    exact hbs
  · apply along_append step hok
    intro v hv
    rw [has] at hv
    cases hv
    exact hok'

theorem exec_preserves_along (ok : α → σ → Prop) (Inv : σ → Prop)
    (hstep : ∀ a s t, Inv s → ok a s → step a s = some t → Inv t)
    (as : List α) (s t : σ) (hs : Inv s) (hok : Along step ok as s)
    (h : exec step as s = some t) : Inv t := by
  induction as generalizing s with
  | nil =>
    cases h
    exact hs
  | cons a as ih =>
    obtain ⟨u, hu, ht⟩ := Option.bind_eq_some_iff.mp h
    exact ih u (hstep a s u hs hok.1 hu) (hok.2 u hu) ht

/-- An invariant that survives the steps that meet a condition holds in every
state reached by such steps only. -/
theorem reachable_along_invariant {ok : α → σ → Prop} (Inv : σ → Prop) {init s : σ}
    (hi : Inv init) (hstep : ∀ a s t, Inv s → ok a s → step a s = some t → Inv t)
    (h : ReachableAlong step ok init s) : Inv s := by
  obtain ⟨as, has, hok⟩ := h
  exact exec_preserves_along step ok Inv hstep as init s hi hok has

/-- While the steps of a run meet a condition it stays good, and the first step
that does not leaves it broken for ever. -/
theorem good_or_broken {ok : α → σ → Prop} (Good Broken : σ → Prop)
    (hkeeps : ∀ a s t, Good s → ok a s → step a s = some t → Good t)
    (hbreaks : ∀ a s t, Good s → ¬ ok a s → step a s = some t → Broken t)
    (hstays : ∀ a s t, Broken s → step a s = some t → Broken t)
    {as : List α} {s t : σ} (hs : Good s) (h : exec step as s = some t) :
    (Along step ok as s ∧ Good t) ∨ (¬ Along step ok as s ∧ Broken t) := by
  induction as generalizing s with
  | nil =>
    cases h
    exact .inl ⟨trivial, hs⟩
  | cons a as ih =>
    obtain ⟨u, hu, ht⟩ := Option.bind_eq_some_iff.mp h
    by_cases hok : ok a s
    · rcases ih (hkeeps a s u hs hok hu) ht with ⟨halong, hgood⟩ | ⟨hnot, hbroken⟩
      · refine .inl ⟨⟨hok, fun v hv => ?_⟩, hgood⟩
        rw [hu] at hv
        cases hv
        exact halong
      · exact .inr ⟨fun halong => hnot (halong.2 u hu), hbroken⟩
    · refine .inr ⟨fun halong => hok halong.1, ?_⟩
      exact exec_preserves step Broken hstays as u t (hbreaks a s u hs hok hu) ht

/-- A measure that never falls, and rises in exactly the steps that do not meet
a condition, tells the runs whose steps all meet it. -/
theorem along_iff_constant {ok : α → σ → Prop} (Inv : σ → Prop) (f : σ → ℤ)
    (hstep : ∀ a s t, Inv s → step a s = some t → Inv t)
    (hkeeps : ∀ a s t, Inv s → ok a s → step a s = some t → f t = f s)
    (hrises : ∀ a s t, Inv s → ¬ ok a s → step a s = some t → f s < f t)
    {as : List α} {s t : σ} (hs : Inv s) (h : exec step as s = some t) :
    Along step ok as s ↔ f t = f s := by
  have hle : ∀ bs u v, Inv u → exec step bs u = some v → f u ≤ f v := by
    intro bs u v hu hv
    refine (exec_preserves step (fun w => Inv w ∧ f u ≤ f w) ?_ bs u v ⟨hu, le_rfl⟩ hv).2
    rintro a w w' ⟨hw, hwle⟩ hw'
    refine ⟨hstep a w w' hw hw', hwle.trans ?_⟩
    by_cases hok : ok a w
    · exact (hkeeps a w w' hw hok hw').ge
    · exact (hrises a w w' hw hok hw').le
  induction as generalizing s with
  | nil =>
    cases h
    exact iff_of_true trivial rfl
  | cons a as ih =>
    obtain ⟨u, hu, ht⟩ := Option.bind_eq_some_iff.mp h
    have hinv := hstep a s u hs hu
    by_cases hok : ok a s
    · rw [← hkeeps a s u hs hok hu]
      refine Iff.trans ?_ (ih hinv ht)
      constructor
      · rintro ⟨-, hrest⟩
        exact hrest u hu
      · intro hrest
        refine ⟨hok, fun v hv => ?_⟩
        rw [hu] at hv
        cases hv
        exact hrest
    · apply iff_of_false
      · rintro ⟨hyes, -⟩
        exact hok hyes
      · exact ((hrises a s u hs hok hu).trans_le (hle as u t hinv ht)).ne'

/-- A property that a step keeps exactly if it meets a condition has held all
through a run exactly if every step of it does. -/
theorem kept_iff_along {ok : α → σ → Prop} (Inv : σ → Prop)
    (hstep : ∀ a s t, Inv s → step a s = some t → (Inv t ↔ ok a s))
    {as : List α} {s t : σ} (hs : Inv s) (h : exec step as s = some t) :
    (∀ bs u, bs <+: as → exec step bs s = some u → Inv u) ↔ Along step ok as s := by
  induction as generalizing s with
  | nil =>
    refine iff_of_true (fun bs u hbs hu => ?_) trivial
    rw [List.prefix_nil.mp hbs] at hu
    cases hu
    exact hs
  | cons a as ih =>
    obtain ⟨u, hu, ht⟩ := Option.bind_eq_some_iff.mp h
    have hexec : ∀ bs, exec step (a::bs) s = exec step bs u := by
      intro bs
      rw [exec, hu, Option.bind_some]
    constructor
    · intro hkept
      have hinv : Inv u := hkept [a] u (List.prefix_append [a] as) (hexec [])
      refine ⟨(hstep a s u hs hu).mp hinv, fun v hv => ?_⟩
      obtain rfl := Option.some.inj (hu.symm.trans hv)
      refine (ih hinv ht).mp fun bs w hbs hw => hkept (a::bs) w ?_ ((hexec bs).trans hw)
      exact List.cons_prefix_cons.mpr ⟨rfl, hbs⟩
    · rintro ⟨hok, hrest⟩ bs w hbs hw
      cases bs with
      | nil =>
        cases hw
        exact hs
      | cons b bs =>
        obtain ⟨rfl, htail⟩ := List.cons_prefix_cons.mp hbs
        have hinv : Inv u := (hstep b s u hs hu).mpr hok
        exact (ih hinv ht).mpr (hrest u hu) bs w htail ((hexec bs).symm.trans hw)

end Guarded

section Replying
variable {ι ο σ τ ε : Type*}

def run (step : ι → σ → Except ε (ο × σ)) : List ι → σ → Except ε (List ο × σ)
  | [], s => .ok ([], s)
  | i::is, s => do
    let (o, s) ← step i s
    let (os, s) ← run step is s
    return (o::os, s)

theorem run_cons (step : ι → σ → Except ε (ο × σ)) (i : ι) (is : List ι) (s : σ) :
    run step (i::is) s = (step i s).bind fun next =>
      (run step is next.2).map fun rest => (next.1::rest.1, rest.2) := by
  rw [run]
  cases hi : step i s with
  | error e => rfl
  | ok next =>
    show (do let (os, s) ← run step is next.2; return (next.1::os, s)) =
      (run step is next.2).map fun rest => (next.1::rest.1, rest.2)
    cases run step is next.2 <;> rfl

theorem run_concat (step : ι → σ → Except ε (ο × σ)) (is : List ι) (i : ι) {s t u : σ}
    {os : List ο} {o : ο} (h : run step is s = .ok (os, t)) (hi : step i t = .ok (o, u)) :
    run step (is++[i]) s = .ok (os++[o], u) := by
  induction is generalizing s os with
  | nil =>
    cases h
    rw [List.nil_append, run_cons, hi]
    rfl
  | cons j is ih =>
    rw [run_cons] at h
    rw [List.cons_append, run_cons]
    cases hj : step j s with
    | error e =>
      rw [hj] at h
      cases h
    | ok next =>
      rw [hj] at h
      simp only [Except.bind] at h ⊢
      cases hrest : run step is next.2 with
      | error e =>
        rw [hrest] at h
        cases h
      | ok rest =>
        rw [hrest] at h
        cases h
        rw [ih hrest]
        rfl

/-- A relation between the requests answered so far, with their replies, and the
state, which every step carries on, holds of each finite run. -/
theorem run_records (step : ι → σ → Except ε (ο × σ)) (R : List (ι × ο) → σ → Prop)
    (hstep : ∀ done i s, R done s →
      ∃ o s', step i s = .ok (o, s') ∧ R (done++[(i, o)]) s')
    (is : List ι) (s : σ) (h : R [] s) :
    ∃ os s', run step is s = .ok (os, s') ∧ os.length = is.length ∧ R (is.zip os) s' := by
  induction is using List.reverseRecOn with
  | nil => exact ⟨[], s, rfl, rfl, h⟩
  | append_singleton is i ih =>
    obtain ⟨os, t, hrun, hlen, hR⟩ := ih
    obtain ⟨o, t', ht, hR'⟩ := hstep _ i t hR
    refine ⟨os++[o], t', run_concat step is i hrun ht, ?_, ?_⟩
    · rw [List.length_append, List.length_append, hlen]
      rfl
    · rw [List.zip_append hlen.symm]
      exact hR'

def replies (step : ι → τ → ο × τ) : List ι → τ → List ο × τ
  | [], t => ([], t)
  | i::is, t =>
    let (o, t) := step i t
    let (os, t) := replies step is t
    (o::os, t)

/-- A total forward simulation: if each request of the concrete machine
succeeds with the abstract reply, then so does each finite run. -/
theorem run_simulates (step : ι → σ → Except ε (ο × σ)) (spec : ι → τ → ο × τ)
    (R : σ → τ → Prop)
    (hstep : ∀ i s t, R s t → ∃ s', step i s = .ok ((spec i t).1, s') ∧ R s' (spec i t).2)
    (is : List ι) (s : σ) (t : τ) (h : R s t) :
    ∃ s', run step is s = .ok ((replies spec is t).1, s') ∧ R s' (replies spec is t).2 := by
  induction is generalizing s t with
  | nil => exact ⟨s, rfl, h⟩
  | cons i is ih =>
    obtain ⟨s₁, h₁, hr₁⟩ := hstep i s t h
    obtain ⟨s₂, h₂, hr₂⟩ := ih s₁ (spec i t).2 hr₁
    refine ⟨s₂, ?_, hr₂⟩
    rw [run, h₁]
    show (do let (os, s) ← run step is s₁; return ((spec i t).1::os, s)) = _
    rw [h₂]
    rfl

end Replying

end ProgSistema.Runs
