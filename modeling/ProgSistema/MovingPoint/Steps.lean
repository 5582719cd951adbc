import ProgSistema.MovingPoint.Text

/-!
# The steps of the point

Each step goes to a neighbour and comes back from its text, as long as no step
is drawn that takes `y` below 0, which nothing tests, or that leaves `x` with
one digit and `y` other than 0.
-/

set_option autoImplicit false

namespace ProgSistema.MovingPoint
open CRuntime

/-- The step goes to a neighbour of the point before within the square, its
text fits the array, `T` had read the point before from its own text, and `R`
reads the new one, whatever it received before. -/
structure Move.Right (m : Move) : Prop where
  adjacent : |m.new.1-m.old.1| ≤ 1 ∧ |m.new.2-m.old.2| ≤ 1
  square : InSquare m.new
  fits : m.sent.length+1 ≤ positionSize
  reread : m.read = m.old
  received : ∀ memory : Bytes, memory.length = positionSize →
    readPosition (receive memory m.sent) = m.new

def State.Right (s : State) : Prop :=
  (∀ m ∈ s.moves, m.Right) ∧ ∀ x y, s.pc = .drawX x y → (x, y) = s.computed

/-- A second draw that is accepted leaves `y` in the square and the new point
legible. -/
def DrawOk (rand : ℕ) : Pc → Prop
  | .drawY _ y _ x1 => y+randomStep rand ≤ 80 →
    0 ≤ y+randomStep rand ∧ Legible x1 (y+randomStep rand)
  | _ => True

instance decidableDrawOk (rand : ℕ) : ∀ pc, Decidable (DrawOk rand pc)
  | .drawY _ y _ x1 => inferInstanceAs (Decidable (y+randomStep rand ≤ 80 →
    0 ≤ y+randomStep rand ∧ Legible x1 (y+randomStep rand)))
  | .read | .drawX _ _ | .overflow => isTrue trivial

def StepOk : Action → State → Prop
  | .run, _ => True
  | .draw rand, s => DrawOk rand s.pc

instance decidableStepOk : ∀ a s, Decidable (StepOk a s)
  | .run, _ => isTrue trivial
  | .draw rand, s => decidableDrawOk rand s.pc

inductive Holds (p : ℤ × ℤ) : Pc → Prop
  | read : Holds p .read
  | drawX : Holds p (.drawX p.1 p.2)
  | drawY (randx : ℤ) (hstep : |randx| ≤ 1) (hin : 0 ≤ p.1+randx ∧ p.1+randx ≤ 80) :
    Holds p (.drawY p.1 p.2 randx (p.1+randx))

structure Good (s : State) : Prop where
  moves : ∀ m ∈ s.moves, m.Right
  square : InSquare s.computed
  stored : readPosition s.posizione = s.computed
  holds : Holds s.computed s.pc

def Broken (s : State) : Prop := ∃ m ∈ s.moves, ¬ m.Right

theorem random_step_small (rand : ℕ) : |randomStep rand| ≤ 1 := by
  have hlt : rand % 3 < 3 := Nat.mod_lt _ (by decide)
  rw [abs_le, randomStep]
  omega

/-- No sum of the program leaves the range of an `int`. -/
theorem to_int_near {x d : ℤ} (hx : 0 ≤ x ∧ x ≤ 80) (hd : |d| ≤ 1) : toInt (x+d) = x+d := by
  rw [abs_le] at hd
  unfold toInt
  rw [Int.bmod_def]
  omega

theorem holds_draw {p : ℤ × ℤ} {x y randx x1 : ℤ} (h : Holds p (.drawY x y randx x1)) :
    (x, y) = p ∧ x1 = x+randx ∧ |randx| ≤ 1 ∧ 0 ≤ x1 ∧ x1 ≤ 80 := by
  cases h with
  | drawY _ hstep hin => exact ⟨rfl, rfl, hstep, hin⟩

/-- What an accepted second draw does. -/
theorem draw_cases {rand : ℕ} {s t : State} {x y randx x1 : ℤ} (hpc : s.pc = .drawY x y randx x1)
    (hin : InSquare (x, y)) (hrandx : |randx| ≤ 1) (hx1 : x1 = x+randx) (hpos : 0 ≤ x1)
    (h : step (.draw rand) s = some t) :
    (80 < y+randomStep rand ∧ t = s) ∨
      (y+randomStep rand ≤ 80 ∧ t = writePosition (x, y) x1 (y+randomStep rand) s) := by
  have hxsum : toInt (x+randx) = x1 := (to_int_near hin.1 hrandx).trans hx1.symm
  have hysum := to_int_near hin.2 (random_step_small rand)
  simp only [step, hpc, add_comm (randomStep rand), hxsum, hysum] at h
  split at h
  · rename_i hout
    cases h
    rcases hout with habove | hbelow
    · exact .inl ⟨habove, rfl⟩
    · omega
  · rename_i haccepted
    cases h
    exact .inr ⟨by omega, rfl⟩

theorem move_right {p : ℤ × ℤ} {x y : ℤ} (hsquare : InSquare (x, y)) (hlegible : Legible x y)
    (hadjacent : |x-p.1| ≤ 1 ∧ |y-p.2| ≤ 1) : (Move.mk p p (x, y) (positionText x y)).Right where
  adjacent := hadjacent
  square := hsquare
  fits := position_fits hsquare
  reread := rfl
  received memory _ := by
    have hfits := position_fits hsquare
    rw [receive_fits (Nat.le_of_succ_le hfits)]
    exact (position_read_iff _ hsquare).mpr hlegible

/-- A position that is not legible is read as another one. -/
theorem move_wrong {p r : ℤ × ℤ} {x y : ℤ} (hwrong : ¬ (InSquare (x, y) ∧ Legible x y)) :
    ¬ (Move.mk p r (x, y) (positionText x y)).Right := by
  intro hright
  have hsquare := hright.square
  have hread := hright.received initialPosition (by decide)
  have hfits := position_fits hsquare
  rw [receive_fits (Nat.le_of_succ_le hfits)] at hread
  exact hwrong ⟨hsquare, (position_read_iff _ hsquare).mp hread⟩

theorem started_good : Good started where
  moves _ h := nomatch h
  square := ⟨by decide, by decide⟩
  stored := by decide
  holds := .read

theorem step_good (a : Action) (s t : State) (hs : Good s) (hok : StepOk a s)
    (h : step a s = some t) : Good t := by
  cases a with
  | run =>
    simp only [step] at h
    split at h
    · cases h
      refine { hs with holds := ?_ }
      rw [hs.stored]
      exact .drawX
    · cases h
  | draw rand =>
    cases hpc : s.pc with
    | read | overflow =>
      simp only [step, hpc] at h
      cases h
    | drawX x y =>
      have hholds := hs.holds
      rw [hpc] at hholds
      have hpoint : (x, y) = s.computed := by
        cases hholds
        rfl
      have hin := hs.square
      rw [← hpoint] at hin hholds
      have hsum := to_int_near hin.1 (random_step_small rand)
      simp only [step, hpc, add_comm (randomStep rand), hsum] at h
      split at h
      · cases h
        exact hs
      · rename_i haccepted
        cases h
        refine { hs with holds := ?_ }
        show Holds s.computed (.drawY x y _ _)
        rw [← hpoint]
        exact .drawY _ (random_step_small rand) (by dsimp only; omega)
    | drawY x y randx x1 =>
      have hholds := hs.holds
      rw [hpc] at hholds
      obtain ⟨hpoint, hx1, hrandx, hpos, hle⟩ := holds_draw hholds
      have hin := hs.square
      rw [← hpoint] at hin
      rcases draw_cases hpc hin hrandx hx1 hpos h with ⟨-, rfl⟩ | ⟨haccepted, rfl⟩
      · exact hs
      · have hdraw : DrawOk rand s.pc := hok
        rw [hpc] at hdraw
        obtain ⟨hy, hlegible⟩ := hdraw haccepted
        have hsquare : InSquare (x1, y+randomStep rand) := ⟨⟨hpos, hle⟩, hy, haccepted⟩
        have hfits := position_fits hsquare
        have hrandy := random_step_small rand
        refine ⟨?_, hsquare, (position_read_iff _ hsquare).mpr hlegible, ?_⟩
        · intro m hm
          rcases List.mem_append.mp hm with hbefore | hlast
          · exact hs.moves m hbefore
          · rw [List.mem_singleton.mp hlast, ← hpoint]
            exact move_right hsquare hlegible ⟨by simpa [hx1] using hrandx, by simpa using hrandy⟩
        · show Holds _ (if _ then _ else _)
          rw [if_pos (by omega)]
          exact .read

theorem step_breaks (a : Action) (s t : State) (hs : Good s) (hnot : ¬ StepOk a s)
    (h : step a s = some t) : Broken t := by
  cases a with
  | run => exact absurd trivial hnot
  | draw rand =>
    have hdraw : ¬ DrawOk rand s.pc := hnot
    cases hpc : s.pc with
    | read | drawX | overflow =>
      rw [hpc] at hdraw
      exact absurd trivial hdraw
    | drawY x y randx x1 =>
      rw [hpc] at hdraw
      obtain ⟨haccepted, hwrong⟩ := Classical.not_imp.mp hdraw
      have hholds := hs.holds
      rw [hpc] at hholds
      obtain ⟨hpoint, hx1, hrandx, hpos, -⟩ := holds_draw hholds
      have hin := hs.square
      rw [← hpoint] at hin
      rcases draw_cases hpc hin hrandx hx1 hpos h with ⟨hrejected, -⟩ | ⟨-, rfl⟩
      · omega
      · refine ⟨_, List.mem_append_right _ (List.mem_singleton.mpr rfl), move_wrong ?_⟩
        rintro ⟨hsquare, hlegible⟩
        exact hwrong ⟨hsquare.2.1, hlegible⟩

theorem step_moves (a : Action) (s t : State) (h : step a s = some t) : s.moves <+: t.moves := by
  cases a with
  | run =>
    simp only [step] at h
    split at h
    · cases h
      exact List.prefix_rfl
    · cases h
  | draw rand =>
    simp only [step] at h
    split at h
    · cases h
      split <;> exact List.prefix_rfl
    · cases h
      split
      · exact List.prefix_rfl
      · exact List.prefix_append _ _
    · cases h

/-- The steps of the point are right as long as no draw takes `y` below 0 or
leaves the point where its text is not legible. -/
theorem position_right_iff {as : List Action} {s : State}
    (h : Runs.exec step as started = some s) :
    s.Right ↔ Runs.Along step StepOk as started := by
  have hstays : ∀ a s t, Broken s → step a s = some t → Broken t := by
    rintro a s t ⟨m, hm, hwrong⟩ ht
    exact ⟨m, (step_moves a s t ht).subset hm, hwrong⟩
  rcases Runs.good_or_broken step Good Broken step_good step_breaks hstays started_good h with
    ⟨halong, hgood⟩ | ⟨hnot, m, hm, hwrong⟩
  · refine iff_of_true ⟨hgood.moves, fun x y hpc => ?_⟩ halong
    have hholds := hgood.holds
    rw [hpc] at hholds
    cases hholds
    rfl
  · exact iff_of_false (fun hright => hwrong (hright.1 m hm)) hnot

def twoSteps : List Action := [.run, .draw 0, .draw 1, .run, .draw 4, .draw 3, .run]

theorem two_steps_right :
    ((Runs.exec step twoSteps started).get (by decide +kernel)).Right :=
  (position_right_iff (Option.some_get (by decide +kernel)).symm).mpr (by decide +kernel)

def leftWalk : List Action := (List.replicate 31 [.run, .draw 0, .draw 1]).flatten

/-- The text of the point at 9 and 40 is read as that of the point at 9 and 0. -/
theorem one_digit_misread :
    ¬ ∀ (as : List Action) (s : State), Runs.exec step as started = some s → s.Right := by
  intro hall
  have hmem : Move.mk (10, 40) (10, 40) (9, 40) (positionText 9 40) ∈
      ((Runs.exec step leftWalk started).get (by decide +kernel)).moves := by decide +kernel
  have hright := (hall leftWalk _ (Option.some_get _).symm).1 _ hmem
  have hread := hright.received initialPosition (by decide)
  have hzero : readPosition (receive initialPosition (positionText 9 40)) = (9, 0) := by decide
  rw [hzero] at hread
  exact absurd hread (by decide)

end ProgSistema.MovingPoint
