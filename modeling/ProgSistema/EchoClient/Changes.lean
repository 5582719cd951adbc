import ProgSistema.EchoClient.Model

/-!
# The values that are sent

One flag stands for the changes that have not been taken into a message. An
assignment that finds it set takes the place of the value before it, which is
never sent; every other value is sent once and in order.
-/

set_option autoImplicit false

namespace ProgSistema.EchoClient
open Runs

def Client.unsent (c : Client) : List ℕ :=
  (match c.connection with
    | .sending value => [value]
    | _ => [])++if c.aChanged then [c.a] else []

/-- Each value assigned to `A` has been sent once and in order, up to those not
yet sent. -/
def Communicated (c : Client) : Prop := c.assigned = c.sent++c.unsent

def Assigns : Event → Client → Prop
  | .change m _, c => c.mutators m = .lock
  | _, _ => False

instance : ∀ (e : Event) (c : Client), Decidable (Assigns e c)
  | .change m _, c => inferInstanceAs (Decidable (c.mutators m = .lock))
  | .connect _, _ | .connection, _ | .recv _, _ | .signal, _ => inferInstanceAs (Decidable False)

def Overwrites (e : Event) (c : Client) : Prop := Assigns e c ∧ c.aChanged = true

instance (e : Event) (c : Client) : Decidable (Overwrites e c) :=
  inferInstanceAs (Decidable (_ ∧ _))

instance (c : Client) : Decidable (Communicated c) :=
  inferInstanceAs (Decidable (_ = _))

def overwritten (c : Client) : ℤ := c.assigned.length-(c.sent++c.unsent).length

theorem assign_flow {e : Event} {c c' : Client} (hassigns : Assigns e c)
    (h : step e c = some c') : ∃ value, c'.assigned = c.assigned++[value] ∧
      c'.sent++c'.unsent = c.sent++c.unsent.take (c.unsent.length-c.aChanged.toNat)++[value] := by
  cases e with
  | change m rand =>
    have hlock : c.mutators m = .lock := hassigns
    simp only [step, changeA, hlock] at h
    cases h
    refine ⟨randomValue rand, rfl, ?_⟩
    unfold Client.unsent
    dsimp only
    generalize (match c.connection with
      | .sending value => [value]
      | _ => []) = message
    rw [if_pos rfl]
    cases c.aChanged <;> simp
  | connect | connection | recv | signal => exact hassigns.elim

/-- The other steps only move values from the flag to the message, and from the
message to those sent. -/
theorem other_flow {e : Event} {c c' : Client} (hother : ¬ Assigns e c)
    (h : step e c = some c') :
    c'.assigned = c.assigned ∧ c'.sent++c'.unsent = c.sent++c.unsent := by
  cases e with
  | change m rand =>
    simp only [step, changeA] at h
    cases hpc : c.mutators m with
    | loopTest | asleep =>
      rw [hpc] at h
      cases h
      exact ⟨rfl, rfl⟩
    | lock => exact absurd hpc hother
    | ended =>
      rw [hpc] at h
      cases h
  | connect success =>
    simp only [step] at h
    split at h
    · cases h
    · rename_i hconnecting
      have hpc : c.connection = .connecting := not_not.mp hconnecting
      unfold Client.unsent
      rw [hpc]
      split at h
      · cases h
        exact ⟨rfl, rfl⟩
      · cases h
        exact ⟨rfl, rfl⟩
  | connection =>
    simp only [step, connectionThread] at h
    unfold Client.unsent
    cases hpc : c.connection with
    | loopTest =>
      rw [hpc] at h
      cases h
      cases c.continuaEsecuzione <;> exact ⟨rfl, rfl⟩
    | lock | waiting =>
      rw [hpc] at h
      cases h
      unfold prepareMessage
      cases c.continuaEsecuzione <;> cases c.aChanged <;> simp
    | sending value =>
      rw [hpc] at h
      cases h
      simp
    | connecting | receiving | closed | failed =>
      rw [hpc] at h
      cases h
  | recv bytes =>
    simp only [step] at h
    split at h
    · cases h
    · rename_i hready
      have hpc : c.connection = .receiving := not_not.mp (not_or.mp hready).1
      unfold Client.unsent
      rw [hpc]
      split at h
      · cases h
        exact ⟨rfl, rfl⟩
      · cases h
        exact ⟨rfl, rfl⟩
  | signal =>
    cases h
    exact ⟨rfl, rfl⟩

theorem overwritten_keeps {e : Event} {c c' : Client} (hok : ¬ Overwrites e c)
    (h : step e c = some c') : overwritten c' = overwritten c := by
  unfold overwritten
  by_cases hassigns : Assigns e c
  · have hflag : c.aChanged = false := by simpa using fun hflag => hok ⟨hassigns, hflag⟩
    obtain ⟨value, hassigned, hflow⟩ := assign_flow hassigns h
    rw [hassigned, hflow, hflag, Bool.toNat_false, Nat.sub_zero, List.take_length]
    simp only [List.length_append, List.length_singleton]
    omega
  · obtain ⟨hassigned, hflow⟩ := other_flow hassigns h
    rw [hassigned, hflow]

theorem overwritten_rises {e : Event} {c c' : Client} (hbad : ¬ ¬ Overwrites e c)
    (h : step e c = some c') : overwritten c < overwritten c' := by
  obtain ⟨hassigns, hflag⟩ := not_not.mp hbad
  obtain ⟨value, hassigned, hflow⟩ := assign_flow hassigns h
  have hlast : 0 < c.unsent.length := by
    unfold Client.unsent
    rw [hflag]
    simp
  unfold overwritten
  rw [hassigned, hflow, hflag, Bool.toNat_true]
  simp only [List.length_append, List.length_singleton, List.length_take]
  omega

theorem communicated_step {e : Event} {c c' : Client} (hc : Communicated c)
    (hok : ¬ Overwrites e c) (h : step e c = some c') : Communicated c' := by
  unfold Communicated at hc ⊢
  by_cases hassigns : Assigns e c
  · have hflag : c.aChanged = false := by simpa using fun hflag => hok ⟨hassigns, hflag⟩
    obtain ⟨value, hassigned, hflow⟩ := assign_flow hassigns h
    rw [hassigned, hflow, hflag, Bool.toNat_false, Nat.sub_zero, List.take_length, hc]
  · obtain ⟨hassigned, hflow⟩ := other_flow hassigns h
    rw [hassigned, hflow]
    exact hc

/-- In a run of the client every assignment is communicated exactly if none of
them has found the flag set. -/
theorem changes_communicated {es : List Event} {c : Client} (h : exec step es started = some c) :
    Communicated c ↔ Along step (fun e c => ¬ Overwrites e c) es started := by
  have hcount : Along step (fun e c => ¬ Overwrites e c) es started ↔
      overwritten c = overwritten started :=
    along_iff_constant step (fun _ => True) overwritten (fun _ _ _ _ _ => trivial)
      (fun _ _ _ _ hok hstep => overwritten_keeps hok hstep)
      (fun _ _ _ _ hbad hstep => overwritten_rises hbad hstep) trivial h
  constructor
  · intro hc
    apply hcount.mpr
    unfold overwritten
    rw [show c.assigned = c.sent++c.unsent from hc, sub_self]
    rfl
  · intro hok
    exact exec_preserves_along step _ Communicated
      (fun _ _ _ hc hok hstep => communicated_step hc hok hstep) es started c rfl hok h

def takenInTime : List Event :=
  [.connect true, .change .thread1 0, .change .thread1 12, .connection, .connection,
    .change .thread2 0, .change .thread2 34, .connection]

theorem taken_in_time_run : (exec step takenInTime started).isSome = true := by decide

theorem taken_in_time : Communicated ((exec step takenInTime started).get taken_in_time_run) :=
  (changes_communicated (Option.some_get taken_in_time_run).symm).mpr (by decide)

def takenLate : List Event :=
  [.connect true, .change .thread1 0, .change .thread1 12, .change .thread2 0,
    .change .thread2 34, .connection, .connection, .connection]

theorem taken_late_run : (exec step takenLate started).isSome = true := by decide

theorem first_change_lost :
    ∃ c, Reachable step started c ∧ ¬ Communicated c ∧ ¬ c.sent <+: c.assigned :=
  ⟨(exec step takenLate started).get taken_late_run, reachable_get taken_late_run,
    by decide, by decide⟩

end ProgSistema.EchoClient
