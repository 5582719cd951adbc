import ProgSistema.BulkTransfer.Stream

/-!
# The same transfer through shared memory

The child copies the numbers one by one and then sets a flag, on which the parent
waits. Nothing but the flag tells the parent how far the child has come.
-/

set_option autoImplicit false

namespace ProgSistema.BulkTransfer.SharedMemory
open ArrayPrefix CRuntime Runs

inductive ChildPc where
  | copy (i : ℕ)
  | exit
  | exited
  deriving DecidableEq, Repr

inductive ParentPc where
  | poll
  | complete
  | wait
  | verified (same : Bool)
  deriving DecidableEq, Repr

structure Transfer where
  numbers : ℕ → UInt8
  shared : ℕ → UInt8
  ready : Bool
  completed : Bool
  child : ChildPc
  parent : ParentPc

inductive Event where
  | child
  | parent
  | kill
  deriving DecidableEq, Repr

def childStep (s : Transfer) : Option Transfer :=
  match s.child with
  | .copy i =>
    if i < numCount then
      some { s with shared := write s.shared (4*i) (slice s.numbers (4*i) 4), child := .copy (i+1) }
    else some { s with ready := true, child := .exit }
  | .exit => some { s with child := .exited }
  | .exited => none

def parentStep (s : Transfer) : Option Transfer :=
  match s.parent with
  | .poll => some { s with parent := if s.ready then .complete else .poll }
  | .complete => some { s with completed := true, parent := .wait }
  | .wait =>
    if s.child = .exited then
      some { s with parent := .verified (verifyNumbers s.numbers s.shared numCount) }
    else none
  | .verified _ => none

def step (e : Event) (s : Transfer) : Option Transfer :=
  match e with
  | .child => childStep s
  | .parent => parentStep s
  | .kill => if s.child = .exited then none else some { s with child := .exited }

def started (numbers shared : ℕ → UInt8) : Transfer where
  numbers := numbers
  shared := shared
  ready := false
  completed := false
  child := .copy 0
  parent := .poll

structure Inv (numbers : ℕ → UInt8) (s : Transfer) : Prop where
  unchanged : s.numbers = numbers
  copied : ∀ i, s.child = .copy i → i ≤ numCount ∧ s.ready = false ∧
    contents s.shared (4*i) = contents numbers (4*i)
  exit : s.child = .exit → s.ready = true
  ready : s.ready = true → contents s.shared (4*numCount) = contents numbers (4*numCount)
  parent : s.parent ≠ .poll → s.ready = true
  completed : s.completed = true → s.ready = true
  verified : ∀ same, s.parent = .verified same → same = true

variable {numbers shared : ℕ → UInt8} {s t : Transfer}

theorem started_inv (numbers shared : ℕ → UInt8) : Inv numbers (started numbers shared) := by
  refine ⟨rfl, ?_, nofun, nofun, fun h => absurd rfl h, nofun, nofun⟩
  intro i hi
  cases hi
  exact ⟨Nat.zero_le _, rfl, rfl⟩

/-- One more number is copied. -/
theorem copy_contents {shared numbers : ℕ → UInt8} {i : ℕ}
    (h : contents shared (4*i) = contents numbers (4*i)) :
    contents (write shared (4*i) (slice numbers (4*i) 4)) (4*(i+1)) = contents numbers (4*(i+1)) := by
  have hwrite := contents_write shared (4*i) (slice numbers (4*i) 4)
  rw [slice_length] at hwrite
  rw [Nat.mul_succ, hwrite, contents_add, h]

theorem child_inv (hi : Inv numbers s) (h : childStep s = some t) : Inv numbers t := by
  unfold childStep at h
  split at h
  · rename_i i hpc
    obtain ⟨hle, hready, hsame⟩ := hi.copied i hpc
    split at h
    · rename_i hlt
      cases h
      refine ⟨hi.unchanged, ?_, nofun, ?_, hi.parent, hi.completed, hi.verified⟩
      · intro j hj
        cases hj
        refine ⟨hlt, hready, ?_⟩
        rw [hi.unchanged]
        exact copy_contents hsame
      · intro hr
        cases hready.symm.trans hr
    · rename_i hend
      cases h
      have hall : i = numCount := by omega
      rw [hall] at hsame
      exact ⟨hi.unchanged, nofun, fun _ => rfl, fun _ => hsame, fun _ => rfl, fun _ => rfl,
        hi.verified⟩
  · cases h
    exact ⟨hi.unchanged, nofun, nofun, hi.ready, hi.parent, hi.completed, hi.verified⟩
  · cases h

theorem ready_same (hi : Inv numbers s) (h : s.ready = true) :
    verifyNumbers s.numbers s.shared numCount = true := by
  rw [hi.unchanged]
  refine verify_of_contents ?_
  rw [Nat.mul_comm]
  exact (hi.ready h).symm

theorem parent_inv (hi : Inv numbers s) (h : parentStep s = some t) : Inv numbers t := by
  unfold parentStep at h
  split at h
  · cases h
    refine ⟨hi.unchanged, hi.copied, hi.exit, hi.ready, ?_, hi.completed, ?_⟩
    · dsimp only
      split
      · rename_i hready
        exact fun _ => hready
      · exact fun hne => absurd rfl hne
    · dsimp only
      split <;> nofun
  · rename_i hpc
    cases h
    have hready := hi.parent (by rw [hpc]; nofun)
    exact ⟨hi.unchanged, hi.copied, hi.exit, hi.ready, fun _ => hready, fun _ => hready, nofun⟩
  · rename_i hpc
    rw [Option.ite_none_right_eq_some, Option.some.injEq] at h
    obtain ⟨-, rfl⟩ := h
    have hready := hi.parent (by rw [hpc]; nofun)
    refine ⟨hi.unchanged, hi.copied, hi.exit, hi.ready, fun _ => hready, hi.completed, ?_⟩
    intro same hsame
    exact (ParentPc.verified.inj hsame).symm.trans (ready_same hi hready)
  · cases h

theorem step_inv (e : Event) (s t : Transfer) (hi : Inv numbers s) (h : step e s = some t) :
    Inv numbers t := by
  cases e with
  | child => exact child_inv hi h
  | parent => exact parent_inv hi h
  | kill =>
    rw [step, Option.ite_none_left_eq_some, Option.some.injEq] at h
    obtain ⟨-, rfl⟩ := h
    exact ⟨hi.unchanged, nofun, nofun, hi.ready, hi.parent, hi.completed, hi.verified⟩

def Abandoned (s : Transfer) : Prop := s.child = .exited ∧ s.ready = false ∧ s.parent = .poll

theorem abandoned_stays (e : Event) (s t : Transfer) (hs : Abandoned s) (h : step e s = some t) :
    Abandoned t := by
  obtain ⟨hchild, hready, hparent⟩ := hs
  cases e with
  | child =>
    rw [step, childStep, hchild] at h
    cases h
  | parent =>
    rw [step, parentStep, hparent] at h
    cases h
    refine ⟨hchild, hready, ?_⟩
    dsimp only
    rw [hready]
    rfl
  | kill =>
    rw [step, if_pos hchild] at h
    cases h

def Lives : Event → Prop
  | .kill => False
  | _ => True

def Continues (s t : Transfer) : Prop := ReachableAlong step (fun e _ => Lives e) s t

theorem continues_step {e : Event} (hlives : Lives e) (h : step e s = some t) : Continues s t :=
  reachable_along_step hlives h

theorem continues_inv (hi : Inv numbers s) (h : Continues s t) : Inv numbers t :=
  reachable_along_invariant _ (Inv numbers) hi (fun e u v hu _ hv => step_inv e u v hu hv) h

/-- The child copies the numbers that are left and ends. -/
theorem child_ends (left : ℕ) {i : ℕ} (hpc : s.child = .copy i) (hleft : i+left = numCount) :
    ∃ t, Continues s t ∧ t.child = .exited ∧ t.ready = true ∧ t.parent = s.parent := by
  induction left generalizing s i with
  | zero =>
    have hset : Continues s { s with ready := true, child := .exit } := by
      refine @continues_step _ _ .child trivial ?_
      rw [step, childStep, hpc]
      exact if_neg (by omega)
    have hexit : Continues { s with ready := true, child := .exit }
        { s with ready := true, child := .exited } :=
      @continues_step _ _ .child trivial rfl
    exact ⟨_, reachable_along_trans hset hexit, rfl, rfl, rfl⟩
  | succ left ih =>
    have hcopy : Continues s { s with shared := write s.shared (4*i) (slice s.numbers (4*i) 4),
                                      child := .copy (i+1) } := by
      refine @continues_step _ _ .child trivial ?_
      rw [step, childStep, hpc]
      exact if_pos (by omega)
    obtain ⟨t, ht, hrest⟩ := @ih { s with shared := write s.shared (4*i) (slice s.numbers (4*i) 4),
                                          child := .copy (i+1) } (i+1) rfl (by omega)
    exact ⟨t, reachable_along_trans hcopy ht, hrest⟩

/-- Behind the child the parent comes to compare the numbers. -/
theorem parent_verifies (hi : Inv numbers s) (hchild : s.child = .exited) (hready : s.ready = true) :
    ∃ t, Continues s t ∧ t.parent = .verified true := by
  have hsame := ready_same hi hready
  have hwait : ∀ s : Transfer, s.child = .exited → s.parent = .wait →
      verifyNumbers s.numbers s.shared numCount = true →
      ∃ t, Continues s t ∧ t.parent = .verified true := by
    intro s hchild hpc hsame
    refine ⟨{ s with parent := .verified true }, @continues_step _ _ .parent trivial ?_, rfl⟩
    rw [step, parentStep, hpc]
    dsimp only
    rw [if_pos hchild, hsame]
  have hcomplete : ∀ s : Transfer, s.child = .exited → s.parent = .complete →
      verifyNumbers s.numbers s.shared numCount = true →
      ∃ t, Continues s t ∧ t.parent = .verified true := by
    intro s hchild hpc hsame
    have hstep : Continues s { s with completed := true, parent := .wait } := by
      refine @continues_step _ _ .parent trivial ?_
      rw [step, parentStep, hpc]
    obtain ⟨t, ht, hend⟩ := hwait { s with completed := true, parent := .wait } hchild rfl hsame
    exact ⟨t, reachable_along_trans hstep ht, hend⟩
  cases hpc : s.parent with
  | poll =>
    have hstep : Continues s { s with parent := .complete } := by
      refine @continues_step _ _ .parent trivial ?_
      rw [step, parentStep, hpc, hready]
      rfl
    obtain ⟨t, ht, hend⟩ := hcomplete { s with parent := .complete } hchild rfl hsame
    exact ⟨t, reachable_along_trans hstep ht, hend⟩
  | complete => exact hcomplete s hchild hpc hsame
  | wait => exact hwait s hchild hpc hsame
  | verified same =>
    exact ⟨s, reachable_along_refl _ s, hpc.trans (congrArg _ (hi.verified same hpc))⟩

/-- The parent leaves its wait only behind the last number and never finds a
difference. While the child lives, or has set the flag, both processes can come
to their ends; a child that dies before leaves the parent waiting for ever. -/
theorem flag_exact (numbers shared : ℕ → UInt8) (s : Transfer)
    (h : Reachable step (started numbers shared) s) :
    (s.parent ≠ .poll → contents s.shared (4*numCount) = contents numbers (4*numCount)) ∧
    (s.completed = true → s.ready = true) ∧
    (∀ same, s.parent = .verified same → same = true) ∧
    (s.child ≠ .exited ∨ s.ready = true → ∃ t, Continues s t ∧ t.parent = .verified true) ∧
    (s.child = .exited → s.ready = false → ∀ es t, exec step es s = some t → t.parent = .poll) := by
  have hi := reachable_invariant _ (Inv numbers) (started_inv numbers shared) step_inv h
  refine ⟨fun hp => hi.ready (hi.parent hp), hi.completed, hi.verified, fun hlive => ?_,
    fun hchild hready es t ht => ?_⟩
  · cases hc : s.child with
    | copy i =>
      have hle := (hi.copied i hc).1
      obtain ⟨t, ht, hexited, hready, -⟩ := child_ends (numCount-i) hc (by omega)
      obtain ⟨u, hu, hend⟩ := parent_verifies (continues_inv hi ht) hexited hready
      exact ⟨u, reachable_along_trans ht hu, hend⟩
    | exit =>
      have hstep : Continues s { s with child := .exited } := by
        refine @continues_step _ _ .child trivial ?_
        rw [step, childStep, hc]
      obtain ⟨u, hu, hend⟩ := parent_verifies (continues_inv hi hstep) rfl (hi.exit hc)
      exact ⟨u, reachable_along_trans hstep hu, hend⟩
    | exited => exact parent_verifies hi hc (hlive.resolve_left fun hne => hne hc)
  · have hparent : s.parent = .poll := by
      by_contra hne
      cases hready.symm.trans (hi.parent hne)
    exact (exec_preserves step Abandoned abandoned_stays es s t ⟨hchild, hready, hparent⟩ ht).2.2

def twoNumbers : List Event := [.child, .parent, .child, .parent]

theorem two_numbers_run : (exec step twoNumbers
    (started (fun i => UInt8.ofNat i) fun _ => 0)).isSome = true := by
  decide +kernel

def twoNumbersEnd : Transfer :=
  (exec step twoNumbers (started (fun i => UInt8.ofNat i) fun _ => 0)).get two_numbers_run

theorem two_numbers_verified : ∃ t, Continues twoNumbersEnd t ∧ t.parent = .verified true :=
  (flag_exact (fun i => UInt8.ofNat i) (fun _ => 0) twoNumbersEnd
    (reachable_get two_numbers_run)).2.2.2.1 (Or.inl (by decide +kernel))

end ProgSistema.BulkTransfer.SharedMemory
