import ProgSistema.SharedList.Menu

/-!
# What the menu reports

The insertion returns nothing and the removal returns its failure as a value, so
the menu reports insertions that have not been made and a list that is not empty
as empty.
-/

set_option autoImplicit false

namespace ProgSistema.SharedList
open CRuntime Runs

/-- In every state the two processes reach, with one of them idle, the commands 1
and 5 report the increase of the counter exactly if the values are there and find
room. -/
theorem insertions_reported_iff (raw : SharedMemory) (requests : List (Pid × Op))
    (stdin : Bytes) : ∃ answers shm o₁ o₅,
      run (step (maxNodes+1)) requests (initialise raw) = .ok (answers, shm) ∧
      eseguiComando 1 stdin shm = .ok o₁ ∧
      (o₁.insertions = o₁.shm.count-shm.count ↔ ElementFits shm.count stdin) ∧
      eseguiComando 5 stdin shm = .ok o₅ ∧
      (o₅.insertions = o₅.shm.count-shm.count ↔ ElementsFit shm.count stdin) := by
  obtain ⟨shm, hrun, hh⟩ := run_holds (maxNodes+1) (Nat.lt_succ_self _) raw requests
  obtain ⟨o₁, s₁, hone, h₁, hiff₁⟩ := inserisci_elemento_holds stdin hh
  obtain ⟨o₅, s₅, hmany, h₅, hiff₅⟩ := inserisci_multipli_holds stdin hh
  refine ⟨_, shm, o₁, o₅, hrun, hone, ?_, hmany, ?_⟩
  · rw [count_height h₁, count_height hh]
    exact hiff₁
  · rw [count_height h₅, count_height hh]
    exact hiff₅

def blankSegment : SharedMemory := ⟨fun _ => ⟨0, 0, 0⟩, 0, 0, 0⟩

/-- Two elements are announced, and the second one is not a number. -/
theorem one_of_two_reported : ¬ ∀ (raw : SharedMemory) (requests : List (Pid × Op))
    (scelta : ℤ) (stdin : Bytes) (answers : List (Pid × Reply)) (shm : SharedMemory) (o : Outcome),
    run (step (maxNodes+1)) requests (initialise raw) = .ok (answers, shm) →
    scelta = 1 ∨ scelta = 5 → eseguiComando scelta stdin shm = .ok o →
    o.insertions = o.shm.count-shm.count := by
  intro h
  have hrun : (eseguiComando 5 (text "2\n7\nx\n") (initialise blankSegment)).map
      (fun o => (o.insertions, o.shm.count)) = .ok (2, 1) := by decide +kernel
  obtain ⟨o, s', ho, -⟩ := comando_holds 5 (text "2\n7\nx\n") (initialise_holds blankSegment)
  rw [ho] at hrun
  obtain ⟨hinsertions, hcount⟩ := Prod.mk.inj (Except.ok.inj hrun)
  have heq := h blankSegment [] 5 (text "2\n7\nx\n") [] _ o rfl (.inr rfl) ho
  rw [hinsertions, hcount] at heq
  cases heq

/-- The command 2 reports an empty list exactly when there is none to remove, and
else the value removed, exactly if the first value is not `-1`. -/
theorem pop_reported_iff (raw : SharedMemory) (requests : List (Pid × Op)) (stdin : Bytes) :
    ∃ answers shm o,
      run (step (maxNodes+1)) requests (initialise raw) = .ok (answers, shm) ∧
      Holds shm (stackAfter requests) ∧ eseguiComando 2 stdin shm = .ok o ∧
      Holds o.shm (stackAfter requests).pop ∧
      ((o.reports = [.emptyList] ↔ (stackAfter requests).items = []) ∧
        (∀ v, (stackAfter requests).items.head? = some v → o.reports = [.removed v]) ↔
      (stackAfter requests).items.head? ≠ some (-1)) := by
  obtain ⟨shm, hrun, hh⟩ := run_holds (maxNodes+1) (Nat.lt_succ_self _) raw requests
  obtain ⟨shm', hpop, hh', -⟩ := pop_holds hh
  rw [BoundedStack.top?] at hpop
  have hcommand : eseguiComando 2 stdin shm =
      .ok ⟨if (stackAfter requests).items.head?.getD (-1) ≠ -1
        then [.removed ((stackAfter requests).items.head?.getD (-1))] else [.emptyList],
        shm', some stdin⟩ := by
    have hstart : eseguiComando 2 stdin shm = rimuoviElemento stdin shm := rfl
    rw [hstart, rimuoviElemento, hpop, ok_bind]
    dsimp only
    split
    · rfl
    · rfl
  refine ⟨_, shm, _, hrun, hh, hcommand, hh', ?_⟩
  dsimp only
  cases (stackAfter requests).items with
  | nil => simp
  | cons v items =>
    by_cases hv : v = -1
    · simp [hv]
    · simp [hv]

/-- The value `-1` is removed, and the list reported empty. -/
theorem minus_one_reported_empty : ¬ ∀ (raw : SharedMemory) (requests : List (Pid × Op))
    (stdin : Bytes) (answers : List (Pid × Reply)) (shm : SharedMemory) (o : Outcome),
    run (step (maxNodes+1)) requests (initialise raw) = .ok (answers, shm) →
    eseguiComando 2 stdin shm = .ok o →
    (o.reports = [.emptyList] ↔ (stackAfter requests).items = []) := by
  intro h
  obtain ⟨shm, hrun, hh⟩ :=
    run_holds (maxNodes+1) (Nat.lt_succ_self _) blankSegment [(1, .insert (-1))]
  obtain ⟨shm', hpop, -, -⟩ := pop_holds hh
  have hcommand : eseguiComando 2 [] shm = .ok ⟨[.emptyList], shm', some []⟩ := by
    have hstart : eseguiComando 2 [] shm = rimuoviElemento [] shm := rfl
    rw [hstart, rimuoviElemento, hpop]
    rfl
  have hempty := (h blankSegment [(1, .insert (-1))] [] _ shm _ hrun hcommand).mp rfl
  revert hempty
  decide

end ProgSistema.SharedList
