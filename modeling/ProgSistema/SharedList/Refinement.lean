import ProgSistema.SharedList.Invariant
import ProgSistema.Lib.BoundedStack

/-!
# The shared list is a bounded stack

The pool with first-fit reuse of freed nodes implements a stack of integers
of height at most the pool size. The simulation relation forgets which nodes
carry the elements; it holds after every finite sequence of critical sections.
-/

set_option autoImplicit false

namespace ProgSistema.SharedList
open Runs

abbrev Stack := BoundedStack ℤ maxNodes

def stackStep : Pid × Op → Stack → (Pid × Reply) × Stack
  | (pid, .insert data), s => ((pid, .void), s.push data)
  | (pid, .pop), s => ((pid, .value (s.top?.getD (-1))), s.pop)
  | (pid, .count), s => ((pid, .value s.height), s)
  | (pid, .print), s => ((pid, .printed s.items s.height), s)

def stackReplies (requests : List (Pid × Op)) : List (Pid × Reply) :=
  (replies stackStep requests BoundedStack.empty).1

def stackAfter (requests : List (Pid × Op)) : Stack :=
  (replies stackStep requests BoundedStack.empty).2

def Holds (shm : SharedMemory) (s : Stack) : Prop :=
  ∃ chain, Represents shm chain ∧ stored shm chain = s.items

theorem initialise_holds (raw : SharedMemory) : Holds (initialise raw) BoundedStack.empty :=
  ⟨[], initialise_represents raw, rfl⟩

theorem stored_length (shm : SharedMemory) (chain : List (Fin maxNodes)) :
    (stored shm chain).length = chain.length := by
  simp [stored]

/-- The head of a list is a node of the pool. -/
theorem head_holds {shm : SharedMemory} {s : Stack} (h : Holds shm s) :
    shm.headOffset = -1 ∨ ∃ i : Fin maxNodes, shm.headOffset ≠ -1 ∧
      deref (some shm.headOffset) = .ok i := by
  obtain ⟨chain, hr, -⟩ := h
  cases chain with
  | nil => exact .inl hr.linked
  | cons i chain =>
    rw [hr.linked.1]
    exact .inr ⟨i, offset_not_null i, deref_offset i⟩

theorem sem_wait_holds {shm : SharedMemory} {s : Stack} (h : Holds shm s) :
    semWait shm = .ok { shm with mutex := 0 } ∧ semPost { shm with mutex := 0 } = shm := by
  obtain ⟨chain, hr, -⟩ := h
  refine ⟨sem_wait_free shm hr.unlocked, ?_⟩
  show { shm with mutex := 1 } = shm
  rw [← hr.unlocked]

theorem height_eq {shm : SharedMemory} {chain : List (Fin maxNodes)} {s : Stack}
    (h : stored shm chain = s.items) : s.height = chain.length := by
  rw [BoundedStack.height, ← h, stored_length]

theorem insert_holds (data : ℤ) {shm : SharedMemory} {s : Stack} (h : Holds shm s) :
    ∃ shm', listInsert data shm = .ok shm' ∧ Holds shm' (s.push data) ∧
      (s.height = maxNodes → shm' = shm) := by
  obtain ⟨chain, hr, hs⟩ := h
  have hh := height_eq hs
  by_cases hroom : chain.length < maxNodes
  · obtain ⟨i, shm', -, hrun, hr', hs'⟩ := insert_represents data hr hroom
    refine ⟨shm', hrun, ⟨i::chain, hr', ?_⟩, fun hfull => by omega⟩
    rw [hs', hs, BoundedStack.items_push_of_lt data s (by omega)]
  · have hle := represents_length hr
    have hall : ∀ i, (shm.nodes i).isFree = 0 := by
      by_contra hex
      push Not at hex
      obtain ⟨i, hi⟩ := hex
      have hcons : (i::chain).Nodup :=
        List.nodup_cons.mpr ⟨fun hm => hi ((hr.used i).mp hm), represents_nodup hr⟩
      have hcard : (i::chain).length ≤ maxNodes := by simpa using hcons.length_le_card
      rw [List.length_cons] at hcard
      omega
    refine ⟨shm, insert_full data hr hall, ⟨chain, hr, ?_⟩, fun _ => rfl⟩
    rw [BoundedStack.push_of_full data s (by omega), hs]

theorem pop_holds {shm : SharedMemory} {s : Stack} (h : Holds shm s) :
    ∃ shm', listPop shm = .ok (s.top?.getD (-1), shm') ∧ Holds shm' s.pop ∧
      (s.items = [] → shm' = shm) := by
  obtain ⟨chain, hr, hs⟩ := h
  cases chain with
  | nil =>
    have hs' : s.items = [] := hs.symm
    refine ⟨shm, ?_, ⟨[], hr, ?_⟩, fun _ => rfl⟩
    · rw [pop_empty hr, BoundedStack.top?, hs']
      rfl
    · rw [BoundedStack.pop_of_empty s hs', hs]
  | cons i chain =>
    obtain ⟨shm', hrun, hr', hst⟩ := pop_represents hr
    have hitems : s.items = (shm.nodes i).data::stored shm chain := hs.symm
    refine ⟨shm', ?_, ⟨chain, hr', ?_⟩, fun hempty => ?_⟩
    · rw [hrun, BoundedStack.top?, hitems]
      rfl
    · rw [hst, BoundedStack.items_pop, hitems]
      rfl
    · rw [hempty] at hitems
      cases hitems

theorem count_holds {shm : SharedMemory} {s : Stack} (h : Holds shm s) :
    listCount shm = .ok ((s.height : ℤ), shm) := by
  obtain ⟨chain, hr, hs⟩ := h
  rw [count_represents hr, height_eq hs]

theorem print_holds {shm : SharedMemory} {s : Stack} (h : Holds shm s) (fuel : ℕ)
    (hfuel : maxNodes < fuel) :
    listPrint fuel shm = .ok ((s.items, (s.height : ℤ)), shm) := by
  obtain ⟨chain, hr, hs⟩ := h
  have hlen : chain.length < fuel := (represents_length hr).trans_lt hfuel
  rw [print_represents hr, if_pos hlen, hs, height_eq hs]

theorem step_holds (fuel : ℕ) (hfuel : maxNodes < fuel) (request : Pid × Op)
    (shm : SharedMemory) (s : Stack) (h : Holds shm s) :
    ∃ shm', step fuel request shm = .ok ((stackStep request s).1, shm') ∧
      Holds shm' (stackStep request s).2 := by
  obtain ⟨pid, op⟩ := request
  cases op with
  | insert data =>
    obtain ⟨shm', hrun, hh, -⟩ := insert_holds data h
    exact ⟨shm', by rw [step, hrun]; rfl, hh⟩
  | pop =>
    obtain ⟨shm', hrun, hh, -⟩ := pop_holds h
    exact ⟨shm', by rw [step, hrun]; rfl, hh⟩
  | count => exact ⟨shm, by rw [step, count_holds h]; rfl, h⟩
  | print => exact ⟨shm, by rw [step, print_holds h fuel hfuel]; rfl, h⟩

theorem run_holds (fuel : ℕ) (hfuel : maxNodes < fuel) (raw : SharedMemory)
    (requests : List (Pid × Op)) :
    ∃ shm, run (step fuel) requests (initialise raw) = .ok (stackReplies requests, shm) ∧
      Holds shm (stackAfter requests) :=
  run_simulates (step fuel) stackStep Holds (step_holds fuel hfuel) requests _ _
    (initialise_holds raw)

/-- After every finite sequence of critical sections the offsets from the head
run through exactly the used nodes of the pool. No operation blocks, leaves
the pool or loops, and an allocation takes a node outside the chain. -/
theorem list_well_formed (raw : SharedMemory) (requests : List (Pid × Op)) :
    ∃ answers shm chain,
      run (step (maxNodes+1)) requests (initialise raw) = .ok (answers, shm) ∧
      Represents shm chain ∧ chain.Nodup ∧
      (∀ fuel, listPrint fuel shm = if chain.length < fuel
        then .ok ((stored shm chain, shm.count), shm) else .error .outOfFuel) ∧
      (∃ v shm', listPop shm = .ok (v, shm')) ∧
      ((∃ i, i ∉ chain ∧ (allocateNode shm).1 = offsetOf i) ∨
        (chain.length = maxNodes ∧ allocateNode shm = (-1, shm))) := by
  obtain ⟨shm, hrun, hh⟩ := run_holds (maxNodes+1) (Nat.lt_succ_self _) raw requests
  obtain ⟨shm', hpop, -, -⟩ := pop_holds hh
  obtain ⟨chain, hr, -⟩ := hh
  refine ⟨_, shm, chain, hrun, hr, represents_nodup hr, ?_, ⟨_, shm', hpop⟩, ?_⟩
  · intro fuel
    rw [print_represents hr, hr.counted]
  · rcases allocate_node_cases shm with ⟨i, hi, ha⟩ | ⟨hall, ha⟩
    · left
      exact ⟨i, fun hm => hi ((hr.used i).mp hm), by rw [ha]⟩
    · right
      exact ⟨represents_full hr hall, ha⟩

/-- Every interleaving of whole operations answers as one bounded stack does,
which is unchanged, with the segment, by a push when full and a pop when empty. -/
theorem list_refines_stack (raw : SharedMemory) (requests : List (Pid × Op)) :
    ∃ shm, run (step (maxNodes+1)) requests (initialise raw) =
        .ok (stackReplies requests, shm) ∧
      Holds shm (stackAfter requests) ∧ (stackAfter requests).items.length ≤ maxNodes ∧
      (∀ data, ∃ shm', listInsert data shm = .ok shm' ∧
        Holds shm' ((stackAfter requests).push data) ∧
        ((stackAfter requests).items.length < maxNodes →
          ((stackAfter requests).push data).items = data::(stackAfter requests).items) ∧
        ((stackAfter requests).items.length = maxNodes → shm' = shm)) ∧
      (∃ shm', listPop shm = .ok ((stackAfter requests).items.head?.getD (-1), shm') ∧
        Holds shm' (stackAfter requests).pop ∧
        ((stackAfter requests).items = [] → shm' = shm)) ∧
      listCount shm = .ok (((stackAfter requests).items.length : ℤ), shm) := by
  obtain ⟨shm, hrun, hh⟩ := run_holds (maxNodes+1) (Nat.lt_succ_self _) raw requests
  refine ⟨shm, hrun, hh, BoundedStack.bounded _, ?_, pop_holds hh, count_holds hh⟩
  intro data
  obtain ⟨shm', hins, hh', hfull⟩ := insert_holds data hh
  exact ⟨shm', hins, hh', BoundedStack.items_push_of_lt data _, hfull⟩

end ProgSistema.SharedList
