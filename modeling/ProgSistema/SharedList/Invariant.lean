import ProgSistema.SharedList.Model
import ProgSistema.Lib.LinkedChain

/-!
# The representation invariant of the shared list

Four descriptions of the same list are kept in the segment: the offset chain,
the flags of the pool, the counter and the head. They are tied to one list of
pool nodes, which each operation extends, shortens or leaves alone.
-/

set_option autoImplicit false

namespace ProgSistema.SharedList
open LinkedChain Runs

def offsetOf (i : Fin maxNodes) : ℤ := i

structure Represents (shm : SharedMemory) (chain : List (Fin maxNodes)) : Prop where
  linked : Linked offsetOf (-1) (fun i => (shm.nodes i).nextOffset) shm.headOffset chain
  counted : shm.count = chain.length
  used : ∀ i, i ∈ chain ↔ (shm.nodes i).isFree = 0
  freed : ∀ i, (shm.nodes i).isFree ≠ 0 → (shm.nodes i).nextOffset = -1
  unlocked : shm.mutex = 1

def stored (shm : SharedMemory) (chain : List (Fin maxNodes)) : List ℤ :=
  chain.map (fun i => (shm.nodes i).data)

theorem offset_injective : Function.Injective offsetOf := by
  intro i j h
  apply Fin.ext
  simpa [offsetOf] using h

theorem offset_not_null (i : Fin maxNodes) : offsetOf i ≠ -1 := by
  unfold offsetOf
  omega

theorem represents_nodup {shm : SharedMemory} {chain : List (Fin maxNodes)}
    (h : Represents shm chain) : chain.Nodup :=
  linked_nodup offset_injective offset_not_null _ _ h.linked

theorem represents_length {shm : SharedMemory} {chain : List (Fin maxNodes)}
    (h : Represents shm chain) : chain.length ≤ maxNodes := by
  simpa using (represents_nodup h).length_le_card

theorem represents_full {shm : SharedMemory} {chain : List (Fin maxNodes)}
    (h : Represents shm chain) (hall : ∀ i, (shm.nodes i).isFree = 0) :
    chain.length = maxNodes := by
  have hmem : ∀ i, i ∈ chain := fun i => (h.used i).mpr (hall i)
  have hperm : chain.Perm (List.finRange maxNodes) :=
    (List.perm_ext_iff_of_nodup (represents_nodup h) (List.nodup_finRange _)).mpr
      (fun i => by simp [hmem i])
  simpa using hperm.length_eq

theorem initialise_represents (raw : SharedMemory) : Represents (initialise raw) [] where
  linked := rfl
  counted := rfl
  used := by simp [initialise]
  freed := by simp [initialise]
  unlocked := rfl

theorem sem_wait_free (shm : SharedMemory) (h : shm.mutex = 1) :
    semWait shm = .ok { shm with mutex := 0 } := by
  simp [semWait, h]

theorem deref_offset (i : Fin maxNodes) : deref (some (offsetOf i)) = .ok i := by
  have h : 0 ≤ offsetOf i ∧ offsetOf i < maxNodes := by
    unfold offsetOf
    omega
  rw [deref, dif_pos h]
  rfl

theorem node_by_offset (i : Fin maxNodes) :
    getNodeByOffset (offsetOf i) = some (offsetOf i) := by
  have h : ¬ (offsetOf i = -1 ∨ offsetOf i ≥ maxNodes) := by
    unfold offsetOf
    omega
  rw [getNodeByOffset, if_neg h]

theorem free_node_offset (i : Fin maxNodes) (shm : SharedMemory) :
    freeNode (offsetOf i) shm = shm.setNode i { isFree := 1, nextOffset := -1, data := 0 } := by
  have h : 0 ≤ offsetOf i ∧ offsetOf i < maxNodes := by
    unfold offsetOf
    omega
  rw [freeNode, dif_pos h]
  rfl

/-- The first free node is taken out of the pool, unless there is none. -/
theorem allocate_node_cases (shm : SharedMemory) :
    (∃ i, (shm.nodes i).isFree ≠ 0 ∧ allocateNode shm =
      (offsetOf i, shm.setNode i { shm.nodes i with isFree := 0, nextOffset := -1 })) ∨
    ((∀ i, (shm.nodes i).isFree = 0) ∧ allocateNode shm = (-1, shm)) := by
  unfold allocateNode
  split
  · rename_i i hi
    left
    exact ⟨i, by simpa using List.find?_some hi, rfl⟩
  · rename_i hnone
    right
    refine ⟨fun i => ?_, rfl⟩
    simpa using List.find?_eq_none.mp hnone i (List.mem_finRange i)

theorem insert_full (data : ℤ) {shm : SharedMemory} {chain : List (Fin maxNodes)}
    (h : Represents shm chain) (hall : ∀ i, (shm.nodes i).isFree = 0) :
    listInsert data shm = .ok shm := by
  have ha : allocateNode { shm with mutex := 0 } = (-1, { shm with mutex := 0 }) := by
    rcases allocate_node_cases { shm with mutex := 0 } with ⟨i, hi, -⟩ | ⟨-, ha⟩
    · exact absurd (hall i) hi
    · exact ha
  have hm : { shm with mutex := 1 } = shm := by rw [← h.unlocked]
  rw [listInsert, sem_wait_free shm h.unlocked]
  simp only [ok_bind, ha, if_true, semPost]
  exact congrArg Except.ok hm

/-- An insertion that finds a free node puts it in front of the chain. The
node may hold any payload from an earlier use. -/
theorem insert_represents (data : ℤ) {shm : SharedMemory} {chain : List (Fin maxNodes)}
    (h : Represents shm chain) (hroom : chain.length < maxNodes) :
    ∃ i shm', i ∉ chain ∧ listInsert data shm = .ok shm' ∧ Represents shm' (i::chain) ∧
      stored shm' (i::chain) = data::stored shm chain := by
  rcases allocate_node_cases { shm with mutex := 0 } with ⟨i, hi, ha⟩ | ⟨hall, -⟩
  swap
  · exact absurd (represents_full h hall) (Nat.ne_of_lt hroom)
  have hni : i ∉ chain := fun hmem => hi ((h.used i).mp hmem)
  have hne : ∀ j ∈ chain, j ≠ i := fun j hj hji => hni (hji ▸ hj)
  let cell : Node := { data := data, nextOffset := shm.headOffset, isFree := 0 }
  let shm' : SharedMemory :=
    { nodes := Function.update shm.nodes i cell, headOffset := offsetOf i,
      count := shm.count+1, mutex := 1 }
  have hrun : listInsert data shm = .ok shm' := by
    rw [listInsert, sem_wait_free shm h.unlocked]
    simp only [ok_bind, ha, if_neg (offset_not_null i), deref_offset]
    simp [SharedMemory.setNode, semPost, shm', cell]
    rfl
  have hnext : (fun j => (shm'.nodes j).nextOffset) =
      Function.update (fun j => (shm.nodes j).nextOffset) i shm.headOffset := by
    funext j
    by_cases hji : j = i
    · subst hji
      simp [shm', cell]
    · simp [shm', hji]
  refine ⟨i, shm', hni, hrun, ?_, ?_⟩
  · constructor
    · rw [hnext]
      exact linked_push _ _ _ i hni h.linked rfl
    · simp [shm', h.counted]
    · intro j
      by_cases hji : j = i
      · subst hji
        simp [shm', cell]
      · simp [shm', hji, h.used j]
    · intro j
      by_cases hji : j = i
      · subst hji
        simp [shm', cell]
      · simpa [shm', hji] using h.freed j
    · rfl
  · have htail : ∀ j ∈ chain, (shm'.nodes j).data = (shm.nodes j).data := by
      intro j hj
      simp [shm', hne j hj]
    rw [stored, List.map_cons, List.map_congr_left htail]
    simp [shm', cell, stored]

theorem pop_empty {shm : SharedMemory} (h : Represents shm []) :
    listPop shm = .ok (-1, shm) := by
  have hhead : shm.headOffset = -1 := h.linked
  have hm : { shm with mutex := 1 } = shm := by rw [← h.unlocked]
  rw [listPop, sem_wait_free shm h.unlocked]
  simp only [ok_bind, hhead, if_true, semPost]
  rw [hhead] at hm
  exact congrArg (fun s => Except.ok (-1, s)) hm

/-- Removal follows the head, which is a node of the pool, returns its payload
and puts the node back among the free ones. -/
theorem pop_represents {shm : SharedMemory} {i : Fin maxNodes} {chain : List (Fin maxNodes)}
    (h : Represents shm (i::chain)) :
    ∃ shm', listPop shm = .ok ((shm.nodes i).data, shm') ∧ Represents shm' chain ∧
      stored shm' chain = stored shm chain := by
  have hni : i ∉ chain := (List.nodup_cons.mp (represents_nodup h)).1
  have hne : ∀ j ∈ chain, j ≠ i := fun j hj hji => hni (hji ▸ hj)
  have hhead : shm.headOffset = offsetOf i := h.linked.1
  let cell : Node := { data := 0, nextOffset := -1, isFree := 1 }
  let shm' : SharedMemory :=
    { nodes := Function.update shm.nodes i cell, headOffset := (shm.nodes i).nextOffset,
      count := shm.count-1, mutex := 1 }
  have hrun : listPop shm = .ok ((shm.nodes i).data, shm') := by
    rw [listPop, sem_wait_free shm h.unlocked]
    simp only [ok_bind, hhead, if_neg (offset_not_null i), node_by_offset, deref_offset,
      free_node_offset]
    rfl
  refine ⟨shm', hrun, ?_, ?_⟩
  · constructor
    · refine (linked_congr _ chain ?_).mp h.linked.2
      intro j hj
      simp [shm', hne j hj]
    · simp [shm', h.counted]
    · intro j
      by_cases hji : j = i
      · subst hji
        simp [shm', cell, hni]
      · simpa [shm', hji] using h.used j
    · intro j
      by_cases hji : j = i
      · subst hji
        simp [shm', cell]
      · simpa [shm', hji] using h.freed j
    · rfl
  · apply List.map_congr_left
    intro j hj
    simp [shm', hne j hj]

theorem count_represents {shm : SharedMemory} {chain : List (Fin maxNodes)}
    (h : Represents shm chain) : listCount shm = .ok ((chain.length : ℤ), shm) := by
  have hm : { shm with mutex := 1 } = shm := by rw [← h.unlocked]
  rw [listCount, sem_wait_free shm h.unlocked]
  simp only [ok_bind, semPost]
  show Except.ok (shm.count, { shm with mutex := 1 }) = _
  rw [hm, h.counted]

/-- The loop visits the chain and nothing else: it evaluates its condition
once for each node and once more at the end. -/
theorem print_loop_linked (nodes : Fin maxNodes → Node) (p : ℤ) (chain : List (Fin maxNodes))
    (h : Linked offsetOf (-1) (fun i => (nodes i).nextOffset) p chain) (fuel : ℕ) :
    printLoop nodes fuel p = if chain.length < fuel
      then .ok (chain.map (fun i => (nodes i).data)) else .error .outOfFuel := by
  induction chain generalizing p fuel with
  | nil =>
    have hp : p = -1 := h
    cases fuel <;> simp [printLoop, hp]
  | cons i chain ih =>
    cases fuel with
    | zero => simp [printLoop]
    | succ fuel =>
      rw [printLoop, h.1, if_neg (offset_not_null i), node_by_offset, deref_offset]
      simp only [ok_bind, ih _ h.2, List.length_cons, Nat.add_lt_add_iff_right]
      split <;> rfl

theorem print_represents {shm : SharedMemory} {chain : List (Fin maxNodes)}
    (h : Represents shm chain) (fuel : ℕ) :
    listPrint fuel shm = if chain.length < fuel
      then .ok ((stored shm chain, (chain.length : ℤ)), shm) else .error .outOfFuel := by
  have hm : { shm with mutex := 1 } = shm := by rw [← h.unlocked]
  rw [listPrint, sem_wait_free shm h.unlocked]
  simp only [ok_bind, print_loop_linked shm.nodes _ chain h.linked]
  split
  · show Except.ok ((_, shm.count), { shm with mutex := 1 }) = _
    rw [hm, h.counted]
    rfl
  · rfl

end ProgSistema.SharedList
