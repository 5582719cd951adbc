import ProgSistema.SharedArray.Model

/-!
# What the array holds

The ledger of additions and removals accounts for every record: the array
holds those added since the last reset and not removed, in the order of their
additions, and each removal takes a record that no other one takes.
-/

set_option autoImplicit false

namespace ProgSistema.SharedArray
open CRuntime ArrayPrefix

def SharedMemory.records (shm : SharedMemory) : List Record := contents shm.array shm.items.toNat

def SharedMemory.Bounded (shm : SharedMemory) : Prop := 0 ≤ shm.items ∧ shm.items ≤ maxRecord

section Operations
variable {shm : SharedMemory}

theorem to_int_nat {x : ℤ} (hlow : 0 ≤ x) (hhigh : x < 2^31) : toInt x = x := by
  obtain ⟨n, rfl⟩ := Int.eq_ofNat_of_zero_le hlow
  exact to_int_of_lt n (by omega)

theorem records_length (h : shm.Bounded) : (shm.records.length : ℤ) = shm.items := by
  rw [SharedMemory.records, contents_length]
  exact Int.toNat_of_nonneg h.1

/-- Where there is room, the record is appended. -/
theorem store_spec (shm : SharedMemory) (hlow : 0 ≤ shm.items)
    (hroom : shm.items < maxRecord) (record : Record) :
    let shm' : SharedMemory :=
      ⟨Function.update shm.array shm.items.toNat record, toInt (shm.items+1)⟩
    shm'.Bounded ∧ shm'.records = shm.records++[record] := by
  have hnext : toInt (shm.items+1) = shm.items+1 := by
    unfold maxRecord at hroom
    exact to_int_nat (by omega) (by omega)
  constructor
  · show 0 ≤ toInt (shm.items+1) ∧ toInt (shm.items+1) ≤ maxRecord
    rw [hnext]
    omega
  · show contents _ (toInt (shm.items+1)).toNat = _
    rw [hnext, Int.toNat_add hlow (by omega)]
    exact contents_append _ _ _

/-- The array is emptied first if it is full. -/
theorem add_spec (h : shm.Bounded) (record : Record) :
    ∃ shm', addRecordToArray record shm = .ok shm' ∧ shm'.Bounded ∧
      shm'.records =
        if shm.records.length ≥ maxRecord then [record] else shm.records++[record] := by
  have hlen := records_length h
  obtain ⟨hlow, hhigh⟩ := h
  unfold addRecordToArray
  by_cases hfull : shm.items ≥ maxRecord
  · have hpos : (0 : ℤ) < maxRecord := by decide
    rw [if_pos hfull, if_pos ⟨le_rfl, hpos⟩, if_pos (by omega)]
    exact ⟨_, rfl, store_spec { shm with items := 0 } le_rfl hpos record⟩
  · have hroom : shm.items < maxRecord := by omega
    rw [if_neg hfull, if_pos ⟨hlow, hroom⟩, if_neg (by omega)]
    exact ⟨_, rfl, store_spec shm hlow hroom record⟩

theorem remove_empty (h : shm.items = 0) (rand : ℕ) :
    removeRecord rand shm = .ok (none, shm) := by
  rw [removeRecord, if_pos h]

/-- The record at the random position is taken out. -/
theorem remove_spec (h : shm.Bounded) (hsome : shm.items ≠ 0) (rand : ℕ) :
    ∃ record shm', removeRecord rand shm = .ok (some record, shm') ∧ shm'.Bounded ∧
      shm.records[(randomIndex rand shm.items).toNat]? = some record ∧
      shm'.records = shm.records.eraseIdx (randomIndex rand shm.items).toNat := by
  obtain ⟨hlow, hhigh⟩ := h
  have hpos : 0 < shm.items := by omega
  have hindex : randomIndex rand shm.items < shm.items := Int.emod_lt_of_pos _ hpos
  have hindex' : 0 ≤ randomIndex rand shm.items := Int.emod_nonneg _ hsome
  have hnext : toInt (shm.items-1) = shm.items-1 := by
    unfold maxRecord at hhigh
    exact to_int_nat (by omega) (by omega)
  rw [removeRecord, if_neg hsome]
  dsimp only
  rw [if_pos ⟨by omega, hhigh⟩]
  refine ⟨_, _, rfl, ?_, ?_, ?_⟩
  · show 0 ≤ toInt (shm.items-1) ∧ toInt (shm.items-1) ≤ maxRecord
    rw [hnext]
    omega
  · exact contents_get _ _ _ (by omega)
  · show contents _ (toInt (shm.items-1)).toNat = _
    have hshift : (shm.items-1-randomIndex rand shm.items).toNat =
        shm.items.toNat-1-(randomIndex rand shm.items).toNat := by omega
    have hlast : (shm.items-1).toNat = shm.items.toNat-1 := by omega
    rw [hnext, hshift, hlast]
    exact shift_down_contents _ _ _ (by omega)

end Operations

section Steps
variable {ι : Type} {role : ι → Role}

structure Conserved (k : Shared ι) : Prop where
  bounded : k.shm.Bounded
  valid : k.ledger.Valid
  holds : k.ledger.Holds k.shm.records
  obtained : k.obtained.map (fun o => some o.2) = k.ledger.removed.map (k.ledger.added[·]?)

theorem conserved_initialised (shm : SharedMemory) :
    Conserved (initialised shm : Processes ι).shared := by
  refine ⟨?_, Ledger.valid_empty, Ledger.holds_empty, rfl⟩
  show (0 : ℤ) ≤ 0 ∧ (0 : ℤ) ≤ maxRecord
  unfold maxRecord
  decide

theorem call_add_spec {k : Shared ι} (h : Conserved k) (record : Record) :
    (callAdd record k).1 = .semPost none ∧ Conserved (callAdd record k).2 ∧
      (callAdd record k).2.shm.records =
        (if k.shm.records.length ≥ maxRecord then [record] else k.shm.records++[record]) ∧
      (callAdd record k).2.obtained = k.obtained ∧ (callAdd record k).2.sem = k.sem := by
  obtain ⟨shm', hok, hbounded, hrecords⟩ := add_spec h.bounded record
  unfold callAdd
  rw [hok]
  refine ⟨rfl, ⟨hbounded, Ledger.valid_add h.valid _ _, ?_, ?_⟩, hrecords, rfl, rfl⟩
  · show (k.ledger.add maxRecord record).Holds shm'.records
    rw [hrecords]
    exact Ledger.holds_add h.valid h.holds maxRecord record
  · exact h.obtained.trans (Ledger.removed_add h.valid _ _).symm

/-- Either the array is empty and nothing happens, or the record at the random
position is obtained and taken out. -/
theorem call_remove_spec {k : Shared ι} (h : Conserved k) (i : ι) (rand : ℕ) :
    (k.shm.items = 0 ∧ callRemove i rand k = (.stopped, k)) ∨
      k.shm.items ≠ 0 ∧ ∃ record, (callRemove i rand k).1 = .semPost (some record) ∧
        Conserved (callRemove i rand k).2 ∧
        k.shm.records[(randomIndex rand k.shm.items).toNat]? = some record ∧
        (callRemove i rand k).2.shm.records =
          k.shm.records.eraseIdx (randomIndex rand k.shm.items).toNat ∧
        (callRemove i rand k).2.obtained = k.obtained++[(i, record)] ∧
        (callRemove i rand k).2.sem = k.sem := by
  by_cases hempty : k.shm.items = 0
  · left
    refine ⟨hempty, ?_⟩
    unfold callRemove
    rw [remove_empty hempty]
  · right
    obtain ⟨record, shm', hok, hbounded, hget, hrecords⟩ := remove_spec h.bounded hempty rand
    obtain ⟨p, hp, hadded⟩ := Ledger.holds_get h.holds hget
    unfold callRemove
    rw [hok]
    refine ⟨hempty, record, rfl, ⟨hbounded, Ledger.valid_take h.valid _, ?_, ?_⟩, hget, hrecords,
      rfl, rfl⟩
    · show (k.ledger.take _).Holds shm'.records
      rw [hrecords]
      exact Ledger.holds_take h.holds _
    · show (k.obtained++[(i, record)]).map (fun o => some o.2) =
        (k.ledger.removed++k.ledger.present[(randomIndex rand k.shm.items).toNat]?.toList).map
          (k.ledger.added[·]?)
      rw [List.map_append, List.map_append, h.obtained, hp, Option.toList_some, List.map_singleton,
        List.map_singleton, hadded]

def Pc.inside : Pc → Bool
  | .critical _ => true
  | .semPost _ => true
  | _ => false

/-- What one step of a process can be. -/
theorem act_cases {i : ι} {e : Event} {pc pc' : Pc} {k k' : Shared ι}
    (h : act role i e pc k = some (pc', k')) :
    (pc.inside = false ∧ pc'.inside = false ∧ pc' ≠ .crashed ∧ k' = k) ∨
      (∃ call, pc = .semWait call ∧ pc' = .critical call ∧ k.sem ≠ 0 ∧
        k' = { k with sem := k.sem-1 }) ∨
      (∃ record, pc = .critical (.add record) ∧ (pc', k') = callAdd record k) ∨
      (∃ rand, pc = .critical .remove ∧ (pc', k') = callRemove i rand k) ∨
      ∃ removed, pc = .semPost removed ∧ pc' = afterPost removed ∧
        k' = { k with sem := k.sem+1 } := by
  unfold act at h
  split at h
  · split at h
    · cases h
      exact .inl ⟨rfl, rfl, by simp, rfl⟩
    · cases h
  · split at h
    · cases h
      exact .inl ⟨rfl, rfl, by simp, rfl⟩
    · cases h
  · cases h
    exact .inl ⟨rfl, rfl, by simp, rfl⟩
  · rename_i interrupted call
    split at h
    · cases h
      exact .inl ⟨rfl, rfl, by simp, rfl⟩
    · split at h
      · cases h
      · rename_i hsem
        cases h
        exact .inr (.inl ⟨call, rfl, rfl, hsem, rfl⟩)
  · rename_i record
    exact .inr (.inr (.inl ⟨record, rfl, (Option.some.inj h).symm⟩))
  · rename_i rand
    exact .inr (.inr (.inr (.inl ⟨rand, rfl, (Option.some.inj h).symm⟩)))
  · rename_i removed
    cases h
    exact .inr (.inr (.inr (.inr ⟨removed, rfl, rfl, rfl⟩)))
  · cases h

def RecordsStep (i : ι) (k k' : Shared ι) : Prop :=
  (k'.shm.records = k.shm.records ∧ k'.obtained = k.obtained) ∨
    (∃ record, k'.shm.records =
        (if k.shm.records.length ≥ maxRecord then [record] else k.shm.records++[record]) ∧
      k'.obtained = k.obtained) ∨
    ∃ index record, k.shm.records[index]? = some record ∧
      k'.shm.records = k.shm.records.eraseIdx index ∧ k'.obtained = k.obtained++[(i, record)]

theorem act_conserved {i : ι} {e : Event} {pc pc' : Pc} {k k' : Shared ι} (hi : Conserved k)
    (h : act role i e pc k = some (pc', k')) :
    Conserved k' ∧ pc' ≠ .crashed ∧ RecordsStep i k k' := by
  rcases act_cases h with ⟨-, -, hpc, rfl⟩ | ⟨call, -, rfl, -, rfl⟩ | ⟨record, -, heq⟩ |
    ⟨rand, -, heq⟩ | ⟨removed, -, rfl, rfl⟩
  · exact ⟨hi, hpc, .inl ⟨rfl, rfl⟩⟩
  · exact ⟨⟨hi.bounded, hi.valid, hi.holds, hi.obtained⟩, by simp, .inl ⟨rfl, rfl⟩⟩
  · obtain ⟨hpc, hk, hrecords, hobt, -⟩ := call_add_spec hi record
    rw [← heq] at hpc hk hrecords hobt
    refine ⟨hk, ?_, .inr (.inl ⟨record, hrecords, hobt⟩)⟩
    show pc' ≠ .crashed
    rw [show pc' = .semPost none from hpc]
    simp
  · rcases call_remove_spec hi i rand with
      ⟨-, hstop⟩ | ⟨-, record, hpc, hk, hget, hrecords, hobt, -⟩
    · rw [hstop] at heq
      cases heq
      exact ⟨hi, by simp, .inl ⟨rfl, rfl⟩⟩
    · rw [← heq] at hpc hk hrecords hobt
      refine ⟨hk, ?_, .inr (.inr ⟨_, record, hget, hrecords, hobt⟩)⟩
      show pc' ≠ .crashed
      rw [show pc' = .semPost (some record) from hpc]
      simp
  · refine ⟨⟨hi.bounded, hi.valid, hi.holds, hi.obtained⟩, ?_, .inl ⟨rfl, rfl⟩⟩
    unfold afterPost
    split <;> simp

structure ArrayInv (s : Processes ι) : Prop where
  conserved : Conserved s.shared
  running : ∀ i, s.procs i ≠ .crashed

theorem array_inv_initialised (shm : SharedMemory) : ArrayInv (initialised shm : Processes ι) :=
  ⟨conserved_initialised shm, fun _ => by simp [initialised]⟩

variable [DecidableEq ι]

theorem step_array_inv (a : ι × Event) (s t : Processes ι) (hi : ArrayInv s)
    (h : Sharing.step (act role) a s = some t) : ArrayInv t := by
  obtain ⟨pc, k, hact, rfl⟩ := Sharing.step_next _ h
  obtain ⟨hk, hpc, -⟩ := act_conserved hi.conserved hact
  refine ⟨hk, ?_⟩
  exact (Function.forall_update_iff s.procs fun _ q => q ≠ .crashed).mpr
    ⟨hpc, fun i _ => hi.running i⟩

theorem reachable_array_inv {shm : SharedMemory} {s : Processes ι}
    (h : Runs.Reachable (Sharing.step (act role)) (initialised shm) s) : ArrayInv s :=
  Runs.reachable_invariant _ ArrayInv (array_inv_initialised shm) step_array_inv h

/-- The array holds the records added since the last reset and not removed, in
the order of their additions; whatever a consumer has obtained was added, and
no other removal took it. -/
theorem array_conserved (role : ι → Role) (shm : SharedMemory) (s : Processes ι)
    (h : Runs.Reachable (Sharing.step (act role)) (initialised shm) s) :
    (0 ≤ s.shared.shm.items ∧ s.shared.shm.items ≤ maxRecord) ∧
      s.shared.shm.records.map some =
        s.shared.ledger.remaining.map (s.shared.ledger.added[·]?) ∧
      s.shared.obtained.map (fun o => some o.2) =
        s.shared.ledger.removed.map (s.shared.ledger.added[·]?) ∧
      s.shared.ledger.removed.Nodup ∧
      (∀ i, s.procs i ≠ .crashed) ∧
      ∀ a t, Sharing.step (act role) a s = some t → RecordsStep a.1 s.shared t.shared := by
  have hi := reachable_array_inv h
  have hholds := hi.conserved.holds
  unfold Ledger.Holds at hholds
  rw [hi.conserved.valid.present] at hholds
  refine ⟨hi.conserved.bounded, hholds, hi.conserved.obtained, hi.conserved.valid.nodup,
    hi.running, ?_⟩
  intro a t hstep
  obtain ⟨pc, k, hact, rfl⟩ := Sharing.step_next _ hstep
  exact (act_conserved hi.conserved hact).2.2

end Steps

def threeRoles (i : Fin 3) : Role := if i = 0 then .producer else .consumer

def addOne (record : Record) : List (Fin 3 × Event) :=
  [(0, .produce record), (0, .wait false), (0, .work 0), (0, .post)]

def removeOne (i : Fin 3) (rand : ℕ) : List (Fin 3 × Event) :=
  [(i, .consume), (i, .wait false), (i, .work rand), (i, .post)]

def fiveCalls : List (Fin 3 × Event) :=
  [addOne ⟨text "10:00:00", 5⟩, addOne ⟨text "10:00:00", 5⟩, addOne ⟨text "10:00:01", 7⟩,
    removeOne 1 3, removeOne 2 3].flatten

theorem five_calls_run : (Runs.exec (Sharing.step (act threeRoles)) fiveCalls
    (initialised ⟨fun _ => ⟨[], 0⟩, 0⟩)).isSome = true := by
  decide +kernel

def fiveCallsEnd : Processes (Fin 3) := (Runs.exec (Sharing.step (act threeRoles)) fiveCalls
  (initialised ⟨fun _ => ⟨[], 0⟩, 0⟩)).get five_calls_run

theorem five_calls_conserved : fiveCallsEnd.shared.shm.records = [⟨text "10:00:00", 5⟩] ∧
    fiveCallsEnd.shared.ledger.remaining = [1] ∧ fiveCallsEnd.shared.ledger.removed.Nodup := by
  obtain ⟨-, hrecords, -, hnodup, -, -⟩ := array_conserved threeRoles ⟨fun _ => ⟨[], 0⟩, 0⟩
    fiveCallsEnd (Runs.reachable_get five_calls_run)
  have hremaining : fiveCallsEnd.shared.ledger.remaining = [1] := by decide +kernel
  have hadded : fiveCallsEnd.shared.ledger.added[1]? = some ⟨text "10:00:00", 5⟩ := by
    decide +kernel
  rw [hremaining, List.map_singleton, hadded] at hrecords
  refine ⟨?_, hremaining, hnodup⟩
  exact List.map_injective_iff.mpr (Option.some_injective _) hrecords

end ProgSistema.SharedArray
