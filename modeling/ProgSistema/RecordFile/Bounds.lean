import ProgSistema.Lib.Custody
import ProgSistema.Lib.Decimal
import ProgSistema.RecordFile.Model

/-!
# The bounds of the mapped file

A record is at most forty-eight bytes long and two processes write at most
twenty of them. They stay far from the end of the mapping, although the test for
it forgets the fields before the data, and the position is never reset.
-/

set_option autoImplicit false

namespace ProgSistema.RecordFile
open CRuntime ArrayPrefix

theorem digits_length (width n : ℕ) : (digits width n).length = width := by
  induction width generalizing n with
  | zero => rfl
  | succ width ih => rw [digits, List.length_append, ih, List.length_singleton]

theorem timestamp_length (time : Timestamp) : (getTimestamp time).length = 19 := by
  simp only [getTimestamp, List.length_append, digits_length]
  rfl

def maxRecordLength : ℕ := 48

theorem record_length (processId : ProcessId) (rand : ℕ) (time : Timestamp) :
    (snprintf recordSize
      (processWritingFile.format processId (rand % 10000) time)).length ≤ maxRecordLength := by
  have hpid : (decimal processId).length ≤ 10 := decimal_length (by decide) processId.isLt
  have hrand : (decimal (rand % 10000)).length ≤ 4 :=
    decimal_length (by decide) (Nat.mod_lt _ (by decide))
  have htime := timestamp_length time
  have hformat : (processWritingFile.format processId (rand % 10000) time).length ≤ 48 := by
    have hone : (text "_").length = 1 := rfl
    have htwo : (text "'\n").length = 2 := rfl
    simp only [processWritingFile, print_nat, List.length_append, htime, hone, htwo]
    omega
  rw [snprintf, List.length_take]
  exact (min_le_right _ _).trans hformat

def Pc.budget : Pc → ℕ
  | loop i | semWait i | testCount i | generate i => i
  | testSpace i _ | copy i _ _ | setPosition i _ _ => i
  | addCount i | semPost i | testLimit i => i+1
  | ended => 10

def Pc.Bounded : Pc → Prop
  | loop i => i ≤ 10
  | semWait i | testCount i | generate i | testSpace i _ | copy i _ _ | setPosition i _ _ => i < 10
  | addCount i | semPost i | testLimit i => i < 10
  | ended => True

def Shared.writtenBy {ι : Type} [DecidableEq ι] (k : Shared ι) (process : ι) : ℕ :=
  k.records.countP fun r => decide (r.1 = process)

theorem bounded_budget {pc : Pc} (h : pc.Bounded) : pc.budget ≤ 10 := by
  cases pc with
  | loop i => exact h
  | ended => exact le_rfl
  | addCount i | semPost i | testLimit i => exact h
  | _ => exact Nat.le_of_lt h

/-- A step writes no record, or one out of the budget. -/
theorem act_budget {pid : Process → ProcessId} {process : Process} {event : Event} {pc pc' : Pc}
    {k k' : Shared Process} (hb : pc.Bounded)
    (h : act pid process event pc k = some (pc', k')) :
    pc'.Bounded ∧ (k'.records = k.records ∧ pc.budget ≤ pc'.budget ∨
      pc'.budget = pc.budget+1 ∧ ∃ m, k'.records = k.records++[(process, m)]) := by
  unfold act processWorker at h
  split at h
  · -- the loop
    split at h
    · rename_i hi
      cases h
      exact ⟨hi, .inl ⟨rfl, le_rfl⟩⟩
    · cases h
      exact ⟨trivial, .inl ⟨rfl, hb⟩⟩
  · -- the limit
    split at h
    · cases h
      exact ⟨trivial, .inl ⟨rfl, hb⟩⟩
    · cases h
      exact ⟨hb, .inl ⟨rfl, le_rfl⟩⟩
  · unfold writeRecord at h
    split at h
    · -- the wait
      split at h
      · cases h
        exact ⟨hb, .inl ⟨rfl, Nat.le_succ _⟩⟩
      · split at h
        · cases h
        · cases h
          exact ⟨hb, .inl ⟨rfl, le_rfl⟩⟩
    · split at h
      · cases h
        exact ⟨hb, .inl ⟨rfl, Nat.le_succ _⟩⟩
      · cases h
        exact ⟨hb, .inl ⟨rfl, le_rfl⟩⟩
    · cases h
      exact ⟨hb, .inl ⟨rfl, le_rfl⟩⟩
    · dsimp only at h
      split at h
      · cases h
        exact ⟨hb, .inl ⟨rfl, le_rfl⟩⟩
      · cases h
        exact ⟨hb, .inl ⟨rfl, le_rfl⟩⟩
    · cases h
      exact ⟨hb, .inl ⟨rfl, le_rfl⟩⟩
    · cases h
      exact ⟨hb, .inr ⟨rfl, _, rfl⟩⟩
    · cases h
      exact ⟨hb, .inl ⟨rfl, le_rfl⟩⟩
    · cases h
      exact ⟨hb, .inl ⟨rfl, le_rfl⟩⟩
    · cases h

structure Budgeted (s : Workers) : Prop where
  bounded : ∀ process, (s.procs process).Bounded
  within : ∀ process, s.shared.writtenBy process ≤ (s.procs process).budget

theorem budgeted_started : Budgeted started :=
  ⟨fun _ => Nat.zero_le _, fun _ => le_rfl⟩

theorem step_budgeted {pid : Process → ProcessId} (a : Process × Event) (s s' : Workers)
    (hi : Budgeted s) (h : Sharing.step (act pid) a s = some s') : Budgeted s' := by
  obtain ⟨process, event⟩ := a
  obtain ⟨pc, k, hact, rfl⟩ := Sharing.step_next _ h
  obtain ⟨hbounded, hrecords⟩ := act_budget (hi.bounded process) hact
  have hwithin := hi.within process
  refine ⟨?_, ?_⟩
  · apply (Function.forall_update_iff s.procs fun _ q => q.Bounded).mpr
    exact ⟨hbounded, fun q _ => hi.bounded q⟩
  · apply (Function.forall_update_iff s.procs fun q pc => k.writtenBy q ≤ pc.budget).mpr
    unfold Shared.writtenBy at hwithin ⊢
    rcases hrecords with ⟨hsame, hle⟩ | ⟨hnext, m, happend⟩
    · rw [hsame]
      exact ⟨hwithin.trans hle, fun q _ => hi.within q⟩
    · rw [happend]
      refine ⟨?_, fun q hq => ?_⟩
      · rw [List.countP_append, hnext]
        simpa using hwithin
      · have hold := hi.within q
        rw [List.countP_append]
        simpa [Shared.writtenBy, Ne.symm hq] using hold

/-- Two processes write ten records each. -/
theorem records_le {s : Workers} (hi : Budgeted s) : s.shared.records.length ≤ 20 := by
  have hpadre := (hi.within .padre).trans (bounded_budget (hi.bounded .padre))
  have hfiglio := (hi.within .figlio).trans (bounded_budget (hi.bounded .figlio))
  have hsplit : s.shared.records.length =
      s.shared.writtenBy .padre+s.shared.writtenBy .figlio := by
    rw [List.length_eq_countP_add_countP fun r => decide (r.1 = Process.padre)]
    congr 1
    refine List.countP_congr fun r _ => ?_
    cases r.1 <;> simp
  omega

def Shared.written {ι : Type} (k : Shared ι) : Bytes := k.records.flatMap Prod.snd

structure Holds (k : Shared Process) (count : ℕ) : Prop where
  position : k.memory.nextPosition = k.written.length
  data : contents k.memory.data k.written.length = k.written
  counted : k.memory.recordCount = count
  short : ∀ r ∈ k.records, r.2.length ≤ maxRecordLength
  noReset : k.resets = 0
  touched : ∀ w ∈ k.touched, 0 ≤ w.1 ∧ w.1+w.2 ≤ processWritingFile.fileSize

def AtRest (k : Shared Process) : Prop := k.sem = 1 ∧ Holds k k.records.length

def Pc.inside : Pc → Bool
  | testCount _ | generate _ | testSpace _ _ | copy _ _ _ | setPosition _ _ _ => true
  | addCount _ | semPost _ => true
  | _ => false

def Stage : Pc → Shared Process → Prop
  | .testSpace _ message, k => message.length ≤ maxRecordLength ∧ Holds k k.records.length
  | .copy _ message writePos, k =>
    message.length ≤ maxRecordLength ∧ writePos = k.written.length ∧ Holds k k.records.length
  | .setPosition _ message writePos, k =>
    message.length ≤ maxRecordLength ∧ writePos = k.written.length ∧
      contents k.memory.data (k.written.length+message.length) = k.written++message ∧
      Holds k k.records.length
  | .addCount _, k => ∃ n, k.records.length = n+1 ∧ Holds k n
  | _, k => Holds k k.records.length

abbrev Kept (s : Workers) : Prop :=
  Custody.Kept Pc.inside (fun k : Shared Process => k.sem ≠ 0) AtRest Stage s

theorem kept_started : Kept started := by
  refine Custody.kept_outside (fun _ => rfl) ⟨rfl, rfl, rfl, rfl, nofun, rfl, ?_⟩
  decide

theorem written_length {k : Shared Process}
    (hshort : ∀ r ∈ k.records, r.2.length ≤ maxRecordLength) (hfew : k.records.length ≤ 20) :
    k.written.length ≤ 960 := by
  have hle : k.written.length ≤ k.records.length*maxRecordLength := by
    rw [Shared.written, List.length_flatMap, ← smul_eq_mul]
    refine (List.sum_le_card_nsmul _ maxRecordLength ?_).trans_eq (by rw [List.length_map])
    intro n hn
    obtain ⟨r, hr, rfl⟩ := List.mem_map.mp hn
    exact hshort r hr
  unfold maxRecordLength at hle
  omega

abbrev Moves (pc pc' : Pc) (k k' : Shared Process) : Prop :=
  Custody.Moves Pc.inside (fun k : Shared Process => k.sem ≠ 0) AtRest Stage pc pc' k k'

/-- A field before the data is written. -/
theorem touched_field {touched : List (ℤ × ℕ)} {start : ℤ} {size : ℕ} (hlow : 0 ≤ start)
    (hhigh : start+size ≤ processWritingFile.fileSize)
    (h : ∀ w ∈ touched, 0 ≤ w.1 ∧ w.1+w.2 ≤ processWritingFile.fileSize) :
    ∀ w ∈ touched++[(start, size)], 0 ≤ w.1 ∧ w.1+w.2 ≤ processWritingFile.fileSize := by
  intro w hw
  rcases List.mem_append.mp hw with hw | hw
  · exact h w hw
  · rw [List.mem_singleton.mp hw]
    exact ⟨hlow, hhigh⟩

theorem copy_holds {k : Shared Process} {message : Bytes} (hk : Holds k k.records.length)
    (hfew : k.records.length ≤ 20) (hshort : message.length ≤ maxRecordLength) :
    let k' : Shared Process :=
      { k with
        memory := { k.memory with data := write k.memory.data k.written.length message }
        touched := k.touched++[((dataOffset : ℤ)+k.written.length, message.length)] }
    contents k'.memory.data (k'.written.length+message.length) = k'.written++message ∧
      Holds k' k'.records.length := by
  have hwritten := written_length hk.short hfew
  unfold maxRecordLength at hshort
  refine ⟨?_, hk.position, ?_, hk.counted, hk.short, hk.noReset, ?_⟩
  · exact (contents_write _ _ _).trans (by rw [hk.data]; rfl)
  · exact (contents_write_before _ _ le_rfl).trans hk.data
  · refine touched_field (by omega) ?_ hk.touched
    have hsize : processWritingFile.fileSize = 4096 := rfl
    rw [hsize]
    unfold dataOffset
    omega

theorem next_position {k : Shared Process} {message : Bytes} (hwritten : k.written.length ≤ 960)
    (hshort : message.length ≤ maxRecordLength) :
    toInt (k.written.length+message.length) = ((k.written++message).length : ℤ) := by
  unfold maxRecordLength at hshort
  rw [List.length_append, Nat.cast_add]
  exact to_int_of_lt (k.written.length+message.length) (by omega)

theorem position_holds {k : Shared Process} {message : Bytes} {next : ℤ} (process : Process)
    (hk : Holds k k.records.length) (hshort : message.length ≤ maxRecordLength)
    (hdata : contents k.memory.data (k.written.length+message.length) = k.written++message)
    (hnext : next = (k.written++message).length) :
    Holds { k with
      memory := { k.memory with nextPosition := next }
      touched := k.touched++[(0, 4)]
      records := k.records++[(process, message)] } k.records.length := by
  have hwritten : (k.records++[(process, message)]).flatMap Prod.snd = k.written++message := by
    rw [List.flatMap_append, List.flatMap_singleton]
    rfl
  refine ⟨?_, ?_, hk.counted, fun r hr => ?_, hk.noReset, ?_⟩
  · show next = ((List.flatMap Prod.snd _).length : ℤ)
    rw [hwritten, hnext]
  · show contents _ (List.flatMap Prod.snd _).length = List.flatMap Prod.snd _
    rw [hwritten, List.length_append]
    exact hdata
  · rcases List.mem_append.mp hr with hr | hr
    · exact hk.short r hr
    · rw [List.mem_singleton.mp hr]
      exact hshort
  · exact touched_field le_rfl (by decide) hk.touched

theorem count_holds {k : Shared Process} {n : ℕ} (hk : Holds k n) (hn : k.records.length = n+1)
    (hfew : k.records.length ≤ 20) :
    Holds { k with
      memory := { k.memory with recordCount := toInt (k.memory.recordCount+1) }
      touched := k.touched++[(4, 4)] } k.records.length := by
  refine ⟨hk.position, hk.data, ?_, hk.short, hk.noReset, ?_⟩
  · show toInt (k.memory.recordCount+1) = _
    rw [hk.counted, hn]
    exact to_int_of_lt (n+1) (by omega)
  · exact touched_field (by decide) (by decide) hk.touched

/-- The record fits: the reset branch is not taken. -/
theorem space_left {k : Shared Process} {message : Bytes} (hk : Holds k k.records.length)
    (hfew : k.records.length ≤ 20) (hshort : message.length ≤ maxRecordLength) :
    ¬ toInt (k.memory.nextPosition+message.length) ≥ (processWritingFile.fileSize : ℤ)-1 := by
  have hwritten := written_length hk.short hfew
  unfold maxRecordLength at hshort
  have hsum : toInt ((k.written.length : ℤ)+message.length) =
      (k.written.length+message.length : ℕ) :=
    to_int_of_lt (k.written.length+message.length) (by omega)
  have hsize : processWritingFile.fileSize = 4096 := rfl
  rw [hk.position, hsum, hsize]
  omega

theorem act_moves {pid : Process → ProcessId} {process : Process} {event : Event} {pc pc' : Pc}
    {k k' : Shared Process} (hfew : k.records.length ≤ 20)
    (hstage : pc.inside = true → Stage pc k) (htaken : pc.inside = true → k.sem = 0)
    (h : act pid process event pc k = some (pc', k')) : Moves pc pc' k k' := by
  have hout : ∀ {q q' : Pc}, q.inside = false → q'.inside = false → Moves q q' k k :=
    fun hq hq' => .outside hq hq' (fun _ _ h => h) id id
  unfold act processWorker at h
  split at h
  · split at h <;> (cases h; exact hout rfl rfl)
  · split at h <;> (cases h; exact hout rfl rfl)
  · unfold writeRecord at h
    split at h
    · split at h
      · cases h
        exact hout rfl rfl
      · split at h
        · cases h
        · rename_i hsem
          cases h
          refine .enters hsem rfl fun hrest => ⟨?_, ?_⟩
          · obtain ⟨hone, hk⟩ := hrest
            exact ⟨hk.position, hk.data, hk.counted, hk.short, hk.noReset, hk.touched⟩
          · show ¬ (k.sem-1 ≠ 0)
            rw [hrest.1]
            decide
    · split at h
      · cases h
        exact .works rfl rfl (hstage rfl) (by simp [htaken rfl])
      · cases h
        exact .works rfl rfl (hstage rfl) (by simp [htaken rfl])
    · rename_i rand time i
      cases h
      exact .works rfl rfl ⟨record_length _ _ _, hstage rfl⟩ (by simp [htaken rfl])
    · rename_i ok i message
      obtain ⟨hshort, hk⟩ := hstage rfl
      dsimp only at h
      rw [if_neg (space_left hk hfew hshort)] at h
      cases h
      exact .works rfl rfl ⟨hshort, hk.position, hk⟩ (by simp [htaken rfl])
    · obtain ⟨hshort, hpos, hk⟩ := hstage rfl
      cases h
      obtain ⟨hdata, hk'⟩ := copy_holds hk hfew hshort
      rw [hpos, Int.toNat_natCast]
      exact .works rfl rfl ⟨hshort, rfl, hdata, hk'⟩ (by simp [htaken rfl])
    · obtain ⟨hshort, hpos, hdata, hk⟩ := hstage rfl
      cases h
      rw [hpos]
      refine .works rfl rfl ⟨k.records.length, List.length_append, ?_⟩ (by simp [htaken rfl])
      exact position_holds process hk hshort hdata
        (next_position (written_length hk.short hfew) hshort)
    · obtain ⟨n, hn, hk⟩ := hstage rfl
      cases h
      exact .works rfl rfl (count_holds hk hn hfew) (by simp [htaken rfl])
    · have hk : Holds k k.records.length := hstage rfl
      cases h
      refine .leaves rfl rfl ⟨by simp [htaken rfl], ?_⟩
      exact ⟨hk.position, hk.data, hk.counted, hk.short, hk.noReset, hk.touched⟩
    · cases h

theorem step_kept {pid : Process → ProcessId} (a : Process × Event) (s s' : Workers)
    (hb : Budgeted s) (hk : Kept s) (h : Sharing.step (act pid) a s = some s') : Kept s' := by
  obtain ⟨process, event⟩ := a
  obtain ⟨pc, k, hact, rfl⟩ := Sharing.step_next _ h
  refine Custody.kept_step hk (act_moves (records_le hb) (hk.stage process) (fun hin => ?_) hact)
  simpa using hk.taken process hin

theorem reachable_kept {pid : Process → ProcessId} {s : Workers} (h : Reachable pid s) :
    Budgeted s ∧ Kept s :=
  Runs.reachable_invariant _ (fun s => Budgeted s ∧ Kept s) ⟨budgeted_started, kept_started⟩
    (fun a s s' hi hstep =>
      ⟨step_budgeted a s s' hi.1 hstep, step_kept a s s' hi.1 hi.2 hstep⟩) h

def Pc.counting : Pc → Bool
  | addCount _ => true
  | _ => false

/-- Every byte written is mapped, the position has not been reset, and the file
holds the records in the order in which they have been written. A record is
counted right after the position has been moved behind it. -/
structure FileKept (s : Workers) : Prop where
  mapped : ∀ w ∈ s.shared.touched, 0 ≤ w.1 ∧ w.1+w.2 ≤ processWritingFile.fileSize
  noReset : s.shared.resets = 0
  position : s.shared.memory.nextPosition = (s.shared.records.flatMap Prod.snd).length
  data : contents s.shared.memory.data s.shared.memory.nextPosition.toNat =
    s.shared.records.flatMap Prod.snd
  counted : (∀ process, (s.procs process).counting = false) →
    s.shared.memory.recordCount = s.shared.records.length
  counting : (∃ process, (s.procs process).counting = true) →
    s.shared.memory.recordCount+1 = s.shared.records.length

theorem holds_file {k : Shared Process} {n : ℕ} (hk : Holds k n) :
    (∀ w ∈ k.touched, 0 ≤ w.1 ∧ w.1+w.2 ≤ processWritingFile.fileSize) ∧ k.resets = 0 ∧
      k.memory.nextPosition = (k.records.flatMap Prod.snd).length ∧
      contents k.memory.data k.memory.nextPosition.toNat = k.records.flatMap Prod.snd := by
  refine ⟨hk.touched, hk.noReset, hk.position, ?_⟩
  rw [hk.position, Int.toNat_natCast]
  exact hk.data

theorem stage_holds {pc : Pc} {k : Shared Process} (hin : pc.inside = true) (h : Stage pc k) :
    (pc.counting = true ∧ ∃ n, k.records.length = n+1 ∧ Holds k n) ∨
      (pc.counting = false ∧ Holds k k.records.length) := by
  cases pc with
  | testCount i | generate i | semPost i => exact .inr ⟨rfl, h⟩
  | testSpace i message => exact .inr ⟨rfl, h.2⟩
  | copy i message pos => exact .inr ⟨rfl, h.2.2⟩
  | setPosition i message pos => exact .inr ⟨rfl, h.2.2.2⟩
  | addCount i => exact .inl ⟨rfl, h⟩
  | _ => cases hin

theorem counting_inside {pc : Pc} (h : pc.counting = true) : pc.inside = true := by
  cases pc <;> first | rfl | cases h

theorem file_kept (pid : Process → ProcessId) (s : Workers) (h : Reachable pid s) :
    FileKept s := by
  obtain ⟨-, hk⟩ := reachable_kept h
  by_cases hnone : ∀ process, (s.procs process).inside = false
  · obtain ⟨-, hholds⟩ := hk.rest hnone
    obtain ⟨hmapped, hreset, hpos, hdata⟩ := holds_file hholds
    refine ⟨hmapped, hreset, hpos, hdata, fun _ => hholds.counted, ?_⟩
    rintro ⟨process, hcounting⟩
    have hin := counting_inside hcounting
    rw [hnone process] at hin
    cases hin
  · obtain ⟨process, hin⟩ : ∃ process, (s.procs process).inside = true := by
      simpa using hnone
    rcases stage_holds hin (hk.stage process hin) with ⟨hcounting, n, hn, hholds⟩ |
      ⟨hcounting, hholds⟩
    · obtain ⟨hmapped, hreset, hpos, hdata⟩ := holds_file hholds
      refine ⟨hmapped, hreset, hpos, hdata, fun hnot => ?_, fun _ => ?_⟩
      · rw [hnot process] at hcounting
        cases hcounting
      · rw [hholds.counted, hn]
        rfl
    · obtain ⟨hmapped, hreset, hpos, hdata⟩ := holds_file hholds
      refine ⟨hmapped, hreset, hpos, hdata, fun _ => hholds.counted, ?_⟩
      rintro ⟨other, hother⟩
      rw [hk.alone other process (counting_inside hother) hin, hcounting] at hother
      cases hother

def oneEach : List (Process × Event) :=
  [Process.padre, Process.figlio].flatMap fun process =>
    [.run true, .run true, .run true,
      .generate 41237 ⟨2024, 12, 31, 23, 59, 58⟩, .run true, .run true, .run true,
      .run true, .run true].map fun event => (process, event)

theorem one_each_run : (Runs.exec (Sharing.step (act fun _ => ⟨4242, by decide⟩)) oneEach
    started).isSome = true := by
  decide +kernel

theorem one_each_kept : FileKept ((Runs.exec (Sharing.step (act fun _ => ⟨4242, by decide⟩)) oneEach
    started).get one_each_run) :=
  file_kept (fun _ => ⟨4242, by decide⟩) _ (Runs.reachable_get one_each_run)

end ProgSistema.RecordFile
