import ProgSistema.BulkTransfer.Model

/-!
# The bytes sent and received

However the calls split the stream, what has been received and what is on its
way make up what has been sent, and neither loop leaves its array.
-/

set_option autoImplicit false

namespace ProgSistema.BulkTransfer
open ArrayPrefix CRuntime

structure LoopInv (l : Loop) : Prop where
  low : 0 ≤ l.total
  high : l.total ≤ size
  finished : l.pc = .finished → l.total = size
  calls : ∀ c ∈ l.calls, 0 ≤ c.1 ∧ c.1+c.2 ≤ size

theorem size_lt : (size : ℤ) < 2^31 := by decide

theorem start_inv : LoopInv Loop.start := ⟨le_rfl, by decide, nofun, nofun⟩

theorem len_eq {l : Loop} (h : LoopInv l) : (l.len : ℤ) = size-l.total := by
  have hlow := h.low
  have hhigh := h.high
  have hsize := size_lt
  unfold Loop.len toSizeT
  omega

theorem test_inv {l : Loop} (h : LoopInv l) : LoopInv l.test := by
  have hlow := h.low
  have hhigh := h.high
  have hsize := size_lt
  unfold Loop.test
  split
  · refine ⟨hlow, hhigh, nofun, fun c hc => ?_⟩
    rcases List.mem_append.mp hc with hold | hnew
    · exact h.calls c hold
    · rw [List.mem_singleton.mp hnew]
      have hlen := len_eq h
      exact ⟨hlow, by dsimp only; omega⟩
  · rename_i hend
    refine ⟨hlow, hhigh, fun _ => ?_, h.calls⟩
    unfold toSizeT at hend
    dsimp only
    omega

/-- The total grows by the bytes that a call has moved. -/
theorem advance_total {l : Loop} (h : LoopInv l) {result : ℤ} (hmoves : Moves l result) :
    (l.advance result).total = l.total+result.toNat := by
  have hlow := h.low
  have hlen := len_eq h
  have hsize := size_lt
  obtain ⟨hfrom, hto⟩ := hmoves
  have hresult : toInt result = result := (to_int_eq_iff result).mpr ⟨by omega, by omega⟩
  unfold Loop.advance
  rw [hresult]
  dsimp only
  split
  · show l.total = _
    omega
  · have htotal : toInt (l.total+result) = l.total+result :=
      (to_int_eq_iff _).mpr ⟨by omega, by omega⟩
    rw [htotal]
    show l.total+result = _
    omega

theorem advance_inv {l : Loop} (h : LoopInv l) {result : ℤ} (hmoves : Moves l result) :
    LoopInv (l.advance result) := by
  have htotal := advance_total h hmoves
  have hlow := h.low
  have hhigh := h.high
  have hlen := len_eq h
  have hto := hmoves.2
  have hcalls : (l.advance result).calls = l.calls := by
    unfold Loop.advance
    dsimp only
    split <;> rfl
  have hpc : (l.advance result).pc ≠ .finished := by
    unfold Loop.advance
    dsimp only
    split <;> simp
  refine ⟨by omega, by omega, fun hend => absurd hend hpc, ?_⟩
  rw [hcalls]
  exact h.calls

structure Inv (numbers : ℕ → UInt8) (s : Transfer) : Prop where
  unchanged : s.numbers = numbers
  sender : LoopInv s.sender
  receiver : LoopInv s.receiver
  stream : contents numbers s.sender.total.toNat =
    contents s.received s.receiver.total.toNat++s.channel

theorem started_inv (numbers received : ℕ → UInt8) : Inv numbers (started numbers received) :=
  ⟨rfl, start_inv, start_inv, rfl⟩

theorem total_to_nat {l : Loop} (h : LoopInv l) {result : ℤ} (hmoves : Moves l result) :
    (l.advance result).total.toNat = l.total.toNat+result.toNat := by
  have hlow := h.low
  rw [advance_total h hmoves]
  omega

theorem send_inv {numbers : ℕ → UInt8} {s : Transfer} (h : Inv numbers s) {result : ℤ}
    (hmoves : Moves s.sender result) : Inv numbers (send result s) := by
  refine ⟨h.unchanged, advance_inv h.sender hmoves, h.receiver, ?_⟩
  show contents numbers (s.sender.advance result).total.toNat =
    contents s.received s.receiver.total.toNat++
      (s.channel++slice s.numbers s.sender.total.toNat result.toNat)
  rw [total_to_nat h.sender hmoves, contents_add, h.stream, h.unchanged, List.append_assoc]

theorem recv_inv {numbers : ℕ → UInt8} {s : Transfer} (h : Inv numbers s) {result : ℤ}
    (hmoves : Moves s.receiver result) (hdelivers : Delivers s result) :
    Inv numbers (recv result s) := by
  refine ⟨h.unchanged, h.sender, advance_inv h.receiver hmoves, ?_⟩
  have hlen : (s.channel.take result.toNat).length = result.toNat := by
    have havailable := hdelivers.1
    rw [List.length_take]
    omega
  have hreceived : contents (recv result s).received (recv result s).receiver.total.toNat =
      contents s.received s.receiver.total.toNat++s.channel.take result.toNat := by
    show contents (write _ _ _) (s.receiver.advance result).total.toNat = _
    rw [total_to_nat h.receiver hmoves]
    nth_rewrite 2 [← hlen]
    exact contents_write _ _ _
  rw [hreceived, List.append_assoc]
  show _ = _++(_++s.channel.drop result.toNat)
  rw [List.take_append_drop]
  exact h.stream

theorem test_total (l : Loop) : l.test.total = l.total := by
  unfold Loop.test
  split <;> rfl

theorem stop_sender {s : Transfer} (h : LoopInv s.sender) :
    LoopInv (stop s).sender ∧ (stop s).sender.total = s.sender.total := by
  unfold stop
  dsimp only
  split
  · exact ⟨h, rfl⟩
  · exact ⟨⟨h.low, h.high, nofun, h.calls⟩, rfl⟩

theorem step_inv {numbers : ℕ → UInt8} (e : Event) (s t : Transfer) (hi : Inv numbers s)
    (h : step e s = some t) : Inv numbers t := by
  cases e with
  | testSend =>
    simp only [step, Option.ite_none_right_eq_some, Option.some.injEq] at h
    obtain ⟨-, rfl⟩ := h
    refine ⟨hi.unchanged, test_inv hi.sender, hi.receiver, ?_⟩
    dsimp only
    rw [test_total]
    exact hi.stream
  | send result =>
    simp only [step, Option.ite_none_right_eq_some, Option.some.injEq] at h
    obtain ⟨⟨-, hmoves⟩, rfl⟩ := h
    exact send_inv hi hmoves
  | stop =>
    cases h
    obtain ⟨hsender, htotal⟩ := stop_sender hi.sender
    refine ⟨hi.unchanged, hsender, hi.receiver, ?_⟩
    rw [htotal]
    exact hi.stream
  | testRecv =>
    simp only [step, Option.ite_none_right_eq_some, Option.some.injEq] at h
    obtain ⟨-, rfl⟩ := h
    refine ⟨hi.unchanged, hi.sender, test_inv hi.receiver, ?_⟩
    dsimp only
    rw [test_total]
    exact hi.stream
  | recv result =>
    simp only [step, Option.ite_none_right_eq_some, Option.some.injEq] at h
    obtain ⟨⟨-, hmoves, hdelivers⟩, rfl⟩ := h
    exact recv_inv hi hmoves hdelivers

/-- Arrays with the same bytes hold the same numbers. -/
theorem verify_of_contents {original received : ℕ → UInt8} {count : ℕ}
    (h : contents original (count*4) = contents received (count*4)) :
    verifyNumbers original received count = true := by
  refine List.all_eq_true.mpr fun i hi => decide_eq_true ?_
  have hlt := List.mem_range.mp hi
  have hslice : slice original (4*i) 4 = slice received (4*i) 4 := by
    refine List.map_congr_left fun j hj => get_of_contents h ?_
    have hrange := List.mem_range'_1.mp hj
    omega
  unfold number
  rw [hslice]

/-- No call leaves its array, what has been received is a prefix of what has
been sent, a loop that has finished has moved the whole array, and when both
totals are complete the numbers are the same. -/
theorem transfer_exact (numbers received : ℕ → UInt8) (s : Transfer)
    (h : Runs.Reachable step (started numbers received) s) :
    (∀ c ∈ s.sender.calls++s.receiver.calls, 0 ≤ c.1 ∧ c.1+c.2 ≤ size) ∧
      (0 ≤ s.receiver.total ∧ s.receiver.total ≤ s.sender.total ∧ s.sender.total ≤ size) ∧
      contents s.received s.receiver.total.toNat <+: contents numbers s.sender.total.toNat ∧
      (s.sender.pc = .finished → s.sender.total = size) ∧
      (s.receiver.pc = .finished → s.receiver.total = size) ∧
      (s.sender.total = size → s.receiver.total = size →
        contents s.received size = contents numbers size ∧
          verifyNumbers numbers s.received numCount = true) := by
  have hi := Runs.reachable_invariant step (Inv numbers) (started_inv numbers received) step_inv h
  have hprefix : contents s.received s.receiver.total.toNat <+:
      contents numbers s.sender.total.toNat := ⟨s.channel, hi.stream.symm⟩
  have hle := hprefix.length_le
  rw [contents_length, contents_length] at hle
  have hlow := hi.receiver.low
  have hlow' := hi.sender.low
  refine ⟨fun c hc => ?_, ⟨hlow, by omega, hi.sender.high⟩, hprefix, hi.sender.finished,
    hi.receiver.finished, fun hsent hread => ?_⟩
  · rcases List.mem_append.mp hc with hsend | hrecv
    · exact hi.sender.calls c hsend
    · exact hi.receiver.calls c hrecv
  · rw [hsent, hread, Int.toNat_natCast] at hprefix
    have hsame : contents s.received size = contents numbers size :=
      hprefix.eq_of_length (by rw [contents_length, contents_length])
    exact ⟨hsame, verify_of_contents hsame.symm⟩

def shortTransfer : List Event := [.testSend, .send 5, .testRecv, .stop, .recv 3]

theorem short_transfer_run : (Runs.exec step shortTransfer
    (started (fun i => UInt8.ofNat i) fun _ => 0)).isSome = true := by
  decide +kernel

def shortTransferEnd : Transfer :=
  (Runs.exec step shortTransfer (started (fun i => UInt8.ofNat i) fun _ => 0)).get
    short_transfer_run

theorem short_transfer_prefix :
    contents shortTransferEnd.received 3 <+: contents (fun i => UInt8.ofNat i) 5 :=
  (transfer_exact (fun i => UInt8.ofNat i) (fun _ => 0) shortTransferEnd
    (Runs.reachable_get short_transfer_run)).2.2.1

end ProgSistema.BulkTransfer
