import ProgSistema.BulkTransfer.Stream

/-!
# The same transfer through a pipe

The child writes the whole array with one call, which fills the pipe as often as
the parent makes room in it. The parent reads until it has all the numbers, or
until nobody has the pipe open for writing any more.
-/

set_option autoImplicit false

namespace ProgSistema.BulkTransfer.Pipe
open ArrayPrefix CRuntime Runs

inductive ChildPc where
  | closeRead
  | write
  | closeWrite
  | exited
  deriving DecidableEq, Repr

inductive ParentPc where
  | closeWrite
  | loop
  | closeRead
  | wait
  | verified (same : Bool)
  deriving DecidableEq, Repr

/-- `written` is the number of bytes of the one call of `write` that have gone
into the pipe. -/
structure Transfer where
  numbers : ℕ → UInt8
  received : ℕ → UInt8
  child : ChildPc
  written : ℕ
  parent : ParentPc
  loop : Loop
  pipe : Bytes

/-- A step of the child or of the parent without an answer of the system, some
bytes of the call of `write`, a call of `write` that fails or is interrupted,
the death of the child, and a test and a call of `read` in the loop. -/
inductive Event where
  | child
  | write (n : ℕ)
  | writeFails
  | kill
  | parent
  | test
  | read (result : ℤ)
  deriving DecidableEq, Repr

/-- `read` waits while the pipe is empty and somebody can still write. -/
def Reads (s : Transfer) (result : ℤ) : Prop :=
  Moves s.loop result ∧ result ≤ s.pipe.length ∧
    (result = 0 → s.pipe = [] ∧ s.child = .exited ∧ s.parent ≠ .closeWrite)

instance (s : Transfer) (result : ℤ) : Decidable (Reads s result) :=
  inferInstanceAs (Decidable (_ ∧ _ ∧ _))

def childStep (s : Transfer) : Option Transfer :=
  match s.child with
  | .closeRead => some { s with child := .write }
  | .closeWrite => some { s with child := .exited }
  | .write | .exited => none

def parentStep (s : Transfer) : Option Transfer :=
  match s.parent with
  | .closeWrite => some { s with parent := .loop }
  | .loop =>
    if s.loop.pc = .finished ∨ s.loop.pc = .broken then some { s with parent := .closeRead }
    else none
  | .closeRead => some { s with parent := .wait }
  | .wait =>
    if s.child = .exited then
      some { s with parent := .verified (verifyNumbers s.numbers s.received numCount) }
    else none
  | .verified _ => none

def write (n : ℕ) (s : Transfer) : Transfer :=
  { s with
    child := if s.written+n = size then .closeWrite else .write,
    written := s.written+n,
    pipe := s.pipe++slice s.numbers s.written n }

def read (result : ℤ) (s : Transfer) : Transfer :=
  { s with
    loop := s.loop.advance result,
    received := ArrayPrefix.write s.received s.loop.total.toNat (s.pipe.take result.toNat),
    pipe := s.pipe.drop result.toNat }

def step (capacity : ℕ) (e : Event) (s : Transfer) : Option Transfer :=
  match e with
  | .child => childStep s
  | .write n =>
    if s.child = .write ∧ 0 < n ∧ s.written+n ≤ size ∧ s.pipe.length+n ≤ capacity ∧
        (s.parent = .closeWrite ∨ s.parent = .loop ∨ s.parent = .closeRead) then some (write n s)
    else none
  | .writeFails => if s.child = .write then some { s with child := .closeWrite } else none
  | .kill => if s.child = .exited then none else some { s with child := .exited }
  | .parent => parentStep s
  | .test =>
    if s.parent = .loop ∧ s.loop.pc = .test then some { s with loop := s.loop.test } else none
  | .read result =>
    if s.parent = .loop ∧ s.loop.pc = .calling ∧ Reads s result then some (read result s) else none

def started (numbers received : ℕ → UInt8) : Transfer where
  numbers := numbers
  received := received
  child := .closeRead
  written := 0
  parent := .closeWrite
  loop := Loop.start
  pipe := []

structure Inv (capacity : ℕ) (numbers : ℕ → UInt8) (s : Transfer) : Prop where
  unchanged : s.numbers = numbers
  loop : LoopInv s.loop
  calling : s.loop.pc = .calling → s.loop.total < size
  stream : contents numbers s.written = contents s.received s.loop.total.toNat++s.pipe
  written : s.written ≤ size
  room : s.pipe.length ≤ capacity
  verified : ∀ same, s.parent = .verified same →
    (s.loop.pc = .finished ∨ s.loop.pc = .broken) ∧ same = verifyNumbers numbers s.received numCount
  left : s.parent = .closeRead ∨ s.parent = .wait → s.loop.pc = .finished ∨ s.loop.pc = .broken

variable {capacity : ℕ} {numbers received : ℕ → UInt8} {s t : Transfer}

theorem started_inv (capacity : ℕ) (numbers received : ℕ → UInt8) :
    Inv capacity numbers (started numbers received) :=
  ⟨rfl, start_inv, nofun, rfl, Nat.zero_le _, Nat.zero_le _, nofun, nofun⟩

theorem write_inv (hi : Inv capacity numbers s) {n : ℕ} (hsize : s.written+n ≤ size)
    (hroom : s.pipe.length+n ≤ capacity) : Inv capacity numbers (write n s) := by
  refine ⟨hi.unchanged, hi.loop, hi.calling, ?_, hsize, ?_, hi.verified, hi.left⟩
  · show contents numbers (s.written+n) =
      contents s.received s.loop.total.toNat++(s.pipe++slice s.numbers s.written n)
    rw [contents_add, hi.stream, hi.unchanged, List.append_assoc]
  · show (s.pipe++slice s.numbers s.written n).length ≤ capacity
    rw [List.length_append, slice_length]
    exact hroom

theorem read_inv (hi : Inv capacity numbers s) (hparent : s.parent = .loop) {result : ℤ}
    (hreads : Reads s result) : Inv capacity numbers (read result s) := by
  obtain ⟨hmoves, hle, -⟩ := hreads
  have hroom := hi.room
  have hlen : (s.pipe.take result.toNat).length = result.toNat := by
    rw [List.length_take]
    omega
  have hpc : (s.loop.advance result).pc ≠ .calling := by
    unfold Loop.advance
    dsimp only
    split <;> simp
  refine ⟨hi.unchanged, advance_inv hi.loop hmoves, fun h => absurd h hpc, ?_, hi.written, ?_, ?_, ?_⟩
  · have hreceived : contents (read result s).received (read result s).loop.total.toNat =
        contents s.received s.loop.total.toNat++s.pipe.take result.toNat := by
      show contents (ArrayPrefix.write _ _ _) (s.loop.advance result).total.toNat = _
      rw [total_to_nat hi.loop hmoves]
      nth_rewrite 2 [← hlen]
      exact contents_write _ _ _
    rw [hreceived, List.append_assoc]
    show _ = _++(_++s.pipe.drop result.toNat)
    rw [List.take_append_drop]
    exact hi.stream
  · show (s.pipe.drop result.toNat).length ≤ capacity
    rw [List.length_drop]
    omega
  · intro same hverified
    cases hparent.symm.trans hverified
  · rintro (hleft | hleft) <;> cases hparent.symm.trans hleft

theorem loop_test_inv (hi : Inv capacity numbers s) (hparent : s.parent = .loop) :
    Inv capacity numbers { s with loop := s.loop.test } := by
  refine ⟨hi.unchanged, test_inv hi.loop, ?_, ?_, hi.written, hi.room, ?_, ?_⟩
  · intro hpc
    have hlow := hi.loop.low
    have hhigh := hi.loop.high
    have hsize := size_lt
    dsimp only at hpc ⊢
    rw [test_total]
    unfold Loop.test at hpc
    split at hpc
    · rename_i hlt
      unfold toSizeT at hlt
      omega
    · cases hpc
  · show contents numbers s.written = contents s.received s.loop.test.total.toNat++s.pipe
    rw [test_total]
    exact hi.stream
  · intro same hverified
    cases hparent.symm.trans hverified
  · rintro (hleft | hleft) <;> cases hparent.symm.trans hleft

theorem parent_inv (hi : Inv capacity numbers s) (h : parentStep s = some t) :
    Inv capacity numbers t := by
  unfold parentStep at h
  split at h
  · cases h
    exact ⟨hi.unchanged, hi.loop, hi.calling, hi.stream, hi.written, hi.room, nofun, nofun⟩
  · rw [Option.ite_none_right_eq_some, Option.some.injEq] at h
    obtain ⟨hleft, rfl⟩ := h
    exact ⟨hi.unchanged, hi.loop, hi.calling, hi.stream, hi.written, hi.room, nofun, fun _ => hleft⟩
  · rename_i hpc
    cases h
    exact ⟨hi.unchanged, hi.loop, hi.calling, hi.stream, hi.written, hi.room, nofun,
      fun _ => hi.left (Or.inl hpc)⟩
  · rename_i hpc
    rw [Option.ite_none_right_eq_some, Option.some.injEq] at h
    obtain ⟨-, rfl⟩ := h
    refine ⟨hi.unchanged, hi.loop, hi.calling, hi.stream, hi.written, hi.room, ?_, nofun⟩
    intro same hsame
    have heq := ParentPc.verified.inj hsame
    exact ⟨hi.left (Or.inr hpc), by rw [← heq, hi.unchanged]⟩
  · cases h

/-- Only the position of the child changes. -/
theorem child_inv (hi : Inv capacity numbers s) (pc : ChildPc) :
    Inv capacity numbers { s with child := pc } :=
  ⟨hi.unchanged, hi.loop, hi.calling, hi.stream, hi.written, hi.room, hi.verified, hi.left⟩

theorem step_inv (e : Event) (s t : Transfer) (hi : Inv capacity numbers s)
    (h : step capacity e s = some t) : Inv capacity numbers t := by
  cases e with
  | child =>
    simp only [step, childStep] at h
    split at h <;> cases h <;> exact child_inv hi _
  | write n =>
    rw [step, Option.ite_none_right_eq_some, Option.some.injEq] at h
    obtain ⟨⟨-, -, hsize, hroom, -⟩, rfl⟩ := h
    exact write_inv hi hsize hroom
  | writeFails =>
    rw [step, Option.ite_none_right_eq_some, Option.some.injEq] at h
    obtain ⟨-, rfl⟩ := h
    exact child_inv hi _
  | kill =>
    rw [step, Option.ite_none_left_eq_some, Option.some.injEq] at h
    obtain ⟨-, rfl⟩ := h
    exact child_inv hi _
  | parent => exact parent_inv hi h
  | test =>
    rw [step, Option.ite_none_right_eq_some, Option.some.injEq] at h
    obtain ⟨⟨hparent, -⟩, rfl⟩ := h
    exact loop_test_inv hi hparent
  | read result =>
    rw [step, Option.ite_none_right_eq_some, Option.some.injEq] at h
    obtain ⟨⟨hparent, -, hreads⟩, rfl⟩ := h
    exact read_inv hi hparent hreads

/-- The received numbers are those sent once the loop has finished. -/
theorem finished_same (hi : Inv capacity numbers s) (hpc : s.loop.pc = .finished) :
    verifyNumbers numbers s.received numCount = true := by
  have htotal := hi.loop.finished hpc
  have hstream := hi.stream
  have hwritten := hi.written
  rw [htotal, Int.toNat_natCast] at hstream
  have hlen := congrArg List.length hstream
  rw [contents_length, List.length_append, contents_length] at hlen
  have hnil : s.pipe = [] := List.length_eq_zero_iff.mp (by omega)
  have hall : s.written = size := by omega
  rw [hall, hnil, List.append_nil] at hstream
  exact verify_of_contents hstream

/-- Neither more than the pipe holds nor more than the array is ever on its way,
what has been received is a prefix of what has been written, no call leaves the
array, and a loop that has received everything is followed by the message of
success. -/
theorem pipe_exact (capacity : ℕ) (numbers received : ℕ → UInt8) (s : Transfer)
    (h : Reachable (step capacity) (started numbers received) s) :
    (s.pipe.length ≤ capacity ∧ s.written ≤ size) ∧
      (∀ c ∈ s.loop.calls, 0 ≤ c.1 ∧ c.1+c.2 ≤ size) ∧
      contents s.received s.loop.total.toNat <+: contents numbers s.written ∧
      (s.loop.pc = .finished → s.loop.total = size ∧
        verifyNumbers numbers s.received numCount = true) ∧
      ∀ same, s.parent = .verified same → s.loop.pc = .finished → same = true := by
  have hi := reachable_invariant _ (Inv capacity numbers) (started_inv capacity numbers received)
    step_inv h
  refine ⟨⟨hi.room, hi.written⟩, hi.loop.calls, ⟨s.pipe, hi.stream.symm⟩, fun hpc => ?_, ?_⟩
  · exact ⟨hi.loop.finished hpc, finished_same hi hpc⟩
  · intro same hverified hpc
    rw [(hi.verified same hverified).2]
    exact finished_same hi hpc

/-! Runs in which no call fails. -/

def Works : Event → Transfer → Prop
  | .writeFails, _ | .kill, _ => False
  | .read result, _ => 0 ≤ result
  | _, _ => True

instance : ∀ (e : Event) (s : Transfer), Decidable (Works e s)
  | .writeFails, _ | .kill, _ => isFalse id
  | .read result, _ => inferInstanceAs (Decidable (0 ≤ result))
  | .child, _ | .write _, _ | .parent, _ | .test, _ => isTrue trivial

structure Whole (s : Transfer) : Prop where
  child : s.child = .closeWrite ∨ s.child = .exited → s.written = size
  writing : s.child = .closeRead ∨ s.child = .write → s.written < size
  loop : s.loop.pc ≠ .broken

theorem started_whole (numbers received : ℕ → UInt8) : Whole (started numbers received) := by
  refine ⟨?_, fun _ => ?_, nofun⟩
  · rintro (h | h) <;> cases h
  · show 0 < size
    decide

theorem advance_pc {l : Loop} (hl : LoopInv l) {result : ℤ} (hmoves : Moves l result)
    (hpos : 0 < result) : (l.advance result).pc = .test := by
  have hlow := hl.low
  have hlen := len_eq hl
  have hsize := size_lt
  obtain ⟨hfrom, hto⟩ := hmoves
  have hresult : toInt result = result := (to_int_eq_iff result).mpr ⟨by omega, by omega⟩
  unfold Loop.advance
  rw [hresult]
  dsimp only
  rw [if_neg (by omega)]

/-- A call of `read` finds the end of the pipe only behind all the bytes. -/
theorem read_positive (hi : Inv capacity numbers s) (hw : Whole s) (hpc : s.loop.pc = .calling)
    {result : ℤ} (hreads : Reads s result) (hworks : 0 ≤ result) : 0 < result := by
  obtain ⟨-, -, hend⟩ := hreads
  by_contra hnot
  obtain ⟨hnil, hexited, -⟩ := hend (by omega)
  have hstream := congrArg List.length hi.stream
  rw [contents_length, List.length_append, contents_length, hnil, List.length_nil] at hstream
  have hall := hw.child (Or.inr hexited)
  have hlt := hi.calling hpc
  have hlow := hi.loop.low
  omega

theorem step_whole (e : Event) (s t : Transfer) (hs : Inv capacity numbers s ∧ Whole s)
    (hworks : Works e s) (h : step capacity e s = some t) : Whole t := by
  obtain ⟨hi, hw⟩ := hs
  cases e with
  | child =>
    simp only [step, childStep] at h
    split at h
    · rename_i hpc
      cases h
      refine ⟨?_, fun _ => hw.writing (Or.inl hpc), hw.loop⟩
      rintro (h | h) <;> cases h
    · rename_i hpc
      cases h
      refine ⟨fun _ => hw.child (Or.inl hpc), ?_, hw.loop⟩
      rintro (h | h) <;> cases h
    · cases h
    · cases h
  | write n =>
    rw [step, Option.ite_none_right_eq_some, Option.some.injEq] at h
    obtain ⟨⟨-, hpos, hsize, -, -⟩, rfl⟩ := h
    unfold write
    refine ⟨fun hchild => ?_, fun hchild => ?_, hw.loop⟩
    · dsimp only at hchild ⊢
      by_contra hne
      rw [if_neg hne] at hchild
      rcases hchild with h | h <;> cases h
    · dsimp only at hchild ⊢
      have hne : s.written+n ≠ size := by
        intro heq
        rw [if_pos heq] at hchild
        rcases hchild with h | h <;> cases h
      omega
  | writeFails => exact hworks.elim
  | kill => exact hworks.elim
  | parent =>
    simp only [step, parentStep] at h
    split at h
    · cases h
      exact ⟨hw.child, hw.writing, hw.loop⟩
    · rw [Option.ite_none_right_eq_some, Option.some.injEq] at h
      obtain ⟨-, rfl⟩ := h
      exact ⟨hw.child, hw.writing, hw.loop⟩
    · cases h
      exact ⟨hw.child, hw.writing, hw.loop⟩
    · rw [Option.ite_none_right_eq_some, Option.some.injEq] at h
      obtain ⟨-, rfl⟩ := h
      exact ⟨hw.child, hw.writing, hw.loop⟩
    · cases h
  | test =>
    rw [step, Option.ite_none_right_eq_some, Option.some.injEq] at h
    obtain ⟨-, rfl⟩ := h
    refine ⟨hw.child, hw.writing, ?_⟩
    show s.loop.test.pc ≠ .broken
    unfold Loop.test
    split <;> nofun
  | read result =>
    rw [step, Option.ite_none_right_eq_some, Option.some.injEq] at h
    obtain ⟨⟨-, hpc, hreads⟩, rfl⟩ := h
    refine ⟨hw.child, hw.writing, ?_⟩
    show (s.loop.advance result).pc ≠ .broken
    rw [advance_pc hi.loop hreads.1 (read_positive hi hw hpc hreads hworks)]
    nofun

def Continues (capacity : ℕ) (s t : Transfer) : Prop := ReachableAlong (step capacity) Works s t

theorem continues_step {e : Event} (hworks : Works e s) (h : step capacity e s = some t) :
    Continues capacity s t :=
  reachable_along_step hworks h

theorem continues_trans {u : Transfer} (h : Continues capacity s t) (h' : Continues capacity t u) :
    Continues capacity s u :=
  reachable_along_trans h h'

theorem continues_inv (hs : Inv capacity numbers s ∧ Whole s) (h : Continues capacity s t) :
    Inv capacity numbers t ∧ Whole t :=
  reachable_along_invariant _ (fun s => Inv capacity numbers s ∧ Whole s) hs
    (fun e u v hu hok hv => ⟨step_inv e u v hu.1 hv, step_whole e u v hu hok hv⟩) h

/-- Behind the loop the child ends and the parent compares the numbers. -/
theorem finished_verifies (hs : Inv capacity numbers s ∧ Whole s) (hpc : s.loop.pc = .finished)
    (hparent : s.parent ≠ .closeWrite) :
    ∃ t, Continues capacity s t ∧ t.parent = .verified true := by
  obtain ⟨hi, hw⟩ := hs
  have hsame := finished_same hi hpc
  have hexits : ∀ s : Transfer, s.written = size → Whole s → ∃ t, Continues capacity s t ∧
      t.child = .exited ∧ t.parent = s.parent ∧ t.numbers = s.numbers ∧ t.received = s.received := by
    intro s hwritten hw
    cases hchild : s.child with
    | closeRead => exact absurd (hw.writing (Or.inl hchild)) (by omega)
    | write => exact absurd (hw.writing (Or.inr hchild)) (by omega)
    | closeWrite =>
      refine ⟨{ s with child := .exited }, @continues_step _ _ _ .child trivial ?_, rfl, rfl, rfl, rfl⟩
      rw [step, childStep, hchild]
    | exited => exact ⟨s, reachable_along_refl _ s, hchild, rfl, rfl, rfl⟩
  have hwait : ∀ s : Transfer, s.written = size → Whole s → s.parent = .wait →
      verifyNumbers s.numbers s.received numCount = true →
      ∃ t, Continues capacity s t ∧ t.parent = .verified true := by
    intro s hwritten hw hparent hverify
    obtain ⟨t, ht, hexited, hwaits, hnumbers, hreceived⟩ := hexits s hwritten hw
    refine ⟨{ t with parent := .verified true }, continues_trans ht
      (@continues_step _ _ _ .parent trivial ?_), rfl⟩
    rw [step, parentStep, hwaits, hparent]
    dsimp only
    rw [if_pos hexited, hnumbers, hreceived, hverify]
  have hclose : ∀ s : Transfer, s.written = size → Whole s → s.parent = .closeRead →
      verifyNumbers s.numbers s.received numCount = true →
      ∃ t, Continues capacity s t ∧ t.parent = .verified true := by
    intro s hwritten hw hparent hverify
    obtain ⟨t, ht, hend⟩ := hwait { s with parent := .wait } hwritten
      ⟨hw.child, hw.writing, hw.loop⟩ rfl hverify
    refine ⟨t, continues_trans (@continues_step _ _ _ .parent trivial ?_) ht, hend⟩
    rw [step, parentStep, hparent]
  have hwritten : s.written = size := by
    have htotal := hi.loop.finished hpc
    have hlen := congrArg List.length hi.stream
    rw [contents_length, List.length_append, contents_length, htotal, Int.toNat_natCast] at hlen
    have hle := hi.written
    omega
  have hverify : verifyNumbers s.numbers s.received numCount = true := by
    rw [hi.unchanged]
    exact hsame
  cases hp : s.parent with
  | closeWrite => exact absurd hp hparent
  | loop =>
    obtain ⟨t, ht, hend⟩ := hclose { s with parent := .closeRead } hwritten
      ⟨hw.child, hw.writing, hw.loop⟩ rfl hverify
    refine ⟨t, continues_trans (@continues_step _ _ _ .parent trivial ?_) ht, hend⟩
    rw [step, parentStep, hp]
    exact if_pos (Or.inl hpc)
  | closeRead => exact hclose s hwritten hw hp hverify
  | wait => exact hwait s hwritten hw hp hverify
  | verified same =>
    refine ⟨s, reachable_along_refl _ s, ?_⟩
    rw [hp, (hi.verified same hp).2, hsame]

/-- A byte is read, written before where the pipe is empty. -/
theorem byte_read (hcapacity : 0 < capacity) (hs : Inv capacity numbers s ∧ Whole s)
    (hparent : s.parent = .loop) (hpc : s.loop.pc = .calling) (hchild : s.child ≠ .closeRead) :
    ∃ t, Continues capacity s t ∧ t.parent = .loop ∧ t.loop.pc = .test ∧
      t.loop.total = s.loop.total+1 ∧ t.child ≠ .closeRead := by
  have hread : ∀ s : Transfer, Inv capacity numbers s → s.parent = .loop → s.loop.pc = .calling →
      s.child ≠ .closeRead → s.pipe ≠ [] → ∃ t, Continues capacity s t ∧ t.parent = .loop ∧
        t.loop.pc = .test ∧ t.loop.total = s.loop.total+1 ∧ t.child ≠ .closeRead := by
    intro s hi hparent hpc hchild hne
    have hlen := len_eq hi.loop
    have hlt := hi.calling hpc
    have hmoves : Moves s.loop 1 := ⟨by decide, by omega⟩
    have hpos := List.length_pos_iff.mpr hne
    have hreads : Reads s 1 := ⟨hmoves, by omega, fun h => by cases h⟩
    have hstep : step capacity (.read 1) s = some (read 1 s) := if_pos ⟨hparent, hpc, hreads⟩
    refine ⟨read 1 s, continues_step (by show (0 : ℤ) ≤ 1; decide) hstep, hparent,
      advance_pc hi.loop hmoves (by decide), ?_, hchild⟩
    exact advance_total hi.loop hmoves
  obtain ⟨hi, hw⟩ := hs
  by_cases hnil : s.pipe = []
  · have hstream := congrArg List.length hi.stream
    rw [contents_length, List.length_append, contents_length, hnil, List.length_nil] at hstream
    have hlt := hi.calling hpc
    have hlow := hi.loop.low
    have hwriting : s.child = .write := by
      cases hc : s.child with
      | closeRead => exact absurd hc hchild
      | write => rfl
      | closeWrite => exact absurd (hw.child (Or.inl hc)) (by omega)
      | exited => exact absurd (hw.child (Or.inr hc)) (by omega)
    have hroom : s.pipe.length+1 ≤ capacity := by
      rw [hnil]
      exact hcapacity
    have hstep : step capacity (.write 1) s = some (write 1 s) :=
      if_pos ⟨hwriting, Nat.one_pos, by omega, hroom, Or.inr (Or.inl hparent)⟩
    have hnext : (write 1 s).child ≠ .closeRead := by
      unfold write
      dsimp only
      split <;> nofun
    have hbyte : (write 1 s).pipe ≠ [] := by
      show s.pipe++slice s.numbers s.written 1 ≠ []
      rw [hnil]
      nofun
    obtain ⟨t, ht, hrest⟩ := hread (write 1 s) (write_inv hi (by omega) hroom) hparent hpc hnext hbyte
    exact ⟨t, continues_trans (@continues_step _ _ _ (.write 1) trivial hstep) ht, hrest⟩
  · exact hread s hi hparent hpc hchild hnil

/-- The loop of the parent comes to its end. -/
theorem loop_finishes (hcapacity : 0 < capacity) (left : ℕ) (hs : Inv capacity numbers s ∧ Whole s)
    (hparent : s.parent = .loop) (hchild : s.child ≠ .closeRead) (hpc : s.loop.pc = .test)
    (hleft : s.loop.total+left = size) :
    ∃ t, Continues capacity s t ∧ t.parent = .loop ∧ t.loop.pc = .finished := by
  induction left generalizing s with
  | zero =>
    have htotal : s.loop.total = size := by omega
    have hend : s.loop.test = { s.loop with pc := .finished } := by
      have hnot : ¬ toSizeT s.loop.total < size := by
        rw [htotal]
        decide
      exact if_neg hnot
    refine ⟨{ s with loop := s.loop.test }, @continues_step _ _ _ .test trivial ?_, hparent, ?_⟩
    · exact if_pos ⟨hparent, hpc⟩
    · exact congrArg Loop.pc hend
  | succ left ih =>
    have hsize := size_lt
    have hlow := hs.1.loop.low
    have hcall : s.loop.test.pc = .calling := by
      unfold Loop.test
      rw [if_pos (by unfold toSizeT; omega)]
    have htest : Continues capacity s { s with loop := s.loop.test } :=
      @continues_step _ _ _ .test trivial (if_pos ⟨hparent, hpc⟩)
    obtain ⟨t, ht, hp, htpc, htotal, hc⟩ :=
      byte_read hcapacity (continues_inv hs htest) hparent hcall hchild
    have hboth := continues_trans htest ht
    have hsum : t.loop.total+left = size := by
      rw [htotal]
      show s.loop.test.total+1+left = size
      rw [test_total]
      omega
    obtain ⟨u, hu, hend⟩ := ih (continues_inv hs hboth) hp hc htpc hsum
    exact ⟨u, continues_trans hboth hu, hend⟩

/-- Through a pipe with any room at all, from every state that is reached
without a failure the parent can still come to compare the numbers, and it can
only find them to be the same. -/
theorem pipe_completes (hcapacity : 0 < capacity) (numbers received : ℕ → UInt8) (s : Transfer)
    (h : Continues capacity (started numbers received) s) :
    (∀ same, s.parent = .verified same → same = true) ∧
      ∃ t, Continues capacity s t ∧ t.parent = .verified true := by
  have hs := continues_inv
    ⟨started_inv capacity numbers received, started_whole numbers received⟩ h
  refine ⟨fun same hverified => ?_, ?_⟩
  · obtain ⟨hleft, hsame⟩ := hs.1.verified same hverified
    rw [hsame]
    exact finished_same hs.1 (hleft.resolve_right hs.2.loop)
  have hloop : ∀ s : Transfer, Inv capacity numbers s ∧ Whole s → s.parent = .loop →
      s.child ≠ .closeRead → ∃ t, Continues capacity s t ∧ t.parent = .verified true := by
    intro s hs hparent hchild
    have hend : ∀ s : Transfer, Inv capacity numbers s ∧ Whole s → s.parent = .loop →
        s.child ≠ .closeRead → s.loop.pc = .test →
        ∃ t, Continues capacity s t ∧ t.parent = .verified true := by
      intro s hs hparent hchild hpc
      have hlow := hs.1.loop.low
      have hhigh := hs.1.loop.high
      obtain ⟨t, ht, hp, hfinished⟩ := loop_finishes hcapacity (size-s.loop.total).toNat hs hparent
        hchild hpc (by omega)
      obtain ⟨u, hu, hverified⟩ := finished_verifies (continues_inv hs ht) hfinished (by rw [hp]; nofun)
      exact ⟨u, continues_trans ht hu, hverified⟩
    cases hpc : s.loop.pc with
    | test => exact hend s hs hparent hchild hpc
    | calling =>
      obtain ⟨t, ht, hp, htpc, -, hc⟩ := byte_read hcapacity hs hparent hpc hchild
      obtain ⟨u, hu, hverified⟩ := hend t (continues_inv hs ht) hp hc htpc
      exact ⟨u, continues_trans ht hu, hverified⟩
    | finished => exact finished_verifies hs hpc (by rw [hparent]; nofun)
    | broken => exact absurd hpc hs.2.loop
  have hchild : ∀ s : Transfer, Inv capacity numbers s ∧ Whole s → s.parent = .loop →
      ∃ t, Continues capacity s t ∧ t.parent = .verified true := by
    intro s hs hparent
    by_cases hc : s.child = .closeRead
    · have hstep : Continues capacity s { s with child := .write } := by
        refine @continues_step _ _ _ .child trivial ?_
        rw [step, childStep, hc]
      obtain ⟨t, ht, hverified⟩ := hloop _ (continues_inv hs hstep) hparent nofun
      exact ⟨t, continues_trans hstep ht, hverified⟩
    · exact hloop s hs hparent hc
  cases hp : s.parent with
  | closeWrite =>
    have hstep : Continues capacity s { s with parent := .loop } := by
      refine @continues_step _ _ _ .parent trivial ?_
      rw [step, parentStep, hp]
    obtain ⟨t, ht, hverified⟩ := hchild _ (continues_inv hs hstep) rfl
    exact ⟨t, continues_trans hstep ht, hverified⟩
  | loop => exact hchild s hs hp
  | closeRead =>
    exact finished_verifies hs ((hs.1.left (Or.inl hp)).resolve_right hs.2.loop) (by rw [hp]; nofun)
  | wait =>
    exact finished_verifies hs ((hs.1.left (Or.inr hp)).resolve_right hs.2.loop) (by rw [hp]; nofun)
  | verified same =>
    exact finished_verifies hs ((hs.1.verified same hp).1.resolve_right hs.2.loop)
      (by rw [hp]; nofun)

def twoBytes : List Event :=
  [.child, .parent, .write 2, .test, .read 1, .test, .write 1, .read 2]

theorem two_bytes_run : (exec (step 2) twoBytes
    (started (fun i => UInt8.ofNat i) fun _ => 0)).isSome = true := by
  decide +kernel

theorem two_bytes_works : Along (step 2) Works twoBytes
    (started (fun i => UInt8.ofNat i) fun _ => 0) := by
  decide +kernel

def twoBytesEnd : Transfer :=
  (exec (step 2) twoBytes (started (fun i => UInt8.ofNat i) fun _ => 0)).get two_bytes_run

theorem two_bytes_prefix :
    contents twoBytesEnd.received twoBytesEnd.loop.total.toNat <+:
      contents (fun i => UInt8.ofNat i) twoBytesEnd.written :=
  (pipe_exact 2 (fun i => UInt8.ofNat i) (fun _ => 0) twoBytesEnd
    (reachable_get two_bytes_run)).2.2.1

theorem two_bytes_completes : ∃ t, Continues 2 twoBytesEnd t ∧ t.parent = .verified true :=
  (pipe_completes (by decide) (fun i => UInt8.ofNat i) (fun _ => 0) twoBytesEnd
    (reachable_along_get two_bytes_run two_bytes_works)).2

end ProgSistema.BulkTransfer.Pipe
