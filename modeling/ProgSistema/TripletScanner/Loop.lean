import ProgSistema.Lib.OnePass
import ProgSistema.TripletScanner.Model

/-!
# One turn of the loop

A thread that holds the mutex treats the byte behind those that are done with.
What it changes on the way follows from where it is. The position is an `int`,
and no test asks whether the three equal bytes are alphanumeric.
-/

set_option autoImplicit false

namespace ProgSistema.TripletScanner
open CRuntime OnePass

def isAlnum (b : UInt8) : Bool := isDigit b || (65 ≤ b && b ≤ 90) || (97 ≤ b && b ≤ 122)

def Equal3 (content : Bytes) (p : ℕ) : Prop :=
  3 ≤ p ∧ p ≤ content.length ∧ content[p-3]? = content[p-2]? ∧ content[p-2]? = content[p-1]?

instance decidableEqual3 (content : Bytes) (p : ℕ) : Decidable (Equal3 content p) :=
  inferInstanceAs (Decidable (_ ∧ _))

def Triplet (content : Bytes) (p : ℕ) : Prop :=
  Equal3 content p ∧ (content[p-1]?).any isAlnum = true

instance decidableTriplet (content : Bytes) : DecidablePred (Triplet content) :=
  fun _ => inferInstanceAs (Decidable (_ ∧ _))

def expected (content : Bytes) (n : ℕ) : List ℤ :=
  (positions (Triplet content) n).map fun p : ℕ => (p : ℤ)

def Pc.ahead : Pc → ℕ
  | .seek | .count _ | .setPrevius _ | .report _ => 1
  | _ => 0

def Pc.overwrites : Pc → ℕ
  | .count _ | .setPrevius _ | .report _ => 1
  | _ => 0

def Pc.counted : Pc → ℕ
  | .setPrevius _ | .report _ => 1
  | _ => 0

def Pc.remembered : Pc → ℕ
  | .report _ => 1
  | _ => 0

def Pc.treats : Pc → Bool
  | .seek | .write _ | .count _ | .setPrevius _ | .report _ => true
  | _ => false

def Pc.pos : Pc → Option ℤ
  | .write pos | .count pos | .setPrevius pos | .report pos => some pos
  | _ => none

structure At {ι : Type*} (content : Bytes) (k : Scan ι) (pc : Pc) : Prop where
  started : 1 ≤ k.scanned
  below : k.scanned < 2^32
  offset : k.offset = k.scanned+pc.ahead
  file : k.file = overwritten toWrite content (k.scanned+pc.overwrites)
  counter : k.counter = repeats content (k.scanned+pc.counted)
  previus : content[k.scanned+pc.remembered-1]? = some k.previus
  current : pc.treats = true → content[k.scanned]? = some k.current
  pos : ∀ x, pc.pos = some x → x = toInt k.scanned ∧ k.scanned+1 < 2^32
  reports : k.reports = expected content k.scanned
  small : 2 ≤ repeats content k.scanned → k.scanned < 2^31
  eof : pc = .setExit → k.scanned = content.length
  finished : k.exit1 = true → k.scanned = content.length
  running : k.aborted = false

def Broken {ι : Type*} (content : Bytes) (k : Scan ι) : Prop :=
  (∃ r ∈ k.reports, ∀ p, Triplet content p → (p : ℤ) ≠ r) ∨
    k.aborted = true ∧ k.scanned ≠ content.length

theorem expected_succ (content : Bytes) (n : ℕ) : expected content (n+1) =
    if Triplet content (n+1) then expected content n++[(n : ℤ)+1] else expected content n := by
  unfold expected
  rw [positions_succ]
  split
  · rw [List.map_append]
    rfl
  · rfl

/-- Two repetitions in a row end three equal bytes. -/
theorem two_le_iff {content : Bytes} {n : ℕ} (h : n < content.length) :
    2 ≤ repeats content (n+1) ↔ Equal3 content (n+1) := by
  rw [two_le_repeats]
  constructor
  · rintro ⟨hthree, hfirst, hlast⟩
    exact ⟨hthree, h, hfirst, hlast⟩
  · rintro ⟨hthree, -, hfirst, hlast⟩
    exact ⟨hthree, hfirst, hlast⟩

/-- The `int` -1 stands for the last offset below `2^32`. -/
theorem to_int_minus_one {n : ℕ} (h : n < 2^32) : toInt n = -1 ↔ n+1 = 2^32 := by
  unfold toInt
  rw [Int.bmod_def]
  omega

/-- From `2^31` on the position is printed as a negative number. -/
theorem position_wraps {n : ℕ} (hlow : 2^31 ≤ n+1) (hhigh : n+1 < 2^32) :
    toInt (toInt n+1) < 0 := by
  unfold toInt
  rw [Int.bmod_def, Int.bmod_def]
  omega

theorem position_fits {n : ℕ} (h : n+1 < 2^31) : toInt (toInt n+1) = n+1 := by
  rw [to_int_of_lt n (by omega)]
  exact to_int_of_lt (n+1) h

section
variable {ι : Type*} {i : ι} {content : Bytes} {pc p : Pc} {k k' : Scan ι}

/-- The byte that is being treated is one of the file. -/
theorem byte_left (h : At content k pc) (hpc : pc.treats = true) : k.scanned < content.length :=
  (List.getElem?_eq_some_iff.mp (h.current hpc)).1

theorem read_at (h : At content k .read) (hstep : threadFunc i k .read = some (p, k')) :
    At content k' p := by
  have hbyte : k.file[k.offset]? = content[k.scanned]? := by
    rw [h.file, h.offset]
    exact overwritten_get _ _ _
  simp only [threadFunc] at hstep
  cases hread : k.file[k.offset]? with
  | some b =>
    rw [hread] at hstep
    cases hstep
    exact { h with
      offset := congrArg (·+1) h.offset
      current := fun _ => hbyte.symm.trans hread
      pos := fun _ hx => by cases hx
      eof := Pc.noConfusion }
  | none =>
    rw [hread] at hstep
    cases hstep
    have hend : content.length ≤ k.scanned :=
      List.getElem?_eq_none_iff.mp (hbyte.symm.trans hread)
    have hlast := (List.getElem?_eq_some_iff.mp h.previus).1
    have hstarted := h.started
    simp only [Pc.remembered] at hlast
    exact { h with
      current := Bool.noConfusion
      pos := fun _ hx => by cases hx
      eof := fun _ => by omega }

theorem set_exit_at (h : At content k .setExit)
    (hstep : threadFunc i k .setExit = some (p, k')) : At content k' p := by
  cases hstep
  exact { h with
    current := Bool.noConfusion
    pos := fun _ hx => by cases hx
    eof := Pc.noConfusion
    finished := fun _ => h.eof rfl }

theorem write_at {pos : ℤ} (h : At content k (.write pos))
    (hstep : threadFunc i k (.write pos) = some (p, k')) : At content k' p := by
  cases hstep
  have hoffset : k.offset = k.scanned := h.offset
  exact { h with
    offset := congrArg (·+1) h.offset
    file := by
      dsimp only
      rw [h.file, hoffset]
      exact overwritten_set _ _ (byte_left h rfl)
    eof := Pc.noConfusion }

/-- The count has not overflowed: three equal bytes end below `2^31`, if they
end anywhere. -/
theorem count_fits (h : At content k pc) : repeats content k.scanned+1 < 2^31 := by
  have hlt := repeats_lt content h.started
  by_cases htwo : 2 ≤ repeats content k.scanned
  · exact (Nat.succ_le_of_lt hlt).trans_lt (h.small htwo)
  · omega

theorem count_at {pos : ℤ} (h : At content k (.count pos))
    (hstep : threadFunc i k (.count pos) = some (p, k')) : At content k' p := by
  cases hstep
  have hcounter : k.counter = repeats content k.scanned := h.counter
  have hprevius : content[k.scanned-1]? = some k.previus := h.previus
  have hcompare : compare k = (repeats content (k.scanned+1) : ℕ) := by
    rw [compare, repeats_succ content h.started, hprevius, h.current rfl]
    by_cases heq : k.previus = k.current
    · rw [if_pos heq, if_pos (congrArg some heq), hcounter]
      exact to_int_of_lt (_+1) (count_fits h)
    · rw [if_neg heq, if_neg fun hsome => heq (Option.some.inj hsome)]
      rfl
  exact { h with
    counter := hcompare
    eof := Pc.noConfusion }

theorem set_previus_at {pos : ℤ} (h : At content k (.setPrevius pos))
    (hstep : threadFunc i k (.setPrevius pos) = some (p, k')) : At content k' p := by
  cases hstep
  exact { h with
    previus := h.current rfl
    eof := Pc.noConfusion }

theorem seek_pos (h : At content k .seek) : toInt ((k.offset : ℤ)-1) = toInt k.scanned := by
  rw [show k.offset = k.scanned+1 from h.offset, Nat.cast_succ, add_sub_cancel_right]

theorem seek_at (h : At content k .seek) (hok : k.offset < 2^32)
    (hstep : threadFunc i k .seek = some (p, k')) : At content k' p := by
  have hoffset : k.offset = k.scanned+1 := h.offset
  have hpos : ¬ toInt k.scanned = -1 := by
    rw [to_int_minus_one h.below]
    omega
  simp only [threadFunc, seek_pos h] at hstep
  rw [if_neg hpos] at hstep
  cases hstep
  exact { h with
    offset := by
      dsimp only
      rw [hoffset]
      rfl
    pos := fun x hx => by
      obtain rfl := Option.some.inj hx
      exact ⟨rfl, by rwa [← hoffset]⟩
    eof := Pc.noConfusion }

/-- The call that steps back over the byte at `2^32` is taken to have failed. -/
theorem seek_breaks (h : At content k .seek) (hlarge : ¬ k.offset < 2^32)
    (hstep : threadFunc i k .seek = some (p, k')) : Broken content k' := by
  have hoffset : k.offset = k.scanned+1 := h.offset
  have hpos : toInt k.scanned = -1 := by
    have hbelow := h.below
    rw [to_int_minus_one hbelow]
    omega
  simp only [threadFunc, seek_pos h] at hstep
  rw [if_pos hpos] at hstep
  cases hstep
  exact .inr ⟨rfl, (byte_left h rfl).ne⟩

variable {pos : ℤ}

theorem report_counter (h : At content k (.report pos)) :
    k.counter ≥ 2 ↔ Equal3 content (k.scanned+1) := by
  rw [← two_le_iff (byte_left h rfl), show k.counter = repeats content (k.scanned+1) from h.counter]
  exact Nat.ofNat_le_cast

theorem report_at (h : At content k (.report pos))
    (hok : Equal3 content k.offset → Triplet content k.offset ∧ k.offset < 2^31)
    (hstep : threadFunc i k (.report pos) = some (p, k')) : At content k' p := by
  cases hstep
  have hleft := byte_left h rfl
  obtain ⟨hpos, hbelow⟩ := h.pos pos rfl
  rw [show k.offset = k.scanned+1 from h.offset] at hok
  have hreports : (if k.counter ≥ 2 then k.reports++[toInt (pos+1)] else k.reports) =
      expected content (k.scanned+1) := by
    rw [expected_succ, h.reports]
    by_cases hthree : Equal3 content (k.scanned+1)
    · obtain ⟨htriplet, hsmall⟩ := hok hthree
      rw [if_pos ((report_counter h).mpr hthree), if_pos htriplet, hpos, position_fits hsmall]
    · rw [if_neg (mt (report_counter h).mp hthree), if_neg fun htriplet => hthree htriplet.1]
  exact {
    started := Nat.le_add_left 1 k.scanned
    below := hbelow
    offset := h.offset
    file := h.file
    counter := h.counter
    previus := h.previus
    current := Bool.noConfusion
    pos := fun _ hx => by cases hx
    reports := hreports
    small := fun htwo => (hok ((two_le_iff hleft).mp htwo)).2
    eof := Pc.noConfusion
    finished := fun hexit => absurd (h.finished hexit) hleft.ne
    running := h.running }

/-- Three equal bytes that are not alphanumeric are reported, and behind `2^31`
the position is not the one of the bytes. -/
theorem report_breaks (h : At content k (.report pos))
    (hbad : ¬ (Equal3 content k.offset → Triplet content k.offset ∧ k.offset < 2^31))
    (hstep : threadFunc i k (.report pos) = some (p, k')) : Broken content k' := by
  cases hstep
  obtain ⟨hpos, hbelow⟩ := h.pos pos rfl
  rw [show k.offset = k.scanned+1 from h.offset] at hbad
  push Not at hbad
  obtain ⟨hthree, hbad⟩ := hbad
  refine .inl ⟨toInt (pos+1), ?_, fun q hq heq => ?_⟩
  · dsimp only
    rw [if_pos ((report_counter h).mpr hthree)]
    exact List.mem_append_right _ (List.mem_singleton_self _)
  · rw [hpos] at heq
    rcases lt_or_ge (k.scanned+1) (2^31) with hsmall | hlarge
    · rw [position_fits hsmall] at heq
      obtain rfl : q = k.scanned+1 := by exact_mod_cast heq
      exact absurd (hbad hq) (not_le.mpr hsmall)
    · have hneg := position_wraps hlarge hbelow
      omega

theorem unlock_at (mutex : Option ι) (h : At content k .unlock) :
    At content { k with mutex := mutex } .testExit :=
  { h with
    current := Bool.noConfusion
    pos := fun _ hx => by cases hx
    eof := Pc.noConfusion }

theorem lock_at (mutex : Option ι) (h : At content k .testExit) :
    At content { k with mutex := mutex } .read :=
  { h with
    current := Bool.noConfusion
    pos := fun _ hx => by cases hx
    eof := Pc.noConfusion }

end

end ProgSistema.TripletScanner
