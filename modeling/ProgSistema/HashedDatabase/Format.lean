import ProgSistema.HashedDatabase.Model
import ProgSistema.Lib.Decimal

/-!
# The index file and the data file as lists of records

An entry of the index file is a chain pointer with what comes before the next
one: nothing in the hash table, the newline after it, or an index record.
-/

set_option autoImplicit false

namespace ProgSistema.HashedDatabase
open CRuntime RecordLayout

/-! Fields of fixed width. -/

theorem field_nat (width n : ℕ) :
    field width n = List.replicate (width-(decimal n).length) space++decimal n := by
  rw [field, print_nat]

theorem field_length {width n : ℕ} (hw : 0 < width) (hn : n < 10^width) :
    (field width n).length = width := by
  have hle := decimal_length hw hn
  rw [field_nat, List.length_append, List.length_replicate]
  omega

theorem le_field_length (width n : ℕ) : width ≤ (field width n).length := by
  rw [field_nat, List.length_append, List.length_replicate]
  omega

theorem field_no_nul (width n : ℕ) : 0 ∉ field width n := by
  rw [field_nat, List.mem_append, not_or]
  refine ⟨fun h => ?_, decimal_no_nul n⟩
  have hspace := List.eq_of_mem_replicate h
  exact absurd hspace (by decide)

theorem atoll_field (width : ℕ) {n : ℕ} (hn : n < 2^63) :
    atoll (cstr (field width n)) = n := by
  rw [cstr_of_no_nul _ (field_no_nul width n), field_nat]
  refine @atoll_of_scan _ [] _ ?_ hn
  rw [scan_blanks, scan_digits (decimal_digits n) (decimal_ne_nil n), digits_value_decimal]
  intro b hb
  rw [List.eq_of_mem_replicate hb]
  rfl

/-! Index records. -/

structure Slot where
  key : Bytes
  data : Bytes
  datoff : ℕ
  deriving DecidableEq, Repr

def Slot.datlen (σ : Slot) : ℕ := σ.data.length+1

def Slot.text (σ : Slot) : Bytes := record σ.key σ.datoff σ.datlen

structure Slot.Fits (σ : Slot) : Prop where
  noSep : sep ∉ σ.key
  keyNoNul : 0 ∉ σ.key
  dataNoNul : 0 ∉ σ.data
  low : idxlenMin ≤ σ.text.length
  high : σ.text.length ≤ idxlenMax
  datlen : σ.datlen ≤ datlenMax
  offset : σ.datoff < 2^63

theorem before_sep {s : Bytes} (h : sep ∉ s) (rest : Bytes) :
    (s++sep::rest).takeWhile (· ≠ sep) = s ∧ (s++sep::rest).dropWhile (· ≠ sep) = sep::rest := by
  have hall : ∀ b ∈ s, decide (b ≠ sep) = true := fun b hb =>
    decide_eq_true fun heq => h (heq ▸ hb)
  rw [List.takeWhile_append_of_pos hall, List.dropWhile_append_of_pos hall]
  simp

theorem decimal_no_sep (n : ℕ) : sep ∉ decimal n := fun h =>
  absurd (decimal_digits n sep h) (by decide)

theorem text_eq (σ : Slot) :
    σ.text = σ.key++sep::decimal σ.datoff++sep::decimal σ.datlen++[newline] := by
  rw [Slot.text, record, print_nat, print_nat]

theorem text_length (σ : Slot) :
    σ.text.length = σ.key.length+(decimal σ.datoff).length+(decimal σ.datlen).length+3 := by
  rw [text_eq]
  simp only [List.length_append, List.length_cons, List.length_nil]
  omega

theorem text_last (σ : Slot) : σ.text.getLast? = some newline := by
  rw [text_eq, List.getLast?_concat]

theorem text_no_nul {σ : Slot} (h : 0 ∉ σ.key) : 0 ∉ σ.text := by
  have hsep : (0 : UInt8) ≠ sep := by decide
  have hnewline : (0 : UInt8) ≠ newline := by decide
  rw [text_eq]
  simp [h, hsep, hnewline, decimal_no_nul]

theorem to_size_t_nat {n : ℕ} (h : n < 2^64) : toSizeT n = n := by
  unfold toSizeT
  omega

/-- The three parts of an index record are read back from its text. -/
theorem split_text {σ : Slot} (h : σ.Fits) :
    splitRecord (cstr σ.text.dropLast) = .ok (σ.key, σ.datoff, σ.datlen) := by
  have hshort := h.datlen
  have hpositive : σ.datlen ≠ 0 := Nat.succ_ne_zero _
  have hmax : datlenMax < 2^63 := by decide
  have hno : 0 ∉ σ.text.dropLast := fun hmem =>
    text_no_nul h.keyNoNul (List.dropLast_subset _ hmem)
  have hdrop : σ.text.dropLast = σ.key++sep::(decimal σ.datoff++sep::decimal σ.datlen) := by
    rw [text_eq, List.dropLast_concat, List.append_assoc, List.cons_append]
  obtain ⟨hkey, hrest⟩ := before_sep h.noSep (decimal σ.datoff++sep::decimal σ.datlen)
  obtain ⟨hoffset, hlast⟩ := before_sep (decimal_no_sep σ.datoff) (decimal σ.datlen)
  have hdatoff : atoll (decimal σ.datoff) = σ.datoff := by
    simpa using @atoll_decimal σ.datoff [] h.offset (by simp)
  have hdatlen : atoll (decimal σ.datlen) = σ.datlen := by
    simpa using @atoll_decimal σ.datlen [] (by omega) (by simp)
  rw [cstr_of_no_nul _ hno, hdrop, splitRecord, hrest]
  dsimp only
  rw [hlast]
  dsimp only
  rw [if_neg (decimal_no_sep σ.datlen), hoffset, hdatoff, hdatlen, to_size_t_nat (by omega), hkey]
  rw [if_neg (by omega), if_neg (by omega)]

/-! Entries of the index file. -/

inductive Tail where
  | nothing
  | newline
  | slot (σ : Slot)
  deriving DecidableEq, Repr

structure Entry where
  next : ℕ
  tail : Tail
  deriving DecidableEq, Repr

def Tail.bytes : Tail → Bytes
  | .nothing => []
  | .newline => [HashedDatabase.newline]
  | .slot σ => field idxlenSz σ.text.length++σ.text

def Entry.bytes (e : Entry) : Bytes := field ptrSz e.next++e.tail.bytes

def Entry.slot? (e : Entry) : Option Slot :=
  match e.tail with
  | .slot σ => some σ
  | _ => none

structure Entry.Fits (e : Entry) : Prop where
  pointer : (e.next : ℤ) ≤ ptrMax
  slot : ∀ σ, e.slot? = some σ → σ.Fits

theorem slot_tail {e : Entry} {σ : Slot} (h : e.slot? = some σ) : e.tail = .slot σ := by
  unfold Entry.slot? at h
  split at h
  · rename_i σ' htail
    rw [htail, Option.some.inj h]
  · cases h

theorem bytes_pos (e : Entry) : 0 < e.bytes.length := by
  have hle := le_field_length ptrSz e.next
  rw [Entry.bytes, List.length_append]
  have hptr : 0 < ptrSz := by decide
  omega

theorem pointer_length {n : ℕ} (h : (n : ℤ) ≤ ptrMax) : (field ptrSz n).length = ptrSz := by
  refine field_length (by decide) ?_
  have hmax : ptrMax = 10^ptrSz-1 := by decide
  rw [hmax] at h
  have hpos : (1 : ℤ) ≤ 10^ptrSz := by decide
  exact_mod_cast (show (n : ℤ) < 10^ptrSz by omega)

theorem length_length {n : ℕ} (h : n ≤ idxlenMax) : (field idxlenSz n).length = idxlenSz :=
  field_length (by decide) (lt_of_le_of_lt h (by decide))

def Slot.size (σ : Slot) : ℕ := ptrSz+idxlenSz+σ.text.length

theorem slot_bytes {e : Entry} {σ : Slot} (h : e.slot? = some σ) :
    e.bytes = field ptrSz e.next++field idxlenSz σ.text.length++σ.text := by
  rw [Entry.bytes, slot_tail h, Tail.bytes, List.append_assoc]

theorem slot_bytes_length {e : Entry} {σ : Slot} (he : e.Fits) (h : e.slot? = some σ) :
    e.bytes.length = σ.size := by
  rw [slot_bytes h, List.length_append, List.length_append, pointer_length he.pointer,
    length_length (he.slot σ h).high, Slot.size]

def line (data : Bytes) : Bytes := data++[newline]

theorem line_length (data : Bytes) : (line data).length = data.length+1 := by
  rw [line, List.length_append, List.length_singleton]

theorem line_pos (data : Bytes) : 0 < (line data).length := by
  rw [line_length]
  omega

end ProgSistema.HashedDatabase
