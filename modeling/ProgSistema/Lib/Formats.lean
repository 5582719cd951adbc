import ProgSistema.Lib.Decimal
import ProgSistema.Lib.Stdin

/-!
# Reading a text by a format

`sscanf` reads integers and fixed characters in turn and stops at the first
part of the text that does not match.
-/

set_option autoImplicit false

namespace ProgSistema.CRuntime

inductive Directive where
  | int
  | skipInt
  | space
  | char (b : UInt8)
  deriving DecidableEq, Repr

def sscanf : List Directive → Bytes → List ℤ
  | [], _ => []
  | .int::format, s =>
    match scanfInt s with
    | (some value, s) => value::sscanf format s
    | (none, _) => []
  | .skipInt::format, s =>
    match scanfInt s with
    | (some _, s) => sscanf format s
    | (none, _) => []
  | .space::format, s => sscanf format (s.dropWhile isSpace)
  | .char b::format, s =>
    match s with
    | [] => []
    | c::s => if c = b then sscanf format s else []

def digitPair (n : ℕ) : Bytes := [UInt8.ofNat (48+n/10), UInt8.ofNat (48+n % 10)]

theorem digit_pair_spec {n : ℕ} (h : n < 100) :
    (∀ b ∈ digitPair n, isDigit b = true) ∧ digitsValue (digitPair n) = n := by
  have htens : n/10 < 10 := by omega
  have hones : n % 10 < 10 := Nat.mod_lt n (by decide)
  constructor
  · intro b hb
    simp only [digitPair, List.mem_cons, List.not_mem_nil, or_false] at hb
    rcases hb with rfl | rfl
    · exact digit_is_digit htens
    · exact digit_is_digit hones
  · show 10*(10*0+((UInt8.ofNat (48+n/10)).toNat-48))+((UInt8.ofNat (48+n % 10)).toNat-48) = n
    rw [digit_value htens, digit_value hones]
    omega

theorem scanf_int_digits {s rest : Bytes} (h : ∀ b ∈ s, isDigit b = true) (hne : s ≠ [])
    (hrest : ∀ b ∈ rest.head?, isDigit b = false) (hvalue : digitsValue s < 2^31) :
    scanfInt (s++rest) = (some (digitsValue s : ℤ), rest) := by
  have hscan := scan_digits_append h hne hrest
  rcases strtoll_cases hscan with ⟨-, heq⟩ | ⟨hout, -⟩
  · unfold scanfInt
    rw [hscan, heq]
    dsimp only
    rw [to_int_of_lt _ hvalue]
  · exact absurd ⟨by omega, by omega⟩ hout

theorem sscanf_digit_pair {n : ℕ} (hn : n < 100) {rest : Bytes} {format : List Directive}
    (hrest : ∀ b ∈ rest.head?, isDigit b = false) :
    sscanf (.int::format) (digitPair n++rest) = (n : ℤ)::sscanf format rest := by
  obtain ⟨hdigits, hvalue⟩ := digit_pair_spec hn
  have hscan := scanf_int_digits hdigits (by simp [digitPair]) hrest (by omega)
  rw [sscanf, hscan, hvalue]

theorem sscanf_char (b : UInt8) (s : Bytes) (format : List Directive) :
    sscanf (.char b::format) (b::s) = sscanf format s := by
  rw [sscanf, if_pos rfl]

theorem sscanf_space {s : Bytes} (h : ∀ b ∈ s.head?, isSpace b = false)
    (format : List Directive) : sscanf (.space::format) (32::s) = sscanf format s := by
  have hspace : isSpace 32 = true := by decide
  rw [sscanf, List.dropWhile_cons_of_pos hspace]
  cases s with
  | nil => rfl
  | cons b s => rw [List.dropWhile_cons_of_neg (by simp [h b rfl])]

/-- A number of any size is read and dropped, with the white space before it. -/
theorem sscanf_skip {b : UInt8} (hb : isSpace b = true) (n : ℕ) {rest : Bytes}
    (hrest : ∀ b ∈ rest.head?, isDigit b = false) (format : List Directive) :
    sscanf (.skipInt::format) (b::decimal n++rest) = sscanf format rest := by
  have hscan := scan_digits_append (decimal_digits n) (decimal_ne_nil n) hrest
  have hspaced : scanInteger (b::decimal n++rest) = scanInteger (decimal n++rest) := by
    unfold scanInteger
    rw [List.cons_append, List.dropWhile_cons_of_pos hb]
  rw [← hspaced] at hscan
  have hread : ∃ value, scanfInt (b::decimal n++rest) = (some value, rest) := by
    unfold scanfInt
    rw [hscan]
    rcases strtoll_cases hscan with ⟨-, heq⟩ | ⟨-, bound, heq⟩
    · rw [heq]
      exact ⟨_, rfl⟩
    · rw [heq]
      exact ⟨_, rfl⟩
  obtain ⟨value, hvalue⟩ := hread
  rw [sscanf, hvalue]

end ProgSistema.CRuntime
