import ProgSistema.Lib.Decimal
import ProgSistema.MovingPoint.Model

/-!
# The position as a text

The first number is read wherever it ends. The second one is read at the fourth
byte after the brace, where it starts only behind a first number of two digits.
-/

set_option autoImplicit false

namespace ProgSistema.MovingPoint
open CRuntime

def InSquare (p : ℤ × ℤ) : Prop := (0 ≤ p.1 ∧ p.1 ≤ 80) ∧ 0 ≤ p.2 ∧ p.2 ≤ 80

/-- The second number starts where it is read, or what is read there is 0 as
it is. -/
def Legible (x y : ℤ) : Prop := 10 ≤ x ∨ y = 0

instance decidableLegible (x y : ℤ) : Decidable (Legible x y) :=
  inferInstanceAs (Decidable (10 ≤ x ∨ y = 0))

theorem in_square_nat {x y : ℤ} (h : InSquare (x, y)) :
    ∃ m n : ℕ, x = m ∧ y = n ∧ m ≤ 80 ∧ n ≤ 80 := by
  obtain ⟨⟨hx, hxle⟩, hy, hyle⟩ := h
  exact ⟨x.toNat, y.toNat, (Int.toNat_of_nonneg hx).symm, (Int.toNat_of_nonneg hy).symm,
    Int.toNat_le.mpr hxle, Int.toNat_le.mpr hyle⟩

theorem position_bytes (m n : ℕ) (rest : Bytes) :
    positionText m n++rest = 123::(decimal m++44::(decimal n++125::rest)) := by
  have hopen : text "\x7b" = [123] := by decide
  have hcomma : text "," = [44] := by decide
  have hclose : text "\x7d" = [125] := by decide
  simp [positionText, print_nat, hopen, hcomma, hclose]

theorem decimal_two {n : ℕ} (h : 10 ≤ n) (hlt : n < 100) :
    decimal n = [UInt8.ofNat (48+n/10), UInt8.ofNat (48+n % 10)] := by
  rw [decimal_of_le h, decimal_of_lt (by omega)]
  rfl

theorem position_text_length {m n : ℕ} (hm : m ≤ 80) (hn : n ≤ 80) :
    (positionText m n).length ≤ 7 := by
  have hfirst := decimal_length (n := m) (k := 2) (by decide) (by omega)
  have hsecond := decimal_length (n := n) (k := 2) (by decide) (by omega)
  have hbytes := congrArg List.length (position_bytes m n [])
  simp only [List.append_nil, List.length_cons, List.length_append, List.length_nil] at hbytes
  omega

theorem first_read {m : ℕ} (n : ℕ) (rest : Bytes) (hm : m ≤ 80) :
    (readPosition (positionText m n++rest)).1 = m := by
  have hread : atoll (decimal m++44::(decimal n++125::rest)) = m :=
    atoll_decimal (by omega) (by simp [isDigit])
  rw [position_bytes]
  show toInt (atoll (decimal m++44::(decimal n++125::rest))) = m
  rw [hread, to_int_of_lt m (by omega)]

theorem second_read_two {m n : ℕ} (rest : Bytes) (hm : m ≤ 80) (hn : n ≤ 80) (htwo : 10 ≤ m) :
    (readPosition (positionText m n++rest)).2 = n := by
  have hread : atoll (decimal n++125::rest) = n := atoll_decimal (by omega) (by simp [isDigit])
  rw [position_bytes, decimal_two htwo (by omega)]
  show toInt (atoll (decimal n++125::rest)) = n
  rw [hread, to_int_of_lt n (by omega)]

/-- Behind a first number of one digit, the first digit of the second one is
lost. -/
theorem second_read_one {m n : ℕ} (rest : Bytes) (hn : n ≤ 80) (hone : m < 10) :
    (readPosition (positionText m n++rest)).2 = if n < 10 then 0 else (n % 10 : ℕ) := by
  rw [position_bytes, decimal_of_lt hone]
  show toInt (atoll ((decimal n++125::rest).drop 1)) = _
  split
  · rename_i hdigit
    have hnothing : scanInteger (125::rest) = none :=
      scan_nothing (by decide) (by decide) (by decide)
    rw [decimal_of_lt hdigit]
    show toInt (strtoll (125::rest)).1 = 0
    rw [strtoll, hnothing]
    rfl
  · rename_i htwo
    have hlt : n % 10 < 10 := Nat.mod_lt _ (by decide)
    have hread : atoll (decimal (n % 10)++125::rest) = (n % 10 : ℕ) :=
      atoll_decimal (by omega) (by simp [isDigit])
    rw [decimal_of_lt hlt] at hread
    rw [decimal_two (not_lt.mp htwo) (by omega)]
    show toInt (atoll ([UInt8.ofNat (48+n % 10)]++125::rest)) = _
    rw [hread, to_int_of_lt _ (by omega)]

theorem position_read_iff {x y : ℤ} (rest : Bytes) (h : InSquare (x, y)) :
    readPosition (positionText x y++rest) = (x, y) ↔ Legible x y := by
  obtain ⟨m, n, rfl, rfl, hm, hn⟩ := in_square_nat h
  rw [Prod.ext_iff, Legible]
  simp only [first_read n rest hm, true_and]
  by_cases htwo : 10 ≤ m
  · rw [second_read_two rest hm hn htwo]
    exact iff_of_true rfl (.inl (by exact_mod_cast htwo))
  · rw [second_read_one rest hn (not_le.mp htwo)]
    split <;> omega

theorem position_fits {x y : ℤ} (h : InSquare (x, y)) :
    (positionText x y).length+1 ≤ positionSize := by
  obtain ⟨m, n, rfl, rfl, hm, hn⟩ := in_square_nat h
  have hlen := position_text_length hm hn
  show _ ≤ 9
  omega

/-- A datagram that fits overwrites the start of the array. -/
theorem receive_fits {memory datagram : Bytes} (h : datagram.length ≤ positionSize) :
    receive memory datagram = datagram++memory.drop datagram.length := by
  rw [receive, List.take_of_length_le h]

end ProgSistema.MovingPoint
