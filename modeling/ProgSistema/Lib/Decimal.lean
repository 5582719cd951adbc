import ProgSistema.Lib.CRuntime

/-!
# Decimal numbers as they are printed

The digits of a printed number have its value, and fewer digits have another
one.
-/

set_option autoImplicit false

namespace ProgSistema.CRuntime

theorem digit_byte {n : ℕ} (h : n < 10) :
    UInt8.ofNat (Nat.digitChar n).toNat = UInt8.ofNat (48+n) := by
  interval_cases n <;> rfl

theorem decimal_of_lt {n : ℕ} (h : n < 10) : decimal n = [UInt8.ofNat (48+n)] := by
  rw [decimal, Nat.toDigits_of_lt_base h, List.map_singleton, digit_byte h]

theorem decimal_of_le {n : ℕ} (h : 10 ≤ n) :
    decimal n = decimal (n/10)++[UInt8.ofNat (48+n % 10)] := by
  rw [decimal, Nat.toDigits_of_base_le (by decide) h, List.map_append, List.map_singleton,
    digit_byte (Nat.mod_lt _ (by decide))]
  rfl

theorem decimal_ne_nil (n : ℕ) : decimal n ≠ [] := by
  rw [decimal, ne_eq, List.map_eq_nil_iff]
  exact Nat.toDigits_ne_nil

theorem digit_is_digit {n : ℕ} (h : n < 10) : isDigit (UInt8.ofNat (48+n)) = true := by
  interval_cases n <;> rfl

theorem digit_value {n : ℕ} (h : n < 10) : (UInt8.ofNat (48+n)).toNat-48 = n := by
  interval_cases n <;> rfl

theorem digits_value_concat (digits : Bytes) (b : UInt8) :
    digitsValue (digits++[b]) = 10*digitsValue digits+(b.toNat-48) := by
  rw [digitsValue, List.foldl_append]
  rfl

theorem decimal_digits (n : ℕ) : ∀ b ∈ decimal n, isDigit b = true := by
  induction n using Nat.strongRecOn with
  | ind n ih =>
    intro b hb
    by_cases hn : n < 10
    · rw [decimal_of_lt hn, List.mem_singleton] at hb
      rw [hb]
      exact digit_is_digit hn
    · rw [decimal_of_le (not_lt.mp hn)] at hb
      rcases List.mem_append.mp hb with hinit | hlast
      · exact ih (n/10) (by omega) b hinit
      · rw [List.mem_singleton.mp hlast]
        exact digit_is_digit (Nat.mod_lt _ (by decide))

theorem digits_value_decimal (n : ℕ) : digitsValue (decimal n) = n := by
  induction n using Nat.strongRecOn with
  | ind n ih =>
    by_cases hn : n < 10
    · rw [decimal_of_lt hn]
      show 10*0+((UInt8.ofNat (48+n)).toNat-48) = n
      rw [digit_value hn]
      omega
    · rw [decimal_of_le (not_lt.mp hn), digits_value_concat, ih (n/10) (by omega),
        digit_value (Nat.mod_lt _ (by decide))]
      omega

theorem decimal_no_nul (n : ℕ) : 0 ∉ decimal n := by
  intro h
  have hdigit := decimal_digits n 0 h
  revert hdigit
  decide

theorem digits_value_lt {digits : Bytes} (h : ∀ b ∈ digits, isDigit b = true) :
    digitsValue digits < 10^digits.length := by
  induction digits using List.reverseRecOn with
  | nil => exact Nat.one_pos
  | append_singleton digits b ih =>
    have hinit := ih fun c hc => h c (by simp [hc])
    have hb := h b (by simp)
    have hdigit : b.toNat-48 < 10 := by
      simp only [isDigit, Bool.and_eq_true, decide_eq_true_eq] at hb
      have hle := UInt8.le_iff_toNat_le.mp hb.2
      have hnine : (57 : UInt8).toNat = 57 := rfl
      omega
    rw [digits_value_concat, List.length_append, List.length_singleton, pow_succ]
    omega

/-- Fewer digits than the printed ones are those of a smaller number. -/
theorem digits_value_short {digits : Bytes} {n : ℕ} (h : ∀ b ∈ digits, isDigit b = true)
    (hne : digits ≠ []) (hshort : digits.length < (decimal n).length) : digitsValue digits < n := by
  have hpos := List.length_pos_iff.mpr hne
  have hle : 10^digits.length ≤ n := by
    by_contra hlt
    have hlen := decimal_length hpos (not_le.mp hlt)
    omega
  exact (digits_value_lt h).trans_le hle

/-! Integers read back. -/

theorem digit_not_space {b : UInt8} (h : isDigit b = true) : isSpace b = false := by
  simp only [isDigit, Bool.and_eq_true, decide_eq_true_eq, UInt8.le_iff_toNat_le] at h
  have h48 : (48 : UInt8).toNat = 48 := rfl
  have h57 : (57 : UInt8).toNat = 57 := rfl
  have h13 : (13 : UInt8).toNat = 13 := rfl
  have hne : b ≠ 32 := by
    rintro rfl
    have h32 : (32 : UInt8).toNat = 32 := rfl
    omega
  have hgt : ¬ b ≤ 13 := by
    rw [UInt8.le_iff_toNat_le]
    omega
  simp [isSpace, hne, hgt]

theorem digit_not_sign {b : UInt8} (h : isDigit b = true) : b ≠ 45 ∧ b ≠ 43 := by
  constructor <;> rintro rfl <;> revert h <;> decide

theorem digits_take_while {s rest : Bytes} (h : ∀ b ∈ s, isDigit b = true)
    (hrest : ∀ b ∈ rest.head?, isDigit b = false) :
    (s++rest).takeWhile isDigit = s ∧ (s++rest).dropWhile isDigit = rest := by
  have hstop : rest.takeWhile isDigit = [] ∧ rest.dropWhile isDigit = rest := by
    cases rest with
    | nil => exact ⟨rfl, rfl⟩
    | cons b rest =>
      have hb := hrest b rfl
      exact ⟨List.takeWhile_cons_of_neg (by simp [hb]), List.dropWhile_cons_of_neg (by simp [hb])⟩
  constructor
  · rw [List.takeWhile_append_of_pos h, hstop.1, List.append_nil]
  · rw [List.dropWhile_append_of_pos h, hstop.2]

/-- What follows the digits of a number ends it. -/
theorem scan_digits_append {s rest : Bytes} (h : ∀ b ∈ s, isDigit b = true) (hne : s ≠ [])
    (hrest : ∀ b ∈ rest.head?, isDigit b = false) :
    scanInteger (s++rest) = some ((digitsValue s : ℤ), rest) := by
  obtain ⟨htake, hdrop⟩ := digits_take_while h hrest
  obtain ⟨b, s, rfl⟩ := List.exists_cons_of_ne_nil hne
  have hb := h b (by simp)
  obtain ⟨hminus, hplus⟩ := digit_not_sign hb
  have hspace : (b::s++rest).dropWhile isSpace = b::s++rest :=
    List.dropWhile_cons_of_neg (by simp [digit_not_space hb])
  unfold scanInteger
  rw [hspace]
  dsimp only
  split
  · rename_i heq
    exact absurd (List.cons.inj heq).1 hminus
  · rename_i heq
    exact absurd (List.cons.inj heq).1 hplus
  · rw [htake, hdrop]
    simp

theorem scan_digits {s : Bytes} (h : ∀ b ∈ s, isDigit b = true) (hne : s ≠ []) :
    scanInteger s = some ((digitsValue s : ℤ), []) := by
  simpa using @scan_digits_append s [] h hne (by simp)

theorem scan_minus {s : Bytes} (h : ∀ b ∈ s, isDigit b = true) (hne : s ≠ []) :
    scanInteger (45::s) = some (-(digitsValue s : ℤ), []) := by
  obtain ⟨htake, hdrop⟩ := @digits_take_while s [] h (by simp)
  rw [List.append_nil] at htake hdrop
  have hspace : (45::s).dropWhile isSpace = 45::s := List.dropWhile_cons_of_neg (by decide)
  unfold scanInteger
  rw [hspace]
  simp [htake, hdrop, hne]

theorem scan_blanks {blanks : Bytes} (h : ∀ b ∈ blanks, isSpace b = true) (s : Bytes) :
    scanInteger (blanks++s) = scanInteger s := by
  unfold scanInteger
  rw [List.dropWhile_append_of_pos h]

/-- A text that starts with anything else is read as 0. -/
theorem scan_nothing {b : UInt8} {s : Bytes} (hspace : isSpace b = false)
    (hsign : b ≠ 45 ∧ b ≠ 43) (hdigit : isDigit b = false) : scanInteger (b::s) = none := by
  have htake : (b::s).takeWhile isDigit = [] := List.takeWhile_cons_of_neg (by simp [hdigit])
  have hdrop : (b::s).dropWhile isSpace = b::s := List.dropWhile_cons_of_neg (by simp [hspace])
  unfold scanInteger
  rw [hdrop]
  dsimp only
  split
  · rename_i heq
    exact absurd (List.cons.inj heq).1 hsign.1
  · rename_i heq
    exact absurd (List.cons.inj heq).1 hsign.2
  · rw [if_pos htake]

theorem strtoll_cases {s rest : Bytes} {value : ℤ} (h : scanInteger s = some (value, rest)) :
    (-2^63 ≤ value ∧ value ≤ 2^63-1) ∧ strtoll s = (value, rest, false) ∨
      ¬ (-2^63 ≤ value ∧ value ≤ 2^63-1) ∧ ∃ bound, strtoll s = (bound, rest, true) := by
  unfold strtoll
  rw [h]
  dsimp only
  split
  · rename_i habove
    exact Or.inr ⟨fun hin => absurd hin.2 (not_le.mpr habove), _, rfl⟩
  · rename_i habove
    split
    · rename_i hbelow
      exact Or.inr ⟨fun hin => absurd hin.1 (not_le.mpr hbelow), _, rfl⟩
    · rename_i hbelow
      exact Or.inl ⟨⟨not_lt.mp hbelow, not_lt.mp habove⟩, rfl⟩

theorem atoll_of_scan {s rest : Bytes} {n : ℕ} (h : scanInteger s = some ((n : ℤ), rest))
    (hn : n < 2^63) : atoll s = n := by
  rcases strtoll_cases h with ⟨-, heq⟩ | ⟨hout, -⟩
  · rw [atoll, heq]
  · exact absurd ⟨by omega, by omega⟩ hout

theorem atoll_decimal {n : ℕ} {rest : Bytes} (hn : n < 2^63)
    (hrest : ∀ b ∈ rest.head?, isDigit b = false) : atoll (decimal n++rest) = n := by
  have hscan := scan_digits_append (decimal_digits n) (decimal_ne_nil n) hrest
  rw [digits_value_decimal] at hscan
  exact atoll_of_scan hscan hn

theorem print_nat (n : ℕ) : printInt n = decimal n := if_neg (Int.natCast_nonneg n).not_gt

end ProgSistema.CRuntime
