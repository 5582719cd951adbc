import Mathlib.Tactic

/-!
# Civil time

The dates of the Gregorian calendar and the times of day from the start of
1970 on. An instant is the number of seconds since then, each day with 86400 of
them.
-/

set_option autoImplicit false

namespace ProgSistema.Calendar

section Blocks

def findBlock : List ℕ → ℕ → ℕ × ℕ
  | [], n => (0, n)
  | len::lens, n =>
    if n < len then (0, n) else ((findBlock lens (n-len)).1+1, (findBlock lens (n-len)).2)

theorem find_block_spec (lens : List ℕ) (n : ℕ) (h : n < lens.sum) :
    (findBlock lens n).1 < lens.length ∧
      (findBlock lens n).2 < lens.getD (findBlock lens n).1 0 ∧
      (lens.take (findBlock lens n).1).sum+(findBlock lens n).2 = n := by
  induction lens generalizing n with
  | nil => simp at h
  | cons len lens ih =>
    rw [findBlock]
    split
    · rename_i hfirst
      exact ⟨Nat.zero_lt_succ _, hfirst, Nat.zero_add n⟩
    · rename_i hlater
      rw [List.sum_cons] at h
      obtain ⟨hindex, hplace, hsum⟩ := ih (n-len) (by omega)
      refine ⟨Nat.succ_lt_succ hindex, hplace, ?_⟩
      rw [List.take_succ_cons, List.sum_cons]
      omega

end Blocks

def isLeap (year : ℕ) : Bool :=
  decide ((year % 4 = 0 ∧ year % 100 ≠ 0) ∨ year % 400 = 0)

def monthLengths (year : ℕ) : List ℕ :=
  [31, if isLeap year then 29 else 28, 31, 30, 31, 30, 31, 31, 30, 31, 30, 31]

def yearLength (year : ℕ) : ℕ := (monthLengths year).sum

def yearLengths (years : ℕ) : List ℕ := (List.range' 1970 years).map yearLength

/-- A day of the calendar. Months and days are counted from 0. -/
structure Date where
  year : ℕ
  month : ℕ
  day : ℕ
  since : 1970 ≤ year
  month_lt : month < 12
  day_lt : day < (monthLengths year).getD month 0
  deriving DecidableEq

theorem day_lt_31 (d : Date) : d.day < 31 := by
  have hlt := d.day_lt
  have hmonth := d.month_lt
  have hle : ∀ month < 12, (monthLengths d.year).getD month 0 ≤ 31 := by
    unfold monthLengths
    split <;> decide
  have hlen := hle d.month hmonth
  omega

def Date.days (d : Date) : ℕ :=
  (yearLengths (d.year-1970)).sum+((monthLengths d.year).take d.month).sum+d.day

theorem year_length_ge (year : ℕ) : 365 ≤ yearLength year := by
  unfold yearLength monthLengths
  split <;> decide

theorem year_lengths_sum_ge (years : ℕ) : 365*years ≤ (yearLengths years).sum := by
  induction years with
  | zero => exact Nat.zero_le _
  | succ years ih =>
    have hlast := year_length_ge (1970+years)
    have hnext : yearLengths (years+1) = yearLengths years++[yearLength (1970+years)] := by
      unfold yearLengths
      rw [List.range'_1_concat, List.map_append]
      rfl
    rw [hnext, List.sum_append, List.sum_singleton]
    omega

theorem year_length_le (year : ℕ) : yearLength year ≤ 366 := by
  unfold yearLength monthLengths
  split <;> decide

theorem year_lengths_sum_le (years : ℕ) : (yearLengths years).sum ≤ 366*years := by
  have hsum := List.sum_le_card_nsmul (yearLengths years) 366 ?_
  · rwa [yearLengths, List.length_map, List.length_range', smul_eq_mul, mul_comm] at hsum
  · intro len hlen
    obtain ⟨year, -, rfl⟩ := List.mem_map.mp hlen
    exact year_length_le year

theorem year_lengths_take {years i : ℕ} (h : i ≤ years) :
    (yearLengths years).take i = yearLengths i := by
  unfold yearLengths
  rw [← List.map_take, List.take_range'_of_length_ge h]

def yearOf (days : ℕ) : ℕ × ℕ := findBlock (yearLengths (days/365+1)) days

theorem year_of_spec (days : ℕ) : (yearOf days).2 < yearLength (1970+(yearOf days).1) ∧
    (yearLengths (yearOf days).1).sum+(yearOf days).2 = days := by
  have hroom := year_lengths_sum_ge (days/365+1)
  obtain ⟨hindex, hplace, hsum⟩ :=
    find_block_spec (yearLengths (days/365+1)) days (by omega)
  have hlen : (yearLengths (days/365+1)).length = days/365+1 := by simp [yearLengths]
  have hget : (yearLengths (days/365+1)).getD (yearOf days).1 0 =
      yearLength (1970+(yearOf days).1) := by
    unfold yearLengths
    rw [List.getD_eq_getElem?_getD, List.getElem?_map,
      List.getElem?_range' (hlen ▸ hindex), Nat.one_mul]
    rfl
  refine ⟨hget ▸ hplace, ?_⟩
  rwa [year_lengths_take (by rw [hlen] at hindex; exact hindex.le)] at hsum

theorem month_of_spec (days : ℕ) :
    let place := findBlock (monthLengths (1970+(yearOf days).1)) (yearOf days).2
    place.1 < 12 ∧ place.2 < (monthLengths (1970+(yearOf days).1)).getD place.1 0 ∧
      ((monthLengths (1970+(yearOf days).1)).take place.1).sum+place.2 = (yearOf days).2 :=
  find_block_spec _ _ (year_of_spec days).1

def dateOf (days : ℕ) : Date where
  year := 1970+(yearOf days).1
  month := (findBlock (monthLengths (1970+(yearOf days).1)) (yearOf days).2).1
  day := (findBlock (monthLengths (1970+(yearOf days).1)) (yearOf days).2).2
  since := Nat.le_add_right 1970 _
  month_lt := (month_of_spec days).1
  day_lt := (month_of_spec days).2.1

theorem days_date_of (days : ℕ) : (dateOf days).days = days := by
  obtain ⟨-, hyear⟩ := year_of_spec days
  obtain ⟨-, -, hmonth⟩ := month_of_spec days
  unfold Date.days dateOf
  dsimp only
  rw [Nat.add_sub_cancel_left, Nat.add_assoc, hmonth, hyear]

theorem days_lt (days : ℕ) : days < 366*((dateOf days).year-1969) := by
  obtain ⟨hplace, hsum⟩ := year_of_spec days
  have hle := year_length_le (1970+(yearOf days).1)
  have hyears := year_lengths_sum_le (yearOf days).1
  have hyear : (dateOf days).year = 1970+(yearOf days).1 := rfl
  omega

structure Civil where
  date : Date
  hour : Fin 24
  minute : Fin 60
  second : Fin 60
  deriving DecidableEq

def Civil.seconds (c : Civil) : ℕ := 86400*c.date.days+3600*c.hour+60*c.minute+c.second

def utc (t : ℕ) : Civil where
  date := dateOf (t/86400)
  hour := ⟨t % 86400/3600, by omega⟩
  minute := ⟨t % 3600/60, by omega⟩
  second := ⟨t % 60, by omega⟩

theorem utc_day_lt (t : ℕ) : t/86400 < 366*((utc t).date.year-1969) := days_lt (t/86400)

theorem seconds_utc (t : ℕ) : (utc t).seconds = t := by
  unfold Civil.seconds utc
  rw [days_date_of]
  dsimp only
  omega

theorem utc_injective : Function.Injective utc := by
  intro s t h
  rw [← seconds_utc s, ← seconds_utc t, h]

/-- The first second of a leap day, and the last of 2099. -/
example : (utc 951782400).date.month = 1 ∧ (utc 951782400).date.day = 28 ∧
    (utc 4102444799).date.year = 2099 := by
  decide +kernel

end ProgSistema.Calendar
