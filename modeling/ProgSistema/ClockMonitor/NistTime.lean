import ProgSistema.Lib.Calendar
import ProgSistema.Lib.Formats

/-!
# Reading the time of the server

The server sends a line with its time in UTC. `get_nist_time` reads the fields
of the line and gives them to `mktime`, which takes them for a local time.
-/

set_option autoImplicit false

namespace ProgSistema.ClockMonitor
open Calendar CRuntime

structure Tm where
  tmYear : ℤ
  tmMon : ℤ
  tmMday : ℤ
  tmHour : ℤ
  tmMin : ℤ
  tmSec : ℤ
  tmIsdst : ℤ
  deriving DecidableEq, Repr

def fields (c : Civil) : Tm where
  tmYear := c.date.year-1900
  tmMon := c.date.month
  tmMday := c.date.day+1
  tmHour := c.hour
  tmMin := c.minute
  tmSec := c.second
  tmIsdst := -1

def localTime (offset : ℕ → ℤ) (t : ℕ) : Civil := utc (t+offset t).toNat

/-- A time zone has an offset from UTC at each instant, daylight saving
included. `mktime` turns what local clocks show at some instant into an instant
at which they show it. -/
structure TimeZone where
  offset : ℕ → ℤ
  mktime : Tm → ℤ
  mktime_shown : ∀ t : ℕ, 0 ≤ t+offset t → ∃ u : ℕ, mktime (fields (localTime offset t)) = u ∧
    0 ≤ u+offset u ∧ localTime offset u = localTime offset t

def TimeZone.appliedOffset (zone : TimeZone) (c : Civil) : ℤ :=
  c.seconds-zone.mktime (fields c)

def TimeZone.ShownOnce (zone : TimeZone) (c : Civil) : Prop :=
  ∃! t : ℕ, 0 ≤ t+zone.offset t ∧ localTime zone.offset t = c

def bufferSize : ℕ := 256

def format : List Directive :=
  [.skipInt, .space, .int, .char 45, .int, .char 45, .int, .space, .int, .char 58, .int, .char 58,
    .int]

inductive Reply where
  | unreachable
  | failed
  | received (bytes : Bytes)
  deriving DecidableEq, Repr

/-- `get_nist_time`. A `recv` that fails puts the NUL in front of the buffer. -/
def getNistTime (zone : TimeZone) : Reply → Except Fault ℤ
  | .unreachable => .ok (-1)
  | .failed => .error .outOfBounds
  | .received bytes =>
    let buffer := cstr (bytes.take (bufferSize-1))
    match sscanf format buffer with
    | [year, mon, mday, hour, min, sec] =>
      let nistTimestamp := zone.mktime
        { tmYear := toInt (year+100), tmMon := toInt (mon-1), tmMday := mday, tmHour := hour,
          tmMin := min, tmSec := sec, tmIsdst := -1 }
      .ok (if nistTimestamp ≠ -1 then nistTimestamp else -1)
    | _ => .ok (-1)

def stamp (day : ℕ) (c : Civil) : Bytes :=
  10::decimal day++32::(digitPair (c.date.year-2000)++45::(digitPair (c.date.month+1)++
    45::(digitPair (c.date.day+1)++32::(digitPair c.hour++58::(digitPair c.minute++
      58::digitPair c.second)))))

def daytimeLine (t : ℕ) (rest : Bytes) : Bytes := stamp (t/86400+40587) (utc t)++rest

theorem colon_ends {s : Bytes} {b : UInt8} (hb : isDigit b = false) :
    ∀ c ∈ (b::s).head?, isDigit c = false := by
  intro c hc
  cases hc
  exact hb

theorem pair_starts {n : ℕ} (hn : n < 100) (s : Bytes) :
    ∀ b ∈ (digitPair n++s).head?, isSpace b = false := by
  intro b hb
  cases hb
  exact digit_not_space ((digit_pair_spec hn).1 _ List.mem_cons_self)

/-- The fields that `sscanf` finds in the line. -/
theorem sscanf_stamp (day : ℕ) (c : Civil) (hto : c.date.year ≤ 2099) {rest : Bytes}
    (hrest : ∀ b ∈ rest.head?, isDigit b = false) :
    sscanf format (stamp day c++rest) = [((c.date.year-2000 : ℕ) : ℤ),
      ((c.date.month+1 : ℕ) : ℤ), ((c.date.day+1 : ℕ) : ℤ), (c.hour : ℕ), (c.minute : ℕ),
      (c.second : ℕ)] := by
  have hmonth := c.date.month_lt
  have hday := day_lt_31 c.date
  have hhour := c.hour.isLt
  have hminute := c.minute.isLt
  have hsecond := c.second.isLt
  have hspace : isDigit 32 = false := by decide
  have hdash : isDigit 45 = false := by decide
  have hcolon : isDigit 58 = false := by decide
  unfold stamp format
  simp only [List.cons_append, List.append_assoc]
  rw [← List.cons_append, sscanf_skip (by decide) _ (colon_ends hspace),
    sscanf_space (pair_starts (by omega) _), sscanf_digit_pair (by omega) (colon_ends hdash),
    sscanf_char, sscanf_digit_pair (by omega) (colon_ends hdash), sscanf_char,
    sscanf_digit_pair (by omega) (colon_ends hspace), sscanf_space (pair_starts (by omega) _),
    sscanf_digit_pair (by omega) (colon_ends hcolon), sscanf_char,
    sscanf_digit_pair (by omega) (colon_ends hcolon), sscanf_char,
    sscanf_digit_pair (by omega) hrest]
  rfl

theorem pair_no_nul {n : ℕ} (hn : n < 100) : 0 ∉ digitPair n := by
  intro h
  have hdigit := (digit_pair_spec hn).1 0 h
  revert hdigit
  decide

theorem stamp_no_nul (day : ℕ) (c : Civil) (hto : c.date.year ≤ 2099) : 0 ∉ stamp day c := by
  have hmonth := c.date.month_lt
  have hday := day_lt_31 c.date
  have hhour := c.hour.isLt
  have hminute := c.minute.isLt
  have hsecond := c.second.isLt
  unfold stamp
  simp only [List.cons_append, List.mem_cons, List.mem_append, not_or]
  refine ⟨by decide, decimal_no_nul _, by decide, pair_no_nul (by omega), by decide,
    pair_no_nul (by omega), by decide, pair_no_nul (by omega), by decide, pair_no_nul (by omega),
    by decide, pair_no_nul (by omega), by decide, pair_no_nul (by omega)⟩

theorem stamp_length {day : ℕ} (hday : day < 10^5) (c : Civil) : (stamp day c).length ≤ 24 := by
  have hdecimal : (decimal day).length ≤ 5 := decimal_length (by decide) hday
  unfold stamp digitPair
  simp only [List.length_append, List.length_cons, List.length_nil]
  omega

/-- What the program has in its buffer of the line: all the fields, and as much
of the rest as fits. -/
theorem buffer_of_stamp {day : ℕ} (hday : day < 10^5) (c : Civil) (hto : c.date.year ≤ 2099)
    {rest : Bytes} (hrest : ∀ b ∈ rest.head?, isDigit b = false) :
    ∃ rest', cstr ((stamp day c++rest).take (bufferSize-1)) = stamp day c++rest' ∧
      ∀ b ∈ rest'.head?, isDigit b = false := by
  have hlen := stamp_length hday c
  have hnul := stamp_no_nul day c hto
  refine ⟨cstr (rest.take (255-(stamp day c).length)), ?_, ?_⟩
  · rw [bufferSize, List.take_append, List.take_of_length_le (by omega)]
    refine List.takeWhile_append_of_pos fun b hb => decide_eq_true ?_
    rintro rfl
    exact hnul hb
  · cases rest with
    | nil => simp [cstr]
    | cons first rest =>
      intro b hb
      obtain ⟨k, hk⟩ : ∃ k, 255-(stamp day c).length = k+1 := ⟨254-(stamp day c).length, by omega⟩
      rw [hk, List.take_succ_cons, cstr, List.takeWhile_cons] at hb
      split at hb
      · cases hb
        exact hrest first rfl
      · cases hb

/-- The fields of the line are those of the civil time. -/
theorem nist_time_of_stamp (zone : TimeZone) {day : ℕ} (hday : day < 10^5) (c : Civil)
    (hfrom : 2000 ≤ c.date.year) (hto : c.date.year ≤ 2099) {rest : Bytes}
    (hrest : ∀ b ∈ rest.head?, isDigit b = false) :
    getNistTime zone (.received (stamp day c++rest)) = .ok (zone.mktime (fields c)) := by
  obtain ⟨rest', hbuffer, hrest'⟩ := buffer_of_stamp hday c hto hrest
  have hyear : toInt ((c.date.year-2000 : ℕ)+100) = c.date.year-1900 := by
    rw [(to_int_eq_iff _).mpr ⟨by omega, by omega⟩]
    omega
  have hmonth : toInt ((c.date.month+1 : ℕ)-1) = c.date.month := by
    have hlt := c.date.month_lt
    rw [(to_int_eq_iff _).mpr ⟨by omega, by omega⟩]
    omega
  have hfields : fields c = ⟨c.date.year-1900, c.date.month,
      (c.date.day+1 : ℕ), c.hour, c.minute, c.second, -1⟩ := rfl
  unfold getNistTime
  dsimp only
  rw [hbuffer, sscanf_stamp day c hto hrest']
  dsimp only
  rw [hyear, hmonth, ← hfields]
  split
  · rfl
  · rename_i hfailed
    rw [not_not.mp hfailed]

/-- The time of the line is returned exactly if `mktime` reads it with no offset
from UTC. Where local clocks show the time of the line once, this is so exactly
if they show UTC at that instant. -/
theorem nist_time_iff (zone : TimeZone) (t : ℕ) (rest : Bytes)
    (hfrom : 2000 ≤ (utc t).date.year) (hto : (utc t).date.year ≤ 2099)
    (hrest : ∀ b ∈ rest.head?, isDigit b = false) :
    (getNistTime zone (.received (daytimeLine t rest)) = .ok (t : ℤ) ↔
      zone.appliedOffset (utc t) = 0) ∧
    (zone.ShownOnce (utc t) →
      (getNistTime zone (.received (daytimeLine t rest)) = .ok (t : ℤ) ↔ zone.offset t = 0)) := by
  have hday : t/86400+40587 < 10^5 := by
    have hlt := utc_day_lt t
    generalize (utc t).date.year = year at hto hlt
    omega
  rw [daytimeLine, nist_time_of_stamp zone hday (utc t) hfrom hto hrest, Except.ok.injEq]
  constructor
  · unfold TimeZone.appliedOffset
    rw [seconds_utc]
    omega
  · rintro ⟨v, ⟨hv, hshown⟩, hunique⟩
    obtain ⟨u, hu, hpos, hsame⟩ := zone.mktime_shown v hv
    have huv : u = v := hunique u ⟨hpos, hsame.trans hshown⟩
    rw [hshown] at hu
    rw [hu, huv, Int.natCast_inj]
    constructor
    · rintro rfl
      have htime := utc_injective hshown
      omega
    · intro hoffset
      have hlocal : localTime zone.offset t = utc t := by
        unfold localTime
        rw [hoffset, add_zero, Int.toNat_natCast]
      exact (hunique t ⟨by omega, hlocal⟩).symm

def secondsOfFields (tm : Tm) : ℤ :=
  86400*((yearLengths (tm.tmYear-70).toNat).sum+
    ((monthLengths (tm.tmYear+1900).toNat).take tm.tmMon.toNat).sum+(tm.tmMday-1))+
      3600*tm.tmHour+60*tm.tmMin+tm.tmSec

theorem seconds_of_fields (c : Civil) : secondsOfFields (fields c) = c.seconds := by
  have hsince := c.date.since
  have hyears : ((c.date.year : ℤ)-1900-70).toNat = c.date.year-1970 := by omega
  have hyear : ((c.date.year : ℤ)-1900+1900).toNat = c.date.year := by omega
  unfold secondsOfFields fields Civil.seconds Date.days
  dsimp only
  rw [hyears, hyear, Int.toNat_natCast]
  push_cast
  ring

def fixedZone (k : ℤ) : TimeZone where
  offset _ := k
  mktime tm := secondsOfFields tm-k
  mktime_shown := by
    intro t ht
    refine ⟨t, ?_, ht, rfl⟩
    rw [localTime, seconds_of_fields, seconds_utc, Int.toNat_of_nonneg ht]
    exact add_sub_cancel_right (t : ℤ) k

theorem fixed_zone_applied (k : ℤ) (c : Civil) : (fixedZone k).appliedOffset c = k := by
  unfold TimeZone.appliedOffset fixedZone
  dsimp only
  rw [seconds_of_fields]
  omega

def lineEnd : Bytes := text " 50 0 0   2.2 UTC(NIST) * *\n"

/-- The line of 1 July 2025, 09:31:56, where local clocks show UTC. -/
theorem july_line_read :
    getNistTime (fixedZone 0) (.received (daytimeLine 1751362316 lineEnd)) = .ok 1751362316 :=
  (nist_time_iff (fixedZone 0) 1751362316 lineEnd (by decide +kernel) (by decide +kernel)
    (by decide +kernel)).1.mpr (fixed_zone_applied 0 _)

/-- Two hours ahead of UTC the same line is read as a time two hours before. -/
theorem july_line_two_hours_off : ¬ ∀ (zone : TimeZone) (t : ℕ) (rest : Bytes),
    2000 ≤ (utc t).date.year → (utc t).date.year ≤ 2099 →
    (∀ b ∈ rest.head?, isDigit b = false) →
    getNistTime zone (.received (daytimeLine t rest)) = .ok (t : ℤ) := by
  intro h
  have hfrom : 2000 ≤ (utc 1751362316).date.year := by decide +kernel
  have hto : (utc 1751362316).date.year ≤ 2099 := by decide +kernel
  have hread := h (fixedZone 7200) 1751362316 lineEnd hfrom hto (by decide +kernel)
  rw [daytimeLine, nist_time_of_stamp (fixedZone 7200) (by decide) _ hfrom hto (by decide +kernel),
    Except.ok.injEq] at hread
  have happlied := fixed_zone_applied 7200 (utc 1751362316)
  rw [TimeZone.appliedOffset, hread, seconds_utc] at happlied
  exact absurd happlied (by decide)

end ProgSistema.ClockMonitor
