import Mathlib.Data.List.TakeWhile
import Mathlib.Tactic

/-!
# Strings, allocation and conversions of the C runtime

Strings are lists of bytes without their terminator. The outcomes of the
allocation calls still to come are a stream, so that any call may fail. A
write past the end of a buffer, a null dereference, a wait that blocks and a
loop that exceeds its fuel are failures to return.
-/

set_option autoImplicit false

namespace ProgSistema

abbrev Bytes := List UInt8

inductive Fault where
  | nullPointer
  | outOfBounds
  | outOfFuel
  | blocked
  deriving DecidableEq, Repr

@[simp] theorem ok_bind {ε : Type*} {α β : Type} (a : α) (f : α → Except ε β) :
    ((Except.ok a : Except ε α) >>= f) = f a := rfl

theorem bind_of_ok {ε : Type*} {α β : Type} {x : Except ε α} {a : α} {f : α → Except ε β}
    {r : Except ε β} (hx : x = .ok a) (hf : f a = r) : (x >>= f) = r := by
  rw [hx, ok_bind, hf]

theorem bind_ok_cases {ε : Type*} {α β : Type} {x : Except ε α} {f : α → Except ε β} {b : β}
    (h : (x >>= f) = .ok b) : ∃ a, x = .ok a ∧ f a = .ok b := by
  cases x with
  | error e => cases h
  | ok a => exact ⟨a, rfl, h⟩

namespace CRuntime

def text (s : String) : Bytes := s.toUTF8.data.toList

def cstr (buffer : Bytes) : Bytes := buffer.takeWhile (· ≠ 0)

def strstr (haystack needle : Bytes) : Bool := decide (needle <:+: haystack)

def strncmpEq (a b : Bytes) (n : ℕ) : Bool := decide (a.take n = b.take n)

def isSpace (b : UInt8) : Bool := b = 32 || (9 ≤ b && b ≤ 13)

def isDigit (b : UInt8) : Bool := 48 ≤ b && b ≤ 57

def digitsValue (digits : Bytes) : ℕ := digits.foldl (fun n d => 10*n+(d.toNat-48)) 0

def scanInteger (s : Bytes) : Option (ℤ × Bytes) :=
  let s := s.dropWhile isSpace
  let (negative, s) := match s with
    | 45::s => (true, s)
    | 43::s => (false, s)
    | s => (false, s)
  let digits := s.takeWhile isDigit
  if digits = [] then none
  else
    let value : ℤ := digitsValue digits
    some (if negative then -value else value, s.dropWhile isDigit)

/-- The value, the part of the string after it, and whether the value was out
of the range of a `long long` and replaced by its nearest end. -/
def strtoll (s : Bytes) : ℤ × Bytes × Bool :=
  match scanInteger s with
  | none => (0, s, false)
  | some (value, endptr) =>
    if value > 2^63-1 then (2^63-1, endptr, true)
    else if value < -2^63 then (-2^63, endptr, true)
    else (value, endptr, false)

def atoll (s : Bytes) : ℤ := (strtoll s).1

def toInt (x : ℤ) : ℤ := Int.bmod x (2^32)

def toLong (x : ℤ) : ℤ := Int.bmod x (2^64)

def toSizeT (x : ℤ) : ℕ := (x % 2^64).toNat

theorem to_int_of_lt (n : ℕ) (h : n < 2^31) : toInt n = n := by
  unfold toInt
  rw [Int.bmod_def]
  omega

theorem to_int_eq_iff (x : ℤ) : toInt x = x ↔ -2^31 ≤ x ∧ x < 2^31 := by
  unfold toInt
  rw [Int.bmod_def]
  omega

theorem to_long_eq_iff (x : ℤ) : toLong x = x ↔ -2^63 ≤ x ∧ x < 2^63 := by
  unfold toLong
  rw [Int.bmod_def]
  omega

/-- A call that falls short of a count, or fails, is seen to do so. -/
theorem to_int_short (r : ℤ) (n : ℕ) (hr : -1 ≤ r) (hlt : r < n) (hn : n < 2^31) :
    toInt r ≠ toInt n := by
  rw [to_int_of_lt n hn]
  unfold toInt
  rw [Int.bmod_def]
  omega

def littleEndian (b : Bytes) : ℕ := b.foldr (fun x n => x.toNat+256*n) 0

theorem little_endian_append (b c : Bytes) :
    littleEndian (b++c) = littleEndian b+256^b.length*littleEndian c := by
  induction b with
  | nil => simp [littleEndian]
  | cons x b ih =>
    have hcons : ∀ b, littleEndian (x::b) = x.toNat+256*littleEndian b := fun _ => rfl
    rw [List.cons_append, hcons, hcons, ih, List.length_cons, pow_succ]
    ring

theorem little_endian_lt (b : Bytes) : littleEndian b < 256^b.length := by
  induction b with
  | nil => exact Nat.one_pos
  | cons x b ih =>
    have hx := x.toNat_lt
    show x.toNat+256*littleEndian b < 256^(b.length+1)
    rw [pow_succ]
    omega

def decimal (n : ℕ) : Bytes := (Nat.toDigits 10 n).map fun c => UInt8.ofNat c.toNat

theorem decimal_length {n k : ℕ} (hk : 0 < k) (h : n < 10^k) : (decimal n).length ≤ k := by
  rw [decimal, List.length_map]
  exact (Nat.length_toDigits_le_iff (by decide) hk).mpr h

def printInt (x : ℤ) : Bytes := if x < 0 then 45::decimal x.natAbs else decimal x.natAbs

instance hours_of_day : NeZero 24 := ⟨by decide⟩

instance minutes_of_hour : NeZero 60 := ⟨by decide⟩

instance seconds_of_minute : NeZero 61 := ⟨by decide⟩

def clockTime (hour : Fin 24) (minute : Fin 60) (second : Fin 61) : Bytes :=
  let twoDigits (n : ℕ) : Bytes := [UInt8.ofNat (48+n/10), UInt8.ofNat (48+n%10)]
  twoDigits hour++58::twoDigits minute++58::twoDigits second

def snprintf (size : ℕ) (s : Bytes) : Bytes := s.take (size-1)

theorem snprintf_fits (size : ℕ) (s : Bytes) (h : s.length < size) : snprintf size s = s :=
  List.take_of_length_le (by omega)

theorem cstr_of_no_nul (b : Bytes) (h : 0 ∉ b) : cstr b = b := by
  rw [cstr, List.takeWhile_eq_self_iff]
  intro x hx
  have hne : x ≠ 0 := fun h0 => h (h0 ▸ hx)
  simpa using hne

theorem strncmp_prefix (a b : Bytes) : strncmpEq a b b.length = true ↔ b <+: a := by
  rw [strncmpEq, decide_eq_true_eq, List.take_length, List.prefix_iff_eq_take]
  exact eq_comm

/-- Outcomes of the allocation calls still to come. -/
abbrev Heap := ℕ → Bool

def allocate (heap : Heap) : Bool × Heap := (heap 0, fun n => heap (n+1))

def alwaysSucceeds : Heap := fun _ => true

@[simp] theorem allocate_always : allocate alwaysSucceeds = (true, alwaysSucceeds) := rfl

def ptrdiffMax : ℕ := 2^63-1

/-- Which sizes the allocation calls grant; none above `PTRDIFF_MAX`. -/
structure Allocator where
  granted : ℕ → Bool
  limited : ∀ bytes, granted bytes = true → bytes ≤ ptrdiffMax

structure Buffer where
  size : ℕ
  content : Bytes
  deriving DecidableEq, Repr

def strcat (buffer : Buffer) (s : Bytes) : Except Fault Buffer :=
  if buffer.content.length+s.length < buffer.size
    then .ok { buffer with content := buffer.content++s } else .error .outOfBounds

def strcpy (buffer : Buffer) (s : Bytes) : Except Fault Buffer :=
  strcat { buffer with content := [] } s

theorem strcat_fits (size : ℕ) (b s : Bytes) (h : b.length+s.length < size) :
    strcat ⟨size, b⟩ s = .ok ⟨size, b++s⟩ := by
  rw [strcat, if_pos h]

end CRuntime
end ProgSistema
