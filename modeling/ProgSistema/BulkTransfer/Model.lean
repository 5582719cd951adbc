import ProgSistema.Lib.ArrayPrefix
import ProgSistema.Lib.CRuntime
import ProgSistema.Lib.Runs

/-!
# The transfer of a million numbers over a socket

A child process sends an array of numbers over a connection, and its parent
receives it into an array of the same size. Each call of `send` and `recv` may
move fewer bytes than asked for; the totals are of type `int`, the sizes of
type `size_t`.
-/

set_option autoImplicit false

namespace ProgSistema.BulkTransfer
open ArrayPrefix CRuntime

def numCount : ℕ := 1000000

def size : ℕ := numCount*4

def number (a : ℕ → UInt8) (i : ℕ) : ℤ := toInt (littleEndian (slice a (4*i) 4))

def verifyNumbers (original received : ℕ → UInt8) (count : ℕ) : Bool :=
  (List.range count).all fun i => number original i = number received i

inductive Pc where
  | test
  | calling
  | finished
  | broken
  deriving DecidableEq, Repr

/-- `total` is the number of bytes moved, and the places and lengths that have
been passed to the calls only record. -/
structure Loop where
  pc : Pc
  total : ℤ
  calls : List (ℤ × ℕ)
  deriving DecidableEq

namespace Loop

def start : Loop := ⟨.test, 0, []⟩

def len (l : Loop) : ℕ := toSizeT (size-l.total)

def test (l : Loop) : Loop :=
  if toSizeT l.total < size then { l with pc := .calling, calls := l.calls++[(l.total, l.len)] }
  else { l with pc := .finished }

def advance (result : ℤ) (l : Loop) : Loop :=
  let bytes := toInt result
  if bytes ≤ 0 then { l with pc := .broken }
  else { l with pc := .test, total := toInt (l.total+bytes) }

end Loop

structure Transfer where
  numbers : ℕ → UInt8
  received : ℕ → UInt8
  sender : Loop
  receiver : Loop
  channel : Bytes
  closed : Bool

/-- A call moves at most the bytes asked for, or fails. -/
def Moves (l : Loop) (result : ℤ) : Prop := -1 ≤ result ∧ result ≤ l.len

instance (l : Loop) (result : ℤ) : Decidable (Moves l result) :=
  inferInstanceAs (Decidable (_ ∧ _))

/-- The result of `recv`: bytes that have arrived, 0 at the end of the stream,
or a failure. -/
def Delivers (s : Transfer) (result : ℤ) : Prop :=
  result ≤ s.channel.length ∧ (result = 0 → s.channel = [] ∧ s.closed = true)

instance (s : Transfer) (result : ℤ) : Decidable (Delivers s result) :=
  inferInstanceAs (Decidable (_ ∧ _))

def send (result : ℤ) (s : Transfer) : Transfer :=
  { s with
    sender := s.sender.advance result,
    channel := s.channel++slice s.numbers s.sender.total.toNat result.toNat }

def recv (result : ℤ) (s : Transfer) : Transfer :=
  { s with
    receiver := s.receiver.advance result,
    received := write s.received s.receiver.total.toNat (s.channel.take result.toNat),
    channel := s.channel.drop result.toNat }

def stop (s : Transfer) : Transfer :=
  { s with
    sender := if s.sender.pc = .finished then s.sender else { s.sender with pc := .broken },
    closed := true }

inductive Event where
  | testSend
  | send (result : ℤ)
  | stop
  | testRecv
  | recv (result : ℤ)
  deriving DecidableEq, Repr

def step (e : Event) (s : Transfer) : Option Transfer :=
  match e with
  | .testSend => if s.sender.pc = .test then some { s with sender := s.sender.test } else none
  | .send result =>
    if s.sender.pc = .calling ∧ Moves s.sender result then some (send result s) else none
  | .stop => some (stop s)
  | .testRecv =>
    if s.receiver.pc = .test then some { s with receiver := s.receiver.test } else none
  | .recv result =>
    if s.receiver.pc = .calling ∧ Moves s.receiver result ∧ Delivers s result then
      some (recv result s)
    else none

def started (numbers received : ℕ → UInt8) : Transfer where
  numbers := numbers
  received := received
  sender := Loop.start
  receiver := Loop.start
  channel := []
  closed := false

end ProgSistema.BulkTransfer
