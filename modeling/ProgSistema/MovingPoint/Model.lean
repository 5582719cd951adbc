import ProgSistema.Lib.CRuntime
import ProgSistema.Lib.Runs

/-!
# The moving point

`T` moves a point by one random step at a time. Its position exists only as a
text, which `T` reads again before each step, at fixed places, and sends to the
receivers `R`, which read it at the same places.
-/

set_option autoImplicit false

namespace ProgSistema.MovingPoint
open CRuntime

def positionSize : ℕ := 9

def positionText (x y : ℤ) : Bytes :=
  text "\x7b"++printInt x++text ","++printInt y++text "\x7d"

/-- `strtol(&posizione[1], NULL, 10)` and `strtol(&posizione[4], NULL, 10)`,
stored in an `int` each. The bytes are those from the start of the array on. -/
def readPosition (memory : Bytes) : ℤ × ℤ :=
  (toInt (atoll (memory.drop 1)), toInt (atoll (memory.drop 4)))

/-- `recvfrom` leaves what the datagram does not reach. -/
def receive (memory datagram : Bytes) : Bytes :=
  datagram.take positionSize++memory.drop (datagram.take positionSize).length

structure Move where
  old : ℤ × ℤ
  read : ℤ × ℤ
  new : ℤ × ℤ
  sent : Bytes
  deriving DecidableEq, Repr

/-- Where `T` is in `randomPosition`. A text that is too long for the array
ends what can be said of it. -/
inductive Pc where
  | read
  | drawX (x y : ℤ)
  | drawY (x y randx x1 : ℤ)
  | overflow
  deriving DecidableEq, Repr

/-- The coordinates computed last and the steps so far only record. -/
structure State where
  pc : Pc
  posizione : Bytes
  computed : ℤ × ℤ
  moves : List Move
  deriving DecidableEq, Repr

inductive Action where
  | run
  | draw (rand : ℕ)
  deriving DecidableEq, Repr

def randomStep (rand : ℕ) : ℤ := (rand % 3 : ℕ)-1

def writePosition (read : ℤ × ℤ) (x y : ℤ) (s : State) : State :=
  let sent := positionText x y
  { pc := if sent.length < positionSize then .read else .overflow
    posizione := sent++0::s.posizione.drop (sent.length+1)
    computed := (x, y)
    moves := s.moves++[⟨s.computed, read, (x, y), sent⟩] }

/-- `randomPosition`. The second loop tests `x1` for the lower bound. -/
def step : Action → State → Option State
  | .run, s =>
    match s.pc with
    | .read =>
      let (x, y) := readPosition s.posizione
      some { s with pc := .drawX x y }
    | _ => none
  | .draw rand, s =>
    match s.pc with
    | .drawX x y =>
      let randx := randomStep rand
      let x1 := toInt (randx+x)
      some (if x1 > 80 ∨ x1 < 0 then s else { s with pc := .drawY x y randx x1 })
    | .drawY x y randx x1 =>
      let randy := randomStep rand
      let y1 := toInt (randy+y)
      some (if y1 > 80 ∨ x1 < 0 then s
        else writePosition (x, y) (toInt (x+randx)) (toInt (y+randy)) s)
    | _ => none

def initialPosition : Bytes := text "\x7b40,40\x7d"++[0, 0]

def started : State where
  pc := .read
  posizione := initialPosition
  computed := (40, 40)
  moves := []

end ProgSistema.MovingPoint
