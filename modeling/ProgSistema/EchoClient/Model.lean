import ProgSistema.Lib.CRuntime
import ProgSistema.Lib.Runs

/-!
# A client that reports a variable

Two threads assign random numbers to `A` and set a flag. A third one waits for
the flag, clears it, sends the value to a server and reads an answer. `A` and
its flag are used under one mutex only, so that each critical section is one
step.
-/

set_option autoImplicit false

namespace ProgSistema.EchoClient
open CRuntime

def bufferSize : ℕ := 1024

def randomValue (rand : ℕ) : ℕ := rand % 10000

inductive Mutator where
  | thread1
  | thread2
  deriving DecidableEq, Repr

inductive MutatorPc where
  | loopTest
  | lock
  | asleep
  | ended
  deriving DecidableEq, Repr

inductive ConnectionPc where
  | connecting
  | loopTest
  | lock
  | waiting
  | sending (value : ℕ)
  | receiving
  | closed
  | failed
  deriving DecidableEq, Repr

/-- The variables of the client and the positions of its threads. The values
assigned to `A`, the values sent and the messages read only record. -/
structure Client where
  a : ℕ
  aChanged : Bool
  continuaEsecuzione : Bool
  mutators : Mutator → MutatorPc
  connection : ConnectionPc
  assigned : List ℕ
  sent : List ℕ
  reads : List Bytes

inductive Event where
  | change (m : Mutator) (rand : ℕ)
  | connect (success : Bool)
  | connection
  | recv (bytes : Bytes)
  | signal
  deriving DecidableEq, Repr

def changeA (m : Mutator) (rand : ℕ) (c : Client) : Option Client :=
  let goes (pc : MutatorPc) (c : Client) : Client :=
    { c with mutators := Function.update c.mutators m pc }
  match c.mutators m with
  | .loopTest => some (goes (if c.continuaEsecuzione then .lock else .ended) c)
  | .lock => some (goes .asleep { c with
      a := randomValue rand, aChanged := true, assigned := c.assigned++[randomValue rand] })
  | .asleep => some (goes .loopTest c)
  | .ended => none

def prepareMessage (c : Client) : Client :=
  if !c.aChanged && c.continuaEsecuzione then { c with connection := .waiting }
  else if !c.continuaEsecuzione then { c with connection := .closed }
  else { c with connection := .sending c.a, aChanged := false }

/-- The steps of the connection thread that need no answer. It may wake up
without being signalled, and tests again. -/
def connectionThread (c : Client) : Option Client :=
  match c.connection with
  | .loopTest =>
    some { c with connection := if c.continuaEsecuzione then .lock else .closed }
  | .lock | .waiting => some (prepareMessage c)
  | .sending value => some { c with connection := .receiving, sent := c.sent++[value] }
  | .connecting | .receiving | .closed | .failed => none

/-- One step of the client. An empty receive is the end of the connection or an
error; each send succeeds. -/
def step (e : Event) (c : Client) : Option Client :=
  match e with
  | .change m rand => changeA m rand c
  | .connect success =>
    if c.connection ≠ .connecting then none
    else if success then some { c with connection := .loopTest }
    else some { c with connection := .failed, continuaEsecuzione := false }
  | .connection => connectionThread c
  | .recv bytes =>
    if c.connection ≠ .receiving ∨ bufferSize-1 < bytes.length then none
    else if bytes = [] then some { c with connection := .closed }
    else some { c with connection := .loopTest, reads := c.reads++[bytes] }
  | .signal => some { c with continuaEsecuzione := false }

def started : Client where
  a := 0
  aChanged := false
  continuaEsecuzione := true
  mutators _ := .loopTest
  connection := .connecting
  assigned := []
  sent := []
  reads := []

end ProgSistema.EchoClient
