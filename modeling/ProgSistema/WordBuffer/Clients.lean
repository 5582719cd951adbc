import ProgSistema.WordBuffer.Model

/-!
# Clients that join and leave

In the second solution the writers are separate programs. Each is started
with one of three identifiers, registers, writes while it is running and
deregisters. Registration is a counter: the turn goes round the identifiers,
whoever is there. The buffer and the semaphores are created by a server.
-/

set_option autoImplicit false

namespace ProgSistema.WordBuffer.Clients
open CRuntime

/-- Where a client is. It is registered from its increment of the counter to
its decrement. -/
inductive Pc where
  | off
  | registerWait
  | registerPost
  | loopTest
  | waitTurn
  | waitMutex
  | critical
  | postMutex (leave : Bool)
  | postTurn (leave : Bool)
  | unregisterWait
  | unregister
  | ended
  deriving DecidableEq, Repr

/-- A client and its flag `running`. The number of words that it has written
only records. -/
structure Client where
  pc : Pc
  running : Bool
  wrote : ℕ
  deriving DecidableEq, Repr

inductive Event where
  | run (rand : ℕ)
  | sigint
  deriving DecidableEq, Repr

structure Shared where
  data : SharedData
  activeClients : ℤ
  shutdownRequested : Bool
  mutexSem : ℕ
  turnSem : ℕ

def writeWord (word : Bytes) (d : SharedData) : SharedData :=
  let d := if d.currentPos > 0
    then { d with buffer := ArrayPrefix.write d.buffer d.currentPos [32],
                  currentPos := d.currentPos+1 }
    else d
  { d with buffer := ArrayPrefix.write d.buffer d.currentPos word,
           currentPos := d.currentPos+word.length,
           wordCount := toInt (d.wordCount+1) }

/-- The loop between `sem_wait(mutex_sem)` and `sem_post(mutex_sem)`: whether
the loop ends, whether a word has been written, and the shared memory. -/
def criticalSection (words : List Bytes) (id rand : ℕ) (k : Shared) : Bool × Bool × Shared :=
  if k.shutdownRequested then (true, false, k)
  else if k.data.turn ≠ id then (false, false, k)
  else match getRandomWord words rand with
    | none => (false, false, { k with data := k.data.passTurn })
    | some word =>
      if k.data.currentPos+word.length+1 ≥ sharedMemSize
        then (true, false, { k with shutdownRequested := true })
        else (false, true, { k with data := (writeWord word k.data).passTurn })

/-- The program of one client with its words and its identifier. A client that
waits for a semaphore when it is told to stop goes on waiting. -/
def client (words : List Bytes) (id rand : ℕ) (c : Client) (k : Shared) :
    Option (Client × Shared) :=
  match c.pc with
  | .off =>
    some ({ c with pc := if id < numProcesses ∧ words ≠ [] then .registerWait else .ended }, k)
  | .registerWait =>
    if k.mutexSem = 0 then none
    else some ({ c with pc := .registerPost },
      { k with mutexSem := k.mutexSem-1, activeClients := k.activeClients+1 })
  | .registerPost => some ({ c with pc := .loopTest }, { k with mutexSem := k.mutexSem+1 })
  | .loopTest =>
    some ({ c with pc := if c.running && !k.shutdownRequested then .waitTurn
      else .unregisterWait }, k)
  | .waitTurn =>
    if k.turnSem = 0 then none
    else some ({ c with pc := .waitMutex }, { k with turnSem := k.turnSem-1 })
  | .waitMutex =>
    if k.mutexSem = 0 then none
    else some ({ c with pc := .critical }, { k with mutexSem := k.mutexSem-1 })
  | .critical =>
    let (leave, writes, k) := criticalSection words id rand k
    some ({ c with pc := .postMutex leave, wrote := c.wrote+writes.toNat }, k)
  | .postMutex leave =>
    some ({ c with pc := .postTurn leave }, { k with mutexSem := k.mutexSem+1 })
  | .postTurn leave =>
    some ({ c with pc := if leave then .unregisterWait else .loopTest },
      { k with turnSem := k.turnSem+1 })
  | .unregisterWait =>
    if k.mutexSem = 0 then none
    else some ({ c with pc := .unregister }, { k with mutexSem := k.mutexSem-1 })
  | .unregister =>
    some ({ c with pc := .ended },
      { k with mutexSem := k.mutexSem+1, activeClients := k.activeClients-1 })
  | .ended => none

def act {ι : Type} (words : List Bytes) (clientId : ι → ℕ) (i : ι) (e : Event) (c : Client)
    (k : Shared) : Option (Client × Shared) :=
  match e with
  | .run rand => client words (clientId i) rand c k
  | .sigint => if c.pc = .off ∨ c.pc = .ended then none else some ({ c with running := false }, k)

abbrev Processes (ι : Type) := Sharing.System ι Client Shared

/-- What the server leaves to the clients. -/
structure ServerReady (k : Shared) : Prop where
  mutexSem : k.mutexSem = 1
  turnSem : k.turnSem = 1
  turn : k.data.turn < numProcesses

def noClients {ι : Type} (k : Shared) : Processes ι where
  procs _ := { pc := .off, running := true, wrote := 0 }
  shared := k

end ProgSistema.WordBuffer.Clients
