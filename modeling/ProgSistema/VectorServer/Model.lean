import ProgSistema.Lib.ArrayPrefix
import ProgSistema.Lib.CRuntime
import ProgSistema.Lib.Sharing

/-!
# The server with a shared vector

Three threads, one for each port, put the integers that clients send into one
vector, and the main thread prints the vector from time to time. Both hold the
mutex of the vector meanwhile. Inside, each statement is a step.
-/

set_option autoImplicit false

namespace ProgSistema.VectorServer
open CRuntime

def maxElements : ℕ := 1000

def bufferSize : ℕ := 256

def numThreads : ℕ := 3

inductive Thread where
  | port8001
  | port8002
  | port8003
  | main
  deriving DecidableEq, Repr

/-- The elements behind the array are no part of it. -/
structure SharedVector where
  data : ℕ → ℤ
  count : ℤ
  maxSize : ℤ
  mutex : Option Thread

def initSharedVector : SharedVector where
  data _ := 0
  count := 0
  maxSize := maxElements
  mutex := none

structure Entry where
  value : ℤ
  slot : ℤ
  index : ℤ
  deriving DecidableEq, Repr

/-- Where a thread is: before the test of `server_running`, in the body of the
loop, or in a call. A print knows whether it is the one after the loop. A store
outside the array ends what can be said of its thread. -/
inductive Pc where
  | waiting
  | serving
  | joining
  | lock (value : ℤ)
  | test (value : ℤ)
  | store (value : ℤ)
  | increment (value slot : ℤ)
  | getIndex (value slot : ℤ)
  | unlock (value result : ℤ)
  | reply (value result : ℤ)
  | printLock (last : Bool)
  | printAll (last : Bool)
  | printUnlock (last : Bool)
  | ended
  | overrun
  deriving DecidableEq, Repr

/-- What `recv` has put into the buffer of a client accepted, a step of the
code, a wait that ends (`select` and `accept` without a client, `sleep`), an
error of `select`, or the signal that ends the server. -/
inductive Event where
  | client (received : Bytes)
  | run
  | tick
  | selectError
  | signal
  deriving DecidableEq, Repr

/-- The entries, the texts sent and what each print has shown, with the values
accepted by then, only record. -/
structure Shared where
  vector : SharedVector
  serverRunning : Bool
  exited : ℕ
  accepted : List Entry
  replies : List (Thread × Bytes)
  shown : List (List ℤ × List ℤ)

def atoi (buffer : Bytes) : ℤ := toInt (atoll buffer)

def response (value index : ℤ) : Bytes :=
  if index ≥ 0 then
    text "OK: Valore "++printInt value++text " inserito in posizione "++printInt index++text "\n"
  else
    text "ERRORE: Impossibile inserire il valore "++printInt value++text " (vettore pieno)\n"

def addToVector (t : Thread) (pc : Pc) (k : Shared) : Option (Pc × Shared) :=
  match pc with
  | .lock value =>
    if k.vector.mutex = none then
      some (.test value, { k with vector := { k.vector with mutex := some t } })
    else none
  | .test value =>
    some (if k.vector.count < k.vector.maxSize then .store value else .unlock value (-1), k)
  | .store value =>
    let slot := toInt (k.vector.count+1)
    if 0 ≤ slot ∧ slot < maxElements then
      some (.increment value slot,
        { k with vector := { k.vector with
            data := Function.update k.vector.data slot.toNat value } })
    else some (.overrun, k)
  | .increment value slot =>
    some (.getIndex value slot,
      { k with vector := { k.vector with count := toInt (k.vector.count+1) } })
  | .getIndex value slot =>
    some (.unlock value (k.vector.count-1),
      { k with accepted := k.accepted++[⟨value, slot, k.vector.count-1⟩] })
  | .unlock value result =>
    some (.reply value result, { k with vector := { k.vector with mutex := none } })
  | _ => none

def printVector (t : Thread) (pc : Pc) (k : Shared) : Option (Pc × Shared) :=
  match pc with
  | .printLock last =>
    if k.vector.mutex = none then
      some (.printAll last, { k with vector := { k.vector with mutex := some t } })
    else none
  | .printAll last =>
    let n := min k.vector.count k.vector.maxSize
    some (.printUnlock last,
      { k with shown := k.shown++
          [(ArrayPrefix.contents k.vector.data n.toNat, k.accepted.map Entry.value)] })
  | .printUnlock last =>
    some (if last then .ended else .waiting,
      { k with vector := { k.vector with mutex := none } })
  | _ => none

/-- The loop of `thread_function`. The flag is tested before `select` only, so
that a client is still served after the signal. -/
def threadFunction (event : Event) (pc : Pc) (k : Shared) : Option (Pc × Shared) :=
  match event, pc with
  | .run, .waiting =>
    some (if k.serverRunning then (.serving, k) else (.ended, { k with exited := k.exited+1 }))
  | .client received, .serving =>
    -- without a byte there is nothing to add, and no reply
    some (if received = [] then .waiting
      else .lock (atoi (cstr (received.take (bufferSize-1)))), k)
  | .tick, .serving => some (.waiting, k)
  | .selectError, .serving => some (.ended, { k with exited := k.exited+1 })
  | _, _ => none

def mainLoop (event : Event) (pc : Pc) (k : Shared) : Option (Pc × Shared) :=
  match event, pc with
  | .run, .waiting => some (if k.serverRunning then .serving else .joining, k)
  | .tick, .serving => some (if k.serverRunning then .printLock false else .waiting, k)
  | .run, .joining => if k.exited = numThreads then some (.printLock true, k) else none
  | _, _ => none

def act (t : Thread) (event : Event) (pc : Pc) (k : Shared) : Option (Pc × Shared) :=
  match event, pc with
  | .signal, pc => some (pc, { k with serverRunning := false })
  | event, .waiting | event, .serving | event, .joining =>
    if t = .main then mainLoop event pc k else threadFunction event pc k
  | .run, .reply value result =>
    some (.waiting, { k with replies := k.replies++[(t, response value result)] })
  | .run, .printLock _ | .run, .printAll _ | .run, .printUnlock _ => printVector t pc k
  | .run, pc => addToVector t pc k
  | _, _ => none

abbrev Threads := Sharing.System Thread Pc Shared

def started : Threads where
  procs _ := .waiting
  shared :=
    { vector := initSharedVector, serverRunning := true, exited := 0, accepted := [],
      replies := [], shown := [] }

abbrev Reachable (s : Threads) : Prop := Runs.Reachable (Sharing.step act) started s

end ProgSistema.VectorServer
