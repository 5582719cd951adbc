import ProgSistema.Lib.CRuntime
import ProgSistema.Lib.Descriptors
import ProgSistema.Lib.Multiplexing

/-!
# The chat daemon

One thread accepts the connections to ten ports, keeps their descriptors in an
array of slots and in the set that it gives to `select`, and sends each message
of a client to all the others.
-/

set_option autoImplicit false

namespace ProgSistema.ChatDaemon
open CRuntime Descriptors Multiplexing Slots

def numPorts : ℕ := 10

def basePort : ℕ := 8080

abbrev maxClients : ℕ := 20

def bufferSize : ℕ := 1024

def fdSetSize : ℕ := 1024

/-- Where `main` is before it starts the thread, and where `io_thread` is. The
process can be killed by a signal. -/
inductive Pc where
  | creating
  | starting
  | exited
  | top
  | accepting (s : ℕ)
  | serving (i : ℕ)
  | ended
  | killed
  deriving DecidableEq, Repr

/-- How a `send` ends. `SIGPIPE` is left at its default and the flags are zero,
so that a `send` to a client that has reset its connection kills the process. -/
inductive Esito where
  | sent
  | failed
  | sigpipe
  deriving DecidableEq, Repr

inductive Call where
  | select (ready : Finset ℕ)
  | accept (fd : ℕ)
  | recv (slot : Fin maxClients) (fd : ℕ) (buffer : Bytes)
  | send (fd : ℕ) (bytes : Bytes) (esito : Esito)
  | close (fd : ℕ)
  deriving DecidableEq

/-- The data of the thread, what the kernel knows of its descriptors, and the
calls that the thread has made, a `recv` with the slot it is for. -/
structure Daemon where
  pc : Pc
  serverFds : List ℕ
  clientFds : Fin maxClients → Option ℕ
  master : Monitored
  readFds : Finset ℕ
  descriptors : Table
  calls : List Call

def Daemon.goto (pc : Pc) (d : Daemon) : Daemon :=
  { d with pc := if d.pc = .killed then .killed else pc }

/-- What the kernel may hand out: a descriptor that is not open. -/
def Grants (d : Daemon) (fd : ℕ) : Prop := ¬ d.descriptors.IsOpen fd ∧ fd < fdSetSize

instance (d : Daemon) (fd : ℕ) : Decidable (Grants d fd) := inferInstanceAs (Decidable (_ ∧ _))

def createSocket (fd : ℕ) (d : Daemon) (hfree : ¬ d.descriptors.IsOpen fd) : Daemon :=
  let serverFds := d.serverFds++[fd]
  { d with
    pc := if serverFds.length < numPorts then .creating else .starting,
    serverFds := serverFds,
    descriptors := d.descriptors.listen fd hfree }

def inizializza (d : Daemon) : Daemon :=
  { d with pc := .top, master := Monitored.zero.watchAll d.serverFds }

def welcome (s : ℕ) (slot : Fin maxClients) : Bytes :=
  snprintf 100 (text "BENVENUTO RICCHIONE.\nPORTA "++decimal (basePort+s)++text " (slot "++
    decimal slot++text ")\n")

def send (fd : ℕ) (bytes : Bytes) (esito : Esito) (d : Daemon) : Daemon :=
  { d with
    pc := if esito = .sigpipe then .killed else d.pc,
    calls := d.calls++[.send fd bytes esito] }

def accetta (s newClient : ℕ) (esito : Esito) (d : Daemon)
    (hfree : ¬ d.descriptors.IsOpen newClient) : Daemon :=
  let descriptors := d.descriptors.accept newClient hfree
  let calls := d.calls++[.accept newClient]
  match firstFree d.clientFds with
  | none =>
    { d with descriptors := descriptors.close newClient, calls := calls++[.close newClient] }
  | some slot =>
    send newClient (welcome s slot) esito { d with
      descriptors := descriptors,
      clientFds := Function.update d.clientFds slot (some newClient),
      master := d.master.watch newClient,
      calls := calls }

def broadcastMsg (i : Fin maxClients) (buffer : Bytes) : Bytes :=
  snprintf (bufferSize+50) (text "[Client"++decimal i++text "]: "++cstr buffer)

def inviaA (i : Fin maxClients) (msg : Bytes) (esito : Fin maxClients → Esito)
    (acc : Daemon × ℕ) (j : Fin maxClients) : Daemon × ℕ :=
  if acc.1.pc = .killed then acc
  else
    match acc.1.clientFds j with
    | none => acc
    | some fd =>
      if j ≠ i then
        (send fd msg (esito j) acc.1, if esito j = .sent then acc.2+1 else acc.2)
      else acc

def inviaATutti (i : Fin maxClients) (msg : Bytes) (esito : Fin maxClients → Esito)
    (d : Daemon) : Daemon × ℕ :=
  (List.finRange maxClients).foldl (inviaA i msg esito) (d, 0)

def confirm (sentCount : ℕ) : Bytes :=
  snprintf 100 (text "✅ Messaggio inviato a "++decimal sentCount++text " client\n")

def disconnetti (i : Fin maxClients) (fd : ℕ) (d : Daemon) : Daemon :=
  { d with
    descriptors := d.descriptors.close fd,
    master := d.master.forget fd,
    clientFds := Function.update d.clientFds i none,
    calls := d.calls++[.close fd] }

def inoltra (i : Fin maxClients) (fd : ℕ) (buffer : Bytes) (esito : Fin maxClients → Esito)
    (d : Daemon) : Daemon :=
  let (d, sentCount) := inviaATutti i (broadcastMsg i buffer) esito d
  if d.pc = .killed then d else send fd (confirm sentCount) (esito i) d

/-- The body of the loop over the slots, with the bytes of `recv`, none if it
fails or the client has left, and how the `send` to the client in each slot
ends. -/
def gestisci (i : Fin maxClients) (fd : ℕ) (buffer : Bytes) (esito : Fin maxClients → Esito)
    (d : Daemon) : Daemon :=
  let d := { d with calls := d.calls++[.recv i fd buffer] }
  if buffer = [] then disconnetti i fd d else inoltra i fd buffer esito d

def daLeggere (i : Fin maxClients) (d : Daemon) : Option ℕ :=
  (d.clientFds i).filter (· ∈ d.readFds)

def ioThread (d : Daemon) : Option Daemon :=
  match d.pc with
  | .accepting s =>
    match d.serverFds[s]? with
    | none => some { d with pc := .serving 0 }
    | some fd => if fd ∈ d.readFds then none else some { d with pc := .accepting (s+1) }
  | .serving i =>
    if hi : i < maxClients then
      if daLeggere ⟨i, hi⟩ d = none then some { d with pc := .serving (i+1) } else none
    else some { d with pc := .top }
  | _ => none

/-- What happens: a step of the thread of its own, and the answers of
`create_socket`, `pthread_create`, `select`, `accept` and `recv`, the last two
with those of the sends that follow. -/
inductive Event where
  | createSocket (fd : Option ℕ)
  | pthreadCreate (success : Bool)
  | io
  | select (ready : Option (Finset ℕ))
  | accept (newClient : Option ℕ) (esito : Esito)
  | recv (buffer : Bytes) (esito : Fin maxClients → Esito)

def step (e : Event) (d : Daemon) : Option Daemon :=
  match e with
  | .createSocket none => if d.pc = .creating then some { d with pc := .exited } else none
  | .createSocket (some fd) =>
    if h : d.pc = .creating ∧ Grants d fd then some (createSocket fd d h.2.1) else none
  | .pthreadCreate success =>
    if d.pc = .starting then some (if success then inizializza d else { d with pc := .exited })
    else none
  | .io => ioThread d
  | .select none => if d.pc = .top then some { d with pc := .ended } else none
  | .select (some ready) =>
    if d.pc = .top ∧ d.master.Reports ready then
      some { d with pc := .accepting 0, readFds := ready, calls := d.calls++[.select ready] }
    else none
  | .accept newClient esito =>
    match d.pc with
    | .accepting s =>
      if (d.serverFds[s]?).any (· ∈ d.readFds) then
        match newClient with
        | none => some { d with pc := .accepting (s+1) }
        | some fd =>
          if h : Grants d fd then some ((accetta s fd esito d h.1).goto (.accepting (s+1)))
          else none
      else none
    | _ => none
  | .recv buffer esito =>
    match d.pc with
    | .serving i =>
      if hi : i < maxClients then
        match daLeggere ⟨i, hi⟩ d with
        | none => none
        | some fd =>
          if buffer.length ≤ bufferSize-1 then
            some ((gestisci ⟨i, hi⟩ fd buffer esito d).goto (.serving (i+1)))
          else none
      else none
    | _ => none

/-- The loop of `main` has emptied all the slots. -/
def started : Daemon where
  pc := .creating
  serverFds := []
  clientFds _ := none
  master := Monitored.zero
  readFds := ∅
  descriptors := Table.empty
  calls := []

end ProgSistema.ChatDaemon
