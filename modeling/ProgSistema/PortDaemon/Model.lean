import ProgSistema.Lib.ArrayPrefix
import ProgSistema.Lib.CRuntime
import ProgSistema.Lib.Multiplexing

/-!
# The daemon on ten ports

One thread waits on the listening sockets and on the sockets of the clients.
A new client is stored behind the others in the table of clients; a client
that leaves is marked as inactive in its place.
-/

set_option autoImplicit false

namespace ProgSistema.PortDaemon
open ArrayPrefix CRuntime Multiplexing

def numPorts : ℕ := 10

def maxClients : ℕ := 100

def bufferSize : ℕ := 1024

structure ClientInfo where
  socket : ℕ
  porta : ℕ
  attivo : Bool
  deriving DecidableEq, Repr

structure Stats where
  connessioniTotali : ℤ
  messaggiElaborati : ℤ
  connessioniPerPorta : ℕ → ℤ

structure Sockets where
  portaBase : ℕ
  listeningSocket : ℕ → ℕ

inductive Pc where
  | loopTest
  | selecting
  | listening (i : ℕ)
  | serving (i : ℕ)
  | ended
  deriving DecidableEq, Repr

/-- The globals of the daemon and the variables of its thread. `sent` and
`closed` are what it has given to `send` and `close`, `refused` the number of
clients that were connected at each connection it refused. -/
structure Daemon where
  pc : Pc
  clients : ℕ → ClientInfo
  numClients : ℕ
  stats : Stats
  continuaEsecuzione : Bool
  maxFd : ℕ
  readFds : Finset ℕ
  sent : List (ℕ × Bytes)
  closed : List ℕ
  refused : List ℕ

def connessi (d : Daemon) : ℕ := (contents d.clients maxClients).countP ClientInfo.attivo

def dueCifre (n : ℕ) : Bytes := if n < 10 then 48::decimal n else decimal n

def stampaStatistiche (k : Sockets) (durata : ℕ) (d : Daemon) : List Bytes :=
  [text "=== STATISTICHE DAEMON ===",
    text "Tempo attivo: "++dueCifre (durata/3600)++[58]++dueCifre (durata % 3600/60)++[58]++
      dueCifre (durata % 60),
    text "Connessioni totali: "++printInt d.stats.connessioniTotali,
    text "Messaggi elaborati: "++printInt d.stats.messaggiElaborati,
    text "Client attualmente connessi: "++decimal d.numClients]++
  (List.range numPorts).map fun i =>
    text "Porta "++decimal (k.portaBase+i)++text ": "++
      printInt (d.stats.connessioniPerPorta i)++text " connessioni"

def welcomeMsg (k : Sockets) (porta : ℕ) : Bytes :=
  snprintf 256 (text "Connesso alla porta "++decimal (k.portaBase+porta)++text " \n")

def aggiungiClient (k : Sockets) (porta clientSocket : ℕ) (d : Daemon) : Daemon :=
  { d with
    clients := Function.update d.clients d.numClients
      { socket := clientSocket, porta := k.portaBase+porta, attivo := true },
    numClients := d.numClients+1,
    stats := { d.stats with
      connessioniTotali := toInt (d.stats.connessioniTotali+1),
      connessioniPerPorta := Function.update d.stats.connessioniPerPorta porta
        (toInt (d.stats.connessioniPerPorta porta+1)) } }

def accettaConnessione (k : Sockets) (porta : ℕ) : Option ℕ → Daemon → Daemon
  | none, d => d
  | some clientSocket, d =>
    if d.numClients ≥ maxClients then
      { d with closed := d.closed++[clientSocket], refused := d.refused++[connessi d] }
    else
      let d := aggiungiClient k porta clientSocket d
      { d with sent := d.sent++[(clientSocket, welcomeMsg k porta)] }

/-- The string in the buffer, without a newline that ends what was read. -/
def senzaNewline (buffer : Bytes) : Bytes :=
  cstr (if buffer.getLast? = some 10 then buffer.dropLast else buffer)

def response (porta : ℕ) (buffer : Bytes) : Bytes :=
  snprintf (bufferSize+50) (text "Echo["++decimal porta++text "]: "++senzaNewline buffer++[10])

/-- `gestisci_client_data`, with the bytes of `recv`, none if it fails or the
client has left, and whether `send` succeeds. -/
def gestisciClientData (i : ℕ) (buffer : Bytes) (inviato : Bool) (d : Daemon) : Daemon :=
  let client := d.clients i
  if buffer = [] then
    { d with clients := Function.update d.clients i { client with attivo := false },
             closed := d.closed++[client.socket] }
  else
    let d := { d with sent := d.sent++[(client.socket, response client.porta buffer)] }
    if inviato then
      { d with stats := { d.stats with messaggiElaborati := toInt (d.stats.messaggiElaborati+1) } }
    else d

def masterFds (k : Sockets) : Monitored :=
  Monitored.zero.watchAll ((List.range numPorts).map k.listeningSocket)

def monitored (k : Sockets) (d : Daemon) : Monitored :=
  Monitored.watchAll ⟨(masterFds k).fds, d.maxFd⟩
    (((contents d.clients d.numClients).filter ClientInfo.attivo).map ClientInfo.socket)

def daServire (i : ℕ) (d : Daemon) : Bool :=
  (d.clients i).attivo && decide ((d.clients i).socket ∈ d.readFds)

def ioMultiplexingThread (k : Sockets) (d : Daemon) : Option Daemon :=
  match d.pc with
  | .loopTest =>
    if d.continuaEsecuzione then
      let m := monitored k d
      some { d with pc := .selecting, maxFd := m.maxFd, readFds := m.fds }
    else some { d with pc := .ended }
  | .listening i =>
    if i ≥ numPorts then some { d with pc := .serving 0 }
    else if k.listeningSocket i ∈ d.readFds then none
    else some { d with pc := .listening (i+1) }
  | .serving i =>
    if i ≥ d.numClients then some { d with pc := .loopTest }
    else if daServire i d then none
    else some { d with pc := .serving (i+1) }
  | .selecting | .ended => none

/-- What happens to the thread: a step of its own, an answer of `select`,
`accept` or `recv` and `send`, and a signal. -/
inductive Event where
  | io
  | select (ready : Finset ℕ)
  | selectFails (interrotto : Bool)
  | accept (clientSocket : Option ℕ)
  | recv (buffer : Bytes) (inviato : Bool)
  | signal
  deriving DecidableEq

def step (k : Sockets) (e : Event) (d : Daemon) : Option Daemon :=
  match e with
  | .io => ioMultiplexingThread k d
  | .select ready =>
    if d.pc = .selecting ∧ Monitored.Reports ⟨d.readFds, d.maxFd⟩ ready then
      some { d with pc := if ready = ∅ then .loopTest else .listening 0, readFds := ready }
    else none
  | .selectFails interrotto =>
    if d.pc = .selecting then some { d with pc := if interrotto then .loopTest else .ended }
    else none
  | .accept clientSocket =>
    match d.pc with
    | .listening i =>
      if i < numPorts ∧ k.listeningSocket i ∈ d.readFds then
        some { accettaConnessione k i clientSocket d with pc := .listening (i+1) }
      else none
    | _ => none
  | .recv buffer inviato =>
    match d.pc with
    | .serving i =>
      if i < d.numClients ∧ daServire i d ∧ buffer.length ≤ bufferSize-1 then
        some { gestisciClientData i buffer inviato d with pc := .serving (i+1) }
      else none
    | _ => none
  | .signal => some { d with continuaEsecuzione := false }

def started (k : Sockets) : Daemon where
  pc := .loopTest
  clients _ := { socket := 0, porta := 0, attivo := false }
  numClients := 0
  stats := { connessioniTotali := 0, messaggiElaborati := 0, connessioniPerPorta _ := 0 }
  continuaEsecuzione := true
  maxFd := (masterFds k).maxFd
  readFds := ∅
  sent := []
  closed := []
  refused := []

end ProgSistema.PortDaemon
