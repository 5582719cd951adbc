import ProgSistema.EchoClient.Model
import ProgSistema.Lib.StreamSocket

/-!
# The client and its server

The server greets the client, and then answers each message that it reads with
an echo, after it has made the message its variable `A`. A send stays in
flight until the other side receives, which may find several sends together.
-/

set_option autoImplicit false

namespace ProgSistema.EchoClient
open CRuntime StreamSocket

def messaggio (value : ℕ) : Bytes := decimal value++[10]

inductive ServerPc where
  | accepting
  | greeting
  | receiving
  | updating (buffer : Bytes)
  | replying (buffer : Bytes)
  | ended
  deriving DecidableEq, Repr

structure Server where
  pc : ServerPc
  environmentA : Option Bytes
  deriving DecidableEq, Repr

structure System where
  client : Client
  server : Server
  toServer : List Bytes
  toClient : List Bytes

def wlcMsg (porta : ℕ) : Bytes :=
  snprintf 64 (text "Connesso al server. Porta "++decimal porta++[10])

def removeNewline (buffer : Bytes) : Bytes :=
  cstr (if buffer.getLast? = some 10 then buffer.dropLast else buffer)

def response (buffer : Bytes) : Bytes :=
  snprintf (bufferSize+50) (text "Echo : "++buffer++[10])

/-- One step of the server; a receive finds the first `n` sends together. -/
def serverStep (porta n : ℕ) (s : System) : Option System :=
  match s.server.pc with
  | .accepting =>
    if s.client.connection = .connecting ∨ s.client.connection = .failed then none
    else some { s with server.pc := .greeting }
  | .greeting =>
    some { s with server.pc := .receiving, toClient := s.toClient++[wlcMsg porta] }
  | .receiving =>
    if s.toServer = [] then
      if s.client.connection = .closed then some { s with server.pc := .ended } else none
    else if n = 0 ∨ s.toServer.length < n then none
    else
      let (bytes, rest) := recvChunks (bufferSize-1) n s.toServer
      some { s with server.pc := .updating (removeNewline bytes), toServer := rest }
  | .updating buffer =>
    some { s with server := { pc := .replying buffer, environmentA := some buffer } }
  | .replying buffer =>
    some { s with server.pc := .receiving, toClient := s.toClient++[response buffer] }
  | .ended => none

def clientReads (n : ℕ) (s : System) : Option System :=
  if s.toClient = [] then
    if s.server.pc = .ended then (step (.recv []) s.client).map fun c => { s with client := c }
    else none
  else if n = 0 ∨ s.toClient.length < n then none
  else
    let (bytes, rest) := recvChunks (bufferSize-1) n s.toClient
    (step (.recv bytes) s.client).map fun c => { s with client := c, toClient := rest }

namespace System

inductive Event where
  | change (m : Mutator) (rand : ℕ)
  | connect (success : Bool)
  | connection
  | clientReads (n : ℕ)
  | signal
  | server (n : ℕ)
  deriving DecidableEq, Repr

def clientStep (e : EchoClient.Event) (s : System) : Option System :=
  (step e s.client).map fun c =>
    { s with client := c,
             toServer := s.toServer++(c.sent.drop s.client.sent.length).map messaggio }

def step (porta : ℕ) (e : Event) (s : System) : Option System :=
  match e with
  | .change m rand => clientStep (.change m rand) s
  | .connect success => clientStep (.connect success) s
  | .connection => clientStep .connection s
  | .clientReads n => EchoClient.clientReads n s
  | .signal => clientStep .signal s
  | .server n => serverStep porta n s

def started : System where
  client := EchoClient.started
  server := { pc := .accepting, environmentA := none }
  toServer := []
  toClient := []

end System

end ProgSistema.EchoClient
