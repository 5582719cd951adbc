import ProgSistema.DirectoryServer.Model
import ProgSistema.Lib.StreamSocket

/-!
# Messages between the directory server and its client

Both programs carry their own copy of the two message functions. The server
loop answers one request at a time until a receive fails; the client sends one
path, receives one reply and prints it.
-/

set_option autoImplicit false

namespace ProgSistema.DirectoryServer
open CRuntime FileTree Framing StreamSocket

def maxPathLength : ℕ := 512
def bufferSize : ℕ := 1048576

/-- The message length is a 32-bit unsigned value, compared and returned as an
`int`. -/
def sendMessageOn (sock : Socket) (message : Bytes) : ℤ × Socket :=
  let msgLength := message.length%2^32
  let (bytesSent, sock) := sock.send (be32 msgLength)
  if toInt bytesSent ≠ 4 then (-1, sock)
  else
    let (bytesSent, sock) := sock.send (message.take msgLength)
    if toInt bytesSent ≠ toInt msgLength then (-1, sock) else (toInt bytesSent, sock)

/-- The return code, the message placed in the buffer and the socket. -/
def receiveMessageOn (maxLen : ℕ) (sock : Socket) : ℤ × Bytes × Socket :=
  let (bytesReceived, header, sock) := sock.recvWaitAll 4
  if toInt bytesReceived ≠ 4 then (-1, [], sock)
  else
    let msgLength := ofBe32 header
    if msgLength = 0 ∨ msgLength ≥ maxLen then (-1, [], sock)
    else
      let (bytesReceived, message, sock) := sock.recvWaitAll msgLength
      if toInt bytesReceived ≠ toInt msgLength then (-1, [], sock)
      else (toInt msgLength, message, sock)

namespace Server

def sendMessage (sock : Socket) (message : Bytes) : ℤ × Socket := sendMessageOn sock message

def receiveMessage (maxLen : ℕ) (sock : Socket) : ℤ × Bytes × Socket :=
  receiveMessageOn maxLen sock

section
variable {σ : Type} (getDirectoriesRecursive : Bytes → σ → Except Fault (Option Bytes × σ))

def answer (path : Bytes) (env : σ) : Except Fault (Bytes × σ) :=
  if strstr path dotdot then .ok (text "ERRORE: Path non sicuro (contiene '..')\n", env)
  else do
    let (result, env) ← getDirectoriesRecursive path env
    match result with
    | some result => return (result, env)
    | none => return (text "ERRORE: Impossibile esplorare directory\n", env)

/-- The payloads processed, in order, and the final states. Results of sends
are ignored, as in the source. -/
def handleClient : ℕ → σ → Socket → Except Fault (List Bytes × σ × Socket)
  | 0, _, _ => .error .outOfFuel
  | fuel+1, env, sock => do
    let (received, pathBuffer, sock) := receiveMessage maxPathLength sock
    if received ≤ 0 then return ([], env, sock)
    else
      let (reply, env) ← answer getDirectoriesRecursive (cstr pathBuffer) env
      let (payloads, env, sock) ← handleClient fuel env (sendMessage sock reply).2
      return (pathBuffer::payloads, env, sock)

end
end Server

namespace Client

def sendMessage (sock : Socket) (message : Bytes) : ℤ × Socket := sendMessageOn sock message

def receiveMessage (maxLen : ℕ) (sock : Socket) : ℤ × Bytes × Socket :=
  receiveMessageOn maxLen sock

def validatePath (path : Bytes) : Bool :=
  if path = [] then false
  else if path.length ≥ maxPathLength then false
  else if strstr path dotdot then false
  else true

def display (path response : Bytes) : Bytes :=
  if response = [] then text "(Nessuna directory trovata in '"++path++text "')\n"
  else if strncmpEq response (text "ERRORE:") 7 then text "❌ "++response
  else response

/-- The comparison of seven bytes is that with the whole mark of an error. -/
theorem error_test (response : Bytes) :
    strncmpEq response (text "ERRORE:") 7 = true ↔ text "ERRORE:" <+: response := by
  have h7 : (text "ERRORE:").length = 7 := by decide
  have h := strncmp_prefix response (text "ERRORE:")
  rwa [h7] at h

/-- `none` when the client gives up before printing a result. -/
def singleQueryMode (path : Bytes) (sock : Socket) : Option Bytes × Socket :=
  if !validatePath path then (none, sock)
  else
    let (sent, sock) := sendMessage sock path
    if sent < 0 then (none, sock)
    else
      let (received, response, sock) := receiveMessage bufferSize sock
      if received < 0 then (none, sock)
      else (some (display path (cstr response)), sock)

/-- The replies that a client reads from the connection, up to `n` of them. Both
modes of the client give up at the first one that is not accepted. -/
def receiveReplies : ℕ → Socket → List Bytes
  | 0, _ => []
  | n+1, sock =>
    let (received, response, sock) := receiveMessage bufferSize sock
    if received < 0 then [] else response::receiveReplies n sock

end Client
end ProgSistema.DirectoryServer
