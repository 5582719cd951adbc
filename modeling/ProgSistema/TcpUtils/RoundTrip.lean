import ProgSistema.Lib.ArrayPrefix
import ProgSistema.Lib.StreamSocket

/-!
# The utilities for TCP connections

`tcp_send_data` and `tcp_receive_data` are to pass a string through a
connection. Where each of them should call the socket there is a list of
expressions in parentheses, whose value is that of the last one.
-/

set_option autoImplicit false

namespace ProgSistema.TcpUtils
open ArrayPrefix CRuntime StreamSocket

/-- The operator `,`: the value of the first operand is dropped. -/
def comma {α β : Type*} (_ : α) (b : β) : β := b

structure Endpoint where
  socket : Socket
  errors : List Bytes

def perror (message : Bytes) (e : Endpoint) : Endpoint :=
  { e with errors := e.errors++[message] }

/-- `bytes_sent=(sockfd, data, len, 0)`. -/
def tcpSendData (sockfd : ℤ) (data : Bytes) (len : ℤ) (e : Endpoint) : ℤ × Endpoint :=
  let bytesSent : ℤ := comma sockfd (comma data (comma len 0))
  (bytesSent, if bytesSent < 0 then perror (text "Errore invio dati") e else e)

/-- `bytes_received=(sockfd, buffer, buffer_size-1, 0)`. -/
def tcpReceiveData (sockfd : ℤ) (buffer : ℕ → UInt8) (bufferSize : ℤ) (e : Endpoint) :
    ℤ × (ℕ → UInt8) × Endpoint :=
  let bytesReceived : ℤ := comma sockfd (comma buffer (comma (bufferSize-1) 0))
  if bytesReceived < 0 then (-1, buffer, perror (text "Errore ricezione dati") e)
  else (bytesReceived, Function.update buffer bytesReceived.toNat 0, e)

def Sends (sockfd : ℤ) (data : Bytes) (e : Endpoint) : Prop :=
  (tcpSendData sockfd data data.length e).1 = (e.socket.send data).1 ∧
    (tcpSendData sockfd data data.length e).2.socket.sent = (e.socket.send data).2.sent

def Receives (sockfd : ℤ) (data : Bytes) (buffer : ℕ → UInt8) (bufferSize : ℤ) (e : Endpoint) :
    Prop :=
  (tcpReceiveData sockfd buffer bufferSize e).1 = data.length ∧
    contents (tcpReceiveData sockfd buffer bufferSize e).2.1 (data.length+1) = data++[0]

/-- What is sent at one end arrives at the other, where it is there for one
`recv`, and a `send` or `recv` that fails is reported. -/
structure RoundTrip (data : Bytes) (bufferSize : ℤ) : Prop where
  sends : ∀ sockfd e, (e.socket.send data).1 ≠ 0 → Sends sockfd data e
  receives : ∀ sockfd buffer e, e.socket.incoming = [data] →
    Receives sockfd data buffer bufferSize e
  fails : ∀ sockfd buffer e, e.socket.incoming = [] → e.socket.reset = true →
    (tcpReceiveData sockfd buffer bufferSize e).1 = -1

/-- Neither function calls its socket. -/
theorem send_nothing (sockfd : ℤ) (data : Bytes) (len : ℤ) (e : Endpoint) :
    tcpSendData sockfd data len e = (0, e) := rfl

theorem receive_nothing (sockfd : ℤ) (buffer : ℕ → UInt8) (bufferSize : ℤ) (e : Endpoint) :
    tcpReceiveData sockfd buffer bufferSize e = (0, Function.update buffer 0 0, e) := rfl

/-- Whatever the sockets would do, no string is sent or received, and no
failure is reported. -/
theorem round_trip_never (data : Bytes) (hlen : 0 < data.length) (hnul : 0 ∉ data)
    (bufferSize : ℤ) :
    ¬ RoundTrip data bufferSize ∧
      (∀ sockfd e, (e.socket.send data).1 ≠ 0 → ¬ Sends sockfd data e) ∧
      (∀ sockfd buffer e, ¬ Receives sockfd data buffer bufferSize e) ∧
      ∀ sockfd buffer e, (tcpReceiveData sockfd buffer bufferSize e).1 ≠ -1 := by
  have hsends : ∀ sockfd e, (e.socket.send data).1 ≠ 0 → ¬ Sends sockfd data e := by
    intro sockfd e hresult h
    rw [Sends, send_nothing] at h
    exact hresult h.1.symm
  have hreceives : ∀ sockfd buffer e, ¬ Receives sockfd data buffer bufferSize e := by
    intro sockfd buffer e h
    obtain ⟨-, hbuffer⟩ := h
    rw [receive_nothing] at hbuffer
    -- the buffer begins with the NUL
    have hfirst := contents_get (Function.update buffer 0 0) (data.length+1) 0 (by omega)
    rw [hbuffer, List.getElem?_append_left hlen, Function.update_self] at hfirst
    exact hnul (List.mem_of_getElem? hfirst)
  refine ⟨fun h => ?_, hsends, hreceives, fun sockfd buffer e => ?_⟩
  · let e : Endpoint := ⟨⟨[], false, fun _ => .full, []⟩, []⟩
    have hfull : (e.socket.send data).1 ≠ 0 := by
      rw [Socket.send_full (s := e.socket) data rfl]
      exact Nat.cast_ne_zero.mpr hlen.ne'
    exact hsends 3 e hfull (h.sends 3 e hfull)
  · rw [receive_nothing]
    exact show (0 : ℤ) ≠ -1 by decide

theorem greeting_never : ¬ RoundTrip (text "ciao") 1024 :=
  (round_trip_never (text "ciao") (by decide) (by decide) 1024).1

/-- A greeting is there for one `recv`, and the buffer holds the empty string. -/
theorem greeting_not_received : ¬ ∀ (data : Bytes) (bufferSize : ℤ), 0 < data.length →
    data.length < bufferSize → 0 ∉ data → RoundTrip data bufferSize := by
  intro h
  have hreceived := (h (text "ciao") 1024 (by decide) (by decide) (by decide)).receives 3
    (fun _ => 0) ⟨⟨[text "ciao"], false, fun _ => .full, []⟩, []⟩ rfl
  exact absurd hreceived.1 (by decide)

end ProgSistema.TcpUtils
