import ProgSistema.Lib.Framing

/-!
# Stream sockets with scheduled outcomes

The incoming side is the list of chunks in arrival order, closed or reset at
the end. Each send has an outcome fixed in advance; sent bytes accumulate.
-/

set_option autoImplicit false

namespace ProgSistema.StreamSocket
open Framing

inductive SendOutcome where
  | full
  | short (n : ℕ)
  | failed
  deriving DecidableEq, Repr

def SendOutcome.passes (data : Bytes) : SendOutcome → Bytes
  | .full => data
  | .short n => data.take n
  | .failed => []

def SendOutcome.result (data : Bytes) : SendOutcome → ℤ
  | .full => data.length
  | .short n => (data.take n).length
  | .failed => -1

/-- A call that sends not all the bytes sends the first ones. -/
theorem prefix_of_passes (data : Bytes) (outcome : SendOutcome) : outcome.passes data <+: data := by
  cases outcome with
  | full => exact List.prefix_rfl
  | short n => exact List.take_prefix n data
  | failed => exact List.nil_prefix

theorem result_of_passes (data : Bytes) {outcome : SendOutcome} (hne : data ≠ [])
    (h : outcome.passes data = data) : outcome.result data = data.length := by
  cases outcome with
  | full => rfl
  | short n =>
    have htake : data.take n = data := h
    exact congrArg (fun d : Bytes => (d.length : ℤ)) htake
  | failed => exact absurd h.symm hne

structure Socket where
  incoming : List Bytes
  reset : Bool
  outcomes : ℕ → SendOutcome
  sent : Bytes

/-- A receive of at most `limit` bytes that finds the first `n` chunks together,
and what is left. -/
def recvChunks (limit n : ℕ) (chunks : List Bytes) : Bytes × List Bytes :=
  let bytes := (chunks.take n).flatten
  if bytes.length ≤ limit then (bytes, chunks.drop n)
  else (bytes.take limit, bytes.drop limit::chunks.drop n)

theorem recv_chunks_stream (limit n : ℕ) (chunks : List Bytes) :
    (recvChunks limit n chunks).1++(recvChunks limit n chunks).2.flatten = chunks.flatten := by
  have hsplit : chunks.flatten = (chunks.take n).flatten++(chunks.drop n).flatten := by
    rw [← List.flatten_append, List.take_append_drop]
  unfold recvChunks
  dsimp only
  split
  · exact hsplit.symm
  · rw [hsplit, List.flatten_cons, ← List.append_assoc, List.take_append_drop]

theorem recv_chunks_fits {limit n : ℕ} {chunks : List Bytes}
    (h : (chunks.take n).flatten.length ≤ limit) :
    recvChunks limit n chunks = ((chunks.take n).flatten, chunks.drop n) := by
  unfold recvChunks
  rw [if_pos h]

namespace Socket

def stream (s : Socket) : Bytes := s.incoming.flatten

def recvWaitAll (n : ℕ) (s : Socket) : ℤ × Bytes × Socket :=
  let (got, left) := gather n s.incoming
  (if got = [] ∧ s.reset then -1 else got.length, got, { s with incoming := left })

def send (data : Bytes) (s : Socket) : ℤ × Socket :=
  let rest : Socket := { s with outcomes := fun k => s.outcomes (k+1) }
  match s.outcomes 0 with
  | .full => (data.length, { rest with sent := s.sent++data })
  | .short n => ((data.take n).length, { rest with sent := s.sent++data.take n })
  | .failed => (-1, rest)

/-- The result of a call and the bytes sent depend on its outcome alone. -/
theorem send_eq (data : Bytes) (s : Socket) :
    s.send data = ((s.outcomes 0).result data, { s with
      outcomes := fun k => s.outcomes (k+1), sent := s.sent++(s.outcomes 0).passes data }) := by
  unfold send SendOutcome.passes SendOutcome.result
  cases s.outcomes 0 with
  | full => rfl
  | short n => rfl
  | failed => simp

def FullSends (s : Socket) : Prop := s.outcomes = fun _ => .full

theorem send_full (data : Bytes) {s : Socket} (h : s.FullSends) :
    s.send data = ((data.length : ℤ), { s with sent := s.sent++data }) := by
  obtain ⟨incoming, reset, outcomes, sent⟩ := s
  have ho : outcomes = fun _ => .full := h
  subst ho
  rfl

theorem recv_bytes (n : ℕ) (s : Socket) :
    (s.recvWaitAll n).2.1 = s.stream.take n ∧
      (s.recvWaitAll n).2.2.stream = s.stream.drop n :=
  gather_stream n s.incoming

theorem recv_complete (n : ℕ) (s : Socket) (hn : 0 < n) (h : n ≤ s.stream.length) :
    (s.recvWaitAll n).1 = n := by
  obtain ⟨htake, -⟩ := recv_bytes n s
  have hlen : (s.recvWaitAll n).2.1.length = n := by
    rw [htake, List.length_take, Nat.min_eq_left h]
  have hne : ¬ ((gather n s.incoming).1 = [] ∧ s.reset = true) := by
    rintro ⟨hnil, -⟩
    have : (s.recvWaitAll n).2.1 = [] := hnil
    rw [this, List.length_nil] at hlen
    omega
  show (if (gather n s.incoming).1 = [] ∧ s.reset = true then (-1 : ℤ)
    else (s.recvWaitAll n).2.1.length) = n
  rw [if_neg hne, hlen]

theorem recv_short (n : ℕ) (s : Socket) (h : s.stream.length < n) :
    (s.recvWaitAll n).1 < n ∧ -1 ≤ (s.recvWaitAll n).1 := by
  obtain ⟨htake, -⟩ := recv_bytes n s
  have hlen : (s.recvWaitAll n).2.1.length = s.stream.length := by
    rw [htake, List.length_take, Nat.min_eq_right h.le]
  show (if (gather n s.incoming).1 = [] ∧ s.reset = true then (-1 : ℤ)
    else (s.recvWaitAll n).2.1.length) < n ∧
    -1 ≤ (if (gather n s.incoming).1 = [] ∧ s.reset = true then (-1 : ℤ)
    else (s.recvWaitAll n).2.1.length)
  rw [hlen]
  split <;> omega

end Socket
end ProgSistema.StreamSocket
