import ProgSistema.DirectoryServer.Protocol

/-!
# A session processes the longest prefix of well-formed frames

One receive takes one admissible frame off the stream or fails; the loop is
an induction on frames. Neither the segmentation of the stream nor the bytes
inside the payloads matter.
-/

set_option autoImplicit false

namespace ProgSistema.DirectoryServer
open CRuntime FileTree Framing StreamSocket Socket

/-- The frame that a send of the message puts on the wire: lengths wrap at 32 bits. -/
def wire (message : Bytes) : Bytes := frame (message.take (message.length%2^32))

theorem wire_length (message : Bytes) :
    (message.take (message.length%2^32)).length = message.length%2^32 := by
  rw [List.length_take]
  exact Nat.min_eq_left (Nat.mod_le _ _)

theorem wire_of_lt (message : Bytes) (h : message.length < 2^32) : wire message = frame message := by
  rw [wire, Nat.mod_eq_of_lt h, List.take_length]

theorem send_message_full (message : Bytes) {sock : Socket} (h : sock.FullSends) :
    sendMessageOn sock message =
      (toInt (message.length%2^32), { sock with sent := sock.sent++wire message }) := by
  have h' : ({ sock with sent := sock.sent++be32 (message.length%2^32) } : Socket).FullSends := h
  have h4 : toInt ((be32 (message.length%2^32)).length : ℤ) = 4 :=
    to_int_of_lt 4 (by decide)
  simp only [sendMessageOn, send_full _ h, h4, ne_eq, not_true_eq_false, if_false,
    send_full _ h', wire_length, wire, frame, List.append_assoc]
  rfl

/-- The bytes of a message that its two sends put on the wire, and the outcomes
that are left. -/
def transmit (outcomes : ℕ → SendOutcome) (message : Bytes) : Bytes × (ℕ → SendOutcome) :=
  let sock := (sendMessageOn ⟨[], false, outcomes, []⟩ message).2
  (sock.sent, sock.outcomes)

/-- What is sent does not depend on what was sent or received before. -/
theorem send_message_transmits (sock : Socket) (message : Bytes) :
    (sendMessageOn sock message).2 =
      { sock with
        sent := sock.sent++(transmit sock.outcomes message).1,
        outcomes := (transmit sock.outcomes message).2 } := by
  unfold transmit sendMessageOn
  simp only [send_eq, List.nil_append]
  split
  · rfl
  · split <;> simp only [List.append_assoc]

def transmissions : (ℕ → SendOutcome) → List Bytes → List Bytes
  | _, [] => []
  | outcomes, reply::replies =>
    (transmit outcomes reply).1::transmissions (transmit outcomes reply).2 replies

theorem transmissions_full (replies : List Bytes) :
    (transmissions (fun _ => .full) replies).flatten = replies.flatMap wire := by
  induction replies with
  | nil => rfl
  | cons reply replies ih =>
    have hfull : transmit (fun _ => .full) reply = (wire reply, fun _ => .full) := by
      have hsend := send_message_full reply (show FullSends ⟨[], false, fun _ => .full, []⟩ from rfl)
      unfold transmit
      rw [hsend, List.nil_append]
    rw [transmissions, hfull, List.flatten_cons, List.flatMap_cons, ih]

theorem receive_frame (limit : ℕ) (hlimit : limit ≤ 2^31) (sock : Socket) (m rest : Bytes)
    (hm : Admissible limit m) (h : sock.stream = frame m++rest) :
    ∃ sock', receiveMessageOn limit sock = ((m.length : ℤ), m, sock') ∧ sock'.stream = rest ∧
      sock'.sent = sock.sent ∧ sock'.outcomes = sock.outcomes := by
  obtain ⟨hpos, hlt⟩ := hm
  have hstream : sock.stream = be32 m.length++(m++rest) := by
    rw [h, frame, List.append_assoc]
  obtain ⟨hhead, hleft⟩ := recv_bytes 4 sock
  rw [hstream] at hhead hleft
  rw [List.take_left' (be32_length _)] at hhead
  rw [List.drop_left' (be32_length _)] at hleft
  have hr : (sock.recvWaitAll 4).1 = (4 : ℕ) :=
    recv_complete 4 sock (by decide) (by rw [hstream, List.length_append, be32_length]; omega)
  obtain ⟨hbody, hrest⟩ := recv_bytes m.length (sock.recvWaitAll 4).2.2
  rw [hleft] at hbody hrest
  rw [List.take_left' rfl] at hbody
  rw [List.drop_left' rfl] at hrest
  have hr' : ((sock.recvWaitAll 4).2.2.recvWaitAll m.length).1 = (m.length : ℕ) :=
    recv_complete m.length _ hpos (by rw [hleft, List.length_append]; omega)
  have hlen : ofBe32 (be32 m.length) = m.length := of_be32_be32 _ (by omega)
  have hbad : ¬ (m.length = 0 ∨ m.length ≥ limit) := by omega
  refine ⟨((sock.recvWaitAll 4).2.2.recvWaitAll m.length).2.2, ?_, hrest, rfl, rfl⟩
  have h4 : toInt ((4 : ℕ) : ℤ) = 4 := to_int_of_lt 4 (by decide)
  unfold receiveMessageOn
  simp only [hr, h4, ne_eq, not_true_eq_false, if_false, hhead, hlen, if_neg hbad, hr', hbody,
    to_int_of_lt m.length (by omega)]

theorem receive_stop (limit : ℕ) (hlimit : limit ≤ 2^31) (sock : Socket)
    (h : ∀ m tail, Admissible limit m → sock.stream ≠ frame m++tail) :
    (receiveMessageOn limit sock).1 = -1 := by
  unfold receiveMessageOn
  dsimp only
  split
  · rfl
  · rename_i hr
    obtain ⟨hhead, hleft⟩ := recv_bytes 4 sock
    have hlong : 4 ≤ sock.stream.length := by
      by_contra hshort
      obtain ⟨hlt, hge⟩ := recv_short 4 sock (Nat.lt_of_not_le hshort)
      exact hr fun heq => to_int_short _ 4 hge hlt (by decide) heq
    have hlen : (sock.stream.take 4).length = 4 := by
      rw [List.length_take, Nat.min_eq_left hlong]
    split
    · rfl
    · rename_i hbad
      split
      · rfl
      · rename_i hr'
        exfalso
        obtain ⟨hbody, -⟩ := recv_bytes (ofBe32 (sock.recvWaitAll 4).2.1)
          (sock.recvWaitAll 4).2.2
        rw [hhead] at hbad hr' hbody
        rw [hleft] at hbody
        have hfull : ofBe32 (sock.stream.take 4) ≤ (sock.stream.drop 4).length := by
          by_contra hshort
          have hs : (sock.recvWaitAll 4).2.2.stream.length < ofBe32 (sock.stream.take 4) := by
            rw [hleft]
            exact Nat.lt_of_not_le hshort
          obtain ⟨hlt, hge⟩ := recv_short _ _ hs
          exact hr' fun heq => to_int_short _ _ hge hlt (by omega) heq
        refine h ((sock.stream.drop 4).take (ofBe32 (sock.stream.take 4)))
          ((sock.stream.drop 4).drop (ofBe32 (sock.stream.take 4))) ?_ ?_
        · constructor <;> rw [List.length_take, Nat.min_eq_left hfull] <;> omega
        · rw [frame, List.length_take, Nat.min_eq_left hfull, be32_of_be32 _ hlen,
            List.append_assoc, List.take_append_drop, List.take_append_drop]

def answers {σ : Type} (explored : Bytes → σ → Option Bytes × σ) : List Bytes → σ → List Bytes
  | [], _ => []
  | payload::payloads, env =>
    if strstr (cstr payload) dotdot then
      text "ERRORE: Path non sicuro (contiene '..')\n"::answers explored payloads env
    else
      ((explored (cstr payload) env).1.getD (text "ERRORE: Impossibile esplorare directory\n"))::
        answers explored payloads (explored (cstr payload) env).2

theorem answers_length {σ : Type} (explored : Bytes → σ → Option Bytes × σ)
    (payloads : List Bytes) (env : σ) :
    (answers explored payloads env).length = payloads.length := by
  induction payloads generalizing env with
  | nil => rfl
  | cons p ps ih =>
    rw [answers]
    split <;> rw [List.length_cons, List.length_cons, ih]

theorem answer_returns {σ : Type} {getDirs : Bytes → σ → Except Fault (Option Bytes × σ)}
    {explored : Bytes → σ → Option Bytes × σ} (payload : Bytes) (payloads : List Bytes) (env : σ)
    (hret : getDirs (cstr payload) env = .ok (explored (cstr payload) env)) :
    ∃ reply env', Server.answer getDirs (cstr payload) env = .ok (reply, env') ∧
      answers explored (payload::payloads) env = reply::answers explored payloads env' := by
  rw [Server.answer, answers]
  split
  · exact ⟨_, _, rfl, rfl⟩
  · rw [hret]
    cases hres : explored (cstr payload) env with
    | mk result env' => cases result <;> exact ⟨_, env', rfl, rfl⟩

/-- The loop on a stream with a known decomposition into frames, whatever comes
of its sends. -/
theorem handle_transmits {σ : Type} {getDirs : Bytes → σ → Except Fault (Option Bytes × σ)}
    {explored : Bytes → σ → Option Bytes × σ} (payloads : List Bytes) (rest : Bytes)
    (hret : ∀ m ∈ payloads, ∀ env, getDirs (cstr m) env = .ok (explored (cstr m) env))
    (env : σ) (sock : Socket) (fuel : ℕ)
    (h : MaximalFrames maxPathLength sock.stream payloads rest)
    (hfuel : payloads.length < fuel) :
    ∃ env' sock', Server.handleClient getDirs fuel env sock = .ok (payloads, env', sock') ∧
      sock'.sent = sock.sent++
        (transmissions sock.outcomes (answers explored payloads env)).flatten := by
  have hlimit : maxPathLength ≤ 2^31 := by decide
  induction payloads generalizing env sock fuel with
  | nil =>
    obtain ⟨fuel, rfl⟩ : ∃ k, fuel = k+1 := ⟨fuel-1, by omega⟩
    have hstop : (receiveMessageOn maxPathLength sock).1 = -1 :=
      receive_stop maxPathLength hlimit sock (by simpa [h.split] using h.maximal)
    have hsent : (receiveMessageOn maxPathLength sock).2.2.sent = sock.sent := by
      unfold receiveMessageOn
      dsimp only
      split
      · rfl
      · split
        · rfl
        · split <;> rfl
    refine ⟨env, (receiveMessageOn maxPathLength sock).2.2, ?_, ?_⟩
    · rw [Server.handleClient, Server.receiveMessage]
      simp only [hstop, show ((-1 : ℤ) ≤ 0) from by decide, if_true]
      rfl
    · rw [hsent, answers, transmissions, List.flatten_nil, List.append_nil]
  | cons m ms ih =>
    obtain ⟨fuel, rfl⟩ : ∃ k, fuel = k+1 := ⟨fuel-1, by omega⟩
    have hm := h.admissible m (by simp)
    have hs := h.split
    rw [List.flatMap_cons, List.append_assoc] at hs
    obtain ⟨sock₁, hrecv, hstream, hsent, hout⟩ := receive_frame _ hlimit sock m _ hm hs
    obtain ⟨reply, env₁, hans, hcons⟩ := answer_returns m ms env (hret m (by simp) env)
    have hsend := send_message_transmits sock₁ reply
    have htail : MaximalFrames maxPathLength (sendMessageOn sock₁ reply).2.stream ms rest := by
      rw [hsend]
      exact ⟨hstream, fun a ha => h.admissible a (by simp [ha]), h.maximal⟩
    rw [List.length_cons] at hfuel
    obtain ⟨env₂, sock₂, hrun, hout₂⟩ := ih (fun a ha => hret a (by simp [ha])) env₁
      (sendMessageOn sock₁ reply).2 fuel htail (by omega)
    refine ⟨env₂, sock₂, ?_, ?_⟩
    · have hpos : ¬ ((m.length : ℤ) ≤ 0) := by
        have := hm.1
        omega
      rw [Server.handleClient, Server.receiveMessage]
      simp only [hrecv, hpos, if_false, hans, ok_bind, Server.sendMessage, hrun]
      rfl
    · rw [hout₂, hcons, transmissions, List.flatten_cons, ← List.append_assoc, hsend, hsent, hout]

theorem handle_frames {σ : Type} {getDirs : Bytes → σ → Except Fault (Option Bytes × σ)}
    {explored : Bytes → σ → Option Bytes × σ} (payloads : List Bytes) (rest : Bytes)
    (hret : ∀ m ∈ payloads, ∀ env, getDirs (cstr m) env = .ok (explored (cstr m) env))
    (env : σ) (sock : Socket) (hfull : sock.FullSends) (fuel : ℕ)
    (h : MaximalFrames maxPathLength sock.stream payloads rest)
    (hfuel : payloads.length < fuel) :
    ∃ env' sock', Server.handleClient getDirs fuel env sock = .ok (payloads, env', sock') ∧
      sock'.sent = sock.sent++(answers explored payloads env).flatMap wire := by
  obtain ⟨env', sock', hrun, hsent⟩ := handle_transmits payloads rest hret env sock fuel h hfuel
  have hout : sock.outcomes = fun _ => .full := hfull
  rw [hout, transmissions_full] at hsent
  exact ⟨env', sock', hrun, hsent⟩

def connected (incoming : List Bytes) : Socket := ⟨incoming, false, fun _ => .full, []⟩

def clientStream (messages : List Bytes) : Bytes :=
  (messages.foldl (fun sock m => (Client.sendMessage sock m).2) (connected [])).sent

theorem client_stream_eq (messages : List Bytes) :
    clientStream messages = messages.flatMap wire := by
  have hfold : ∀ (ms : List Bytes) (sock : Socket), sock.FullSends →
      (ms.foldl (fun sock m => (Client.sendMessage sock m).2) sock).sent =
        sock.sent++ms.flatMap wire := by
    intro ms
    induction ms with
    | nil =>
      intro sock _
      simp
    | cons m ms ih =>
      intro sock hfull
      rw [List.foldl_cons, Client.sendMessage, send_message_full m hfull]
      have hrest := ih { sock with sent := sock.sent++wire m } hfull
      rw [List.flatMap_cons, ← List.append_assoc]
      exact hrest
  exact hfold messages (connected []) rfl

/-- Whatever bytes arrive and however they are cut, the session processes the
payloads of the one longest prefix of well-formed frames, answers each with
one frame in the same order, and stops there. Messages sent by the client's
own function come back unchanged. -/
theorem session_frames {σ : Type} (getDirs : Bytes → σ → Except Fault (Option Bytes × σ))
    (explored : Bytes → σ → Option Bytes × σ)
    (hret : ∀ path env, getDirs path env = .ok (explored path env))
    (env : σ) (sock : Socket) (hfull : sock.FullSends) (fuel : ℕ)
    (hfuel : sock.stream.length < fuel) :
    ∃ payloads rest env' sock',
      MaximalFrames maxPathLength sock.stream payloads rest ∧
      (∀ ps r, MaximalFrames maxPathLength sock.stream ps r → ps = payloads ∧ r = rest) ∧
      Server.handleClient getDirs fuel env sock = .ok (payloads, env', sock') ∧
      sock'.sent = sock.sent++(answers explored payloads env).flatMap wire ∧
      (answers explored payloads env).length = payloads.length ∧
      ∀ messages, (∀ m ∈ messages, Admissible maxPathLength m) →
        sock.stream = clientStream messages → payloads = messages := by
  obtain ⟨payloads, rest, h⟩ := maximal_frames_exists maxPathLength sock.stream
  have hlimit : maxPathLength ≤ 2^32 := by decide
  have hle := frames_length h
  obtain ⟨env', sock', hrun, hsent⟩ := handle_frames payloads rest
    (fun m _ e => hret (cstr m) e) env sock hfull fuel h (by omega)
  refine ⟨payloads, rest, env', sock', h, ?_, hrun, hsent, answers_length _ _ _, ?_⟩
  · intro ps r hps
    exact maximal_frames_unique hlimit hps h
  · intro messages hadm hstream
    have hwire : messages.flatMap wire = messages.flatMap frame := by
      apply List.flatMap_congr
      intro m hm
      exact wire_of_lt m ((hadm m hm).2.trans_le hlimit)
    rw [client_stream_eq, hwire] at hstream
    have hend := frames_end maxPathLength messages hadm
    rw [← hstream] at hend
    exact (maximal_frames_unique hlimit h hend).1

/-- One request for the root directory, cut inside its length field. -/
theorem session_of_split_header :
    ∃ env' sock', Server.handleClient (fun _ (n : ℕ) => .ok (some [], n+1)) 10 0
      (connected [[0, 0], [0, 1, 47]]) = .ok ([[47]], env', sock') := by
  obtain ⟨payloads, -, env', sock', -, -, hrun, -, -, hmsg⟩ :=
    session_frames (fun _ (n : ℕ) => .ok (some [], n+1)) (fun _ n => (some [], n+1))
      (fun _ _ => rfl) 0 (connected [[0, 0], [0, 1, 47]]) rfl 10 (by decide)
  have hadm : ∀ m ∈ [[47]], Admissible maxPathLength m := by
    intro m hm
    rw [List.mem_singleton.mp hm]
    exact ⟨by decide, by decide⟩
  rw [hmsg [[47]] hadm (by decide)] at hrun
  exact ⟨env', sock', hrun⟩

end ProgSistema.DirectoryServer
