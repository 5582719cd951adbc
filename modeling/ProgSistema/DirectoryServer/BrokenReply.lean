import ProgSistema.DirectoryServer.Session

/-!
# Replies on a connection whose sends may be cut

The server ignores the result of `send_message` and goes on to the next
request. What the client reads stays a list of complete replies exactly where
nothing more goes out after a frame that was cut, and no reply that it accepts
is longer than the length field can say.
-/

set_option autoImplicit false

namespace ProgSistema.DirectoryServer
open CRuntime FileTree Framing StreamSocket Socket

def payload (message : Bytes) : Bytes := message.take (message.length%2^32)

theorem payload_length (message : Bytes) : (payload message).length < 2^32 := by
  rw [payload, wire_length]
  exact Nat.mod_lt _ (by decide)

theorem payload_of_lt (message : Bytes) (h : message.length < 2^32) :
    payload message = message := by
  rw [payload, Nat.mod_eq_of_lt h, List.take_length]

def Carries (outcomes : ℕ → SendOutcome) (message : Bytes) : Prop :=
  (outcomes 0).passes (be32 (message.length%2^32)) = be32 (message.length%2^32) ∧
    (outcomes 1).passes (payload message) = payload message

instance (outcomes : ℕ → SendOutcome) (message : Bytes) : Decidable (Carries outcomes message) := by
  unfold Carries
  infer_instance

def Silent (outcome : SendOutcome) : Prop := outcome = .failed ∨ outcome = .short 0

instance (outcome : SendOutcome) : Decidable (Silent outcome) := by
  unfold Silent
  infer_instance

/-- The frames are sent in full, up to one after which each first send of a
later reply sends nothing. -/
def FramesKept : (ℕ → SendOutcome) → List Bytes → Prop
  | _, [] => True
  | outcomes, reply::replies =>
    if Carries outcomes reply then FramesKept (transmit outcomes reply).2 replies
    else ∀ k < replies.length, Silent ((transmit outcomes reply).2 k)

def NothingAfterCut (outcomes : ℕ → SendOutcome) (replies : List Bytes) : Prop :=
  ∀ (i j : ℕ) (reply : Bytes), i < j → replies[i]? = some reply →
    (transmissions outcomes replies)[i]? ≠ some (wire reply) →
      ((transmissions outcomes replies)[j]?).getD [] = []

def readable : (ℕ → SendOutcome) → List Bytes → List Bytes
  | _, [] => []
  | outcomes, reply::replies =>
    if Carries outcomes reply ∧ 0 < (payload reply).length ∧ (payload reply).length < bufferSize then
      reply::readable (transmit outcomes reply).2 replies
    else []

theorem header_result (n : ℕ) (outcome : SendOutcome) :
    toInt (outcome.result (be32 n)) = 4 ↔ outcome.passes (be32 n) = be32 n := by
  constructor
  · intro h
    cases outcome with
    | full => rfl
    | short k =>
      have hle : ((be32 n).take k).length ≤ 4 := (List.take_prefix k (be32 n)).length_le
      have hlen : toInt (((be32 n).take k).length : ℤ) = 4 := h
      rw [to_int_of_lt _ (by omega)] at hlen
      have hfour : ((be32 n).take k).length = (be32 n).length := by
        rw [be32_length]
        exact_mod_cast hlen
      exact (List.take_prefix k (be32 n)).eq_of_length hfour
    | failed =>
      have hfailed : toInt (-1) = 4 := h
      exact absurd hfailed (by decide)
  · intro h
    rw [result_of_passes _ (by simp [be32]) h, be32_length]
    exact to_int_of_lt 4 (by decide)

theorem transmit_eq (outcomes : ℕ → SendOutcome) (message : Bytes) :
    transmit outcomes message =
      if (outcomes 0).passes (be32 (message.length%2^32)) = be32 (message.length%2^32) then
        (be32 (message.length%2^32)++(outcomes 1).passes (payload message), fun k => outcomes (k+2))
      else ((outcomes 0).passes (be32 (message.length%2^32)), fun k => outcomes (k+1)) := by
  unfold transmit sendMessageOn
  simp only [send_eq, List.nil_append]
  by_cases hheader : (outcomes 0).passes (be32 (message.length%2^32)) = be32 (message.length%2^32)
  · rw [if_neg (not_not.mpr ((header_result _ _).mpr hheader)), if_pos hheader, hheader]
    split <;> rfl
  · rw [if_pos (fun h => hheader ((header_result _ _).mp h)), if_neg hheader]

theorem wire_eq (message : Bytes) :
    wire message = be32 (message.length%2^32)++payload message := by
  rw [wire, frame, wire_length]
  rfl

theorem transmit_carries {outcomes : ℕ → SendOutcome} {message : Bytes}
    (h : Carries outcomes message) : (transmit outcomes message).1 = wire message := by
  rw [transmit_eq, if_pos h.1, h.2, wire_eq]

/-- A message that is not sent in full goes out as a proper prefix of its frame. -/
theorem transmit_cut {outcomes : ℕ → SendOutcome} {message : Bytes}
    (h : ¬ Carries outcomes message) :
    (transmit outcomes message).1 <+: wire message ∧
      (transmit outcomes message).1 ≠ wire message := by
  rw [transmit_eq, wire_eq]
  split
  · rename_i hheader
    constructor
    · exact (List.prefix_append_right_inj _).mpr (prefix_of_passes _ _)
    · intro heq
      exact h ⟨hheader, List.append_cancel_left heq⟩
  · rename_i hheader
    have hpre := prefix_of_passes (be32 (message.length%2^32)) (outcomes 0)
    refine ⟨hpre.trans (List.prefix_append _ _), fun heq => hheader ?_⟩
    apply hpre.eq_of_length (le_antisymm hpre.length_le ?_)
    dsimp only at heq
    rw [heq, List.length_append]
    exact Nat.le_add_right _ _

theorem passes_nothing {n : ℕ} {outcome : SendOutcome} :
    outcome.passes (be32 n) = [] ↔ Silent outcome := by
  cases outcome with
  | full => simp [SendOutcome.passes, Silent, be32]
  | short k => simp [SendOutcome.passes, Silent, be32]
  | failed => simp [SendOutcome.passes, Silent]

/-- A reply of which nothing is sent has used one send. -/
theorem transmit_nothing {outcomes : ℕ → SendOutcome} {message : Bytes} :
    (transmit outcomes message).1 = [] ↔ Silent (outcomes 0) := by
  rw [transmit_eq]
  split
  · rename_i hheader
    constructor
    · intro hnil
      exact absurd (List.append_eq_nil_iff.mp hnil).1 (by simp [be32])
    · intro hsilent
      rw [passes_nothing.mpr hsilent] at hheader
      exact absurd hheader.symm (by simp [be32])
  · exact passes_nothing

theorem transmit_left {outcomes : ℕ → SendOutcome} {message : Bytes} (h : Silent (outcomes 0)) :
    (transmit outcomes message).2 = fun k => outcomes (k+1) := by
  rw [transmit_eq, passes_nothing.mpr h, if_neg (by simp [be32])]

theorem all_silent (outcomes : ℕ → SendOutcome) (replies : List Bytes) :
    (∀ t ∈ transmissions outcomes replies, t = []) ↔ ∀ k < replies.length, Silent (outcomes k) := by
  induction replies generalizing outcomes with
  | nil => simp [transmissions]
  | cons reply replies ih =>
    rw [transmissions, List.forall_mem_cons, transmit_nothing, ih]
    constructor
    · rintro ⟨hfirst, hrest⟩ k hk
      rw [transmit_left hfirst] at hrest
      cases k with
      | zero => exact hfirst
      | succ k => exact hrest k (Nat.lt_of_succ_lt_succ hk)
    · intro hall
      have hfirst := hall 0 (Nat.succ_pos _)
      refine ⟨hfirst, fun k hk => ?_⟩
      rw [transmit_left hfirst]
      exact hall (k+1) (Nat.succ_lt_succ hk)

/-- The condition on the outcomes of the sends is the one on what they send. -/
theorem nothing_after_cut_iff (outcomes : ℕ → SendOutcome) (replies : List Bytes) :
    NothingAfterCut outcomes replies ↔ FramesKept outcomes replies := by
  induction replies generalizing outcomes with
  | nil =>
    simp [NothingAfterCut, FramesKept]
  | cons reply replies ih =>
    rw [FramesKept]
    by_cases hcarries : Carries outcomes reply
    · rw [if_pos hcarries, ← ih]
      constructor
      · intro h i j other hij hother hcut
        exact h (i+1) (j+1) other (Nat.succ_lt_succ hij) hother hcut
      · intro h i j other hij hother hcut
        cases i with
        | zero =>
          cases hother
          exact absurd (congrArg some (transmit_carries hcarries)) hcut
        | succ i =>
          cases j with
          | zero => exact absurd hij (Nat.not_lt_zero _)
          | succ j => exact h i j other (Nat.lt_of_succ_lt_succ hij) hother hcut
    · rw [if_neg hcarries, ← all_silent]
      have hcut := (transmit_cut hcarries).2
      constructor
      · intro h t ht
        obtain ⟨j, hj⟩ := List.mem_iff_getElem?.mp ht
        have hnil := h 0 (j+1) reply (Nat.succ_pos j) rfl
          (fun heq => hcut (Option.some.inj heq))
        rw [transmissions, List.getElem?_cons_succ, hj] at hnil
        exact hnil
      · intro h i j other hij _ _
        cases j with
        | zero => exact absurd hij (Nat.not_lt_zero _)
        | succ j =>
          rw [transmissions, List.getElem?_cons_succ]
          cases hj : (transmissions (transmit outcomes reply).2 replies)[j]? with
          | none => rfl
          | some t => exact h t (List.mem_iff_getElem?.mpr ⟨j, hj⟩)

theorem readable_prefix (outcomes : ℕ → SendOutcome) (replies : List Bytes) :
    readable outcomes replies <+: replies := by
  induction replies generalizing outcomes with
  | nil => exact List.prefix_rfl
  | cons reply replies ih =>
    rw [readable]
    split
    · exact (List.prefix_cons_inj reply).mpr (ih _)
    · exact List.nil_prefix

/-- What a reader finds on the wire, where nothing follows a frame that was cut. -/
theorem wire_readable {outcomes : ℕ → SendOutcome} {replies : List Bytes}
    (h : FramesKept outcomes replies) :
    ∃ rest, MaximalFrames bufferSize (transmissions outcomes replies).flatten
      ((readable outcomes replies).map payload) rest := by
  have hlimit : bufferSize ≤ 2^32 := by decide
  induction replies generalizing outcomes with
  | nil => exact ⟨[], frames_end bufferSize [] (by simp)⟩
  | cons reply replies ih =>
    rw [FramesKept] at h
    rw [transmissions, readable, List.flatten_cons]
    by_cases hcarries : Carries outcomes reply
    · rw [if_pos hcarries] at h
      rw [transmit_carries hcarries]
      by_cases hadm : Admissible bufferSize (payload reply)
      · obtain ⟨rest, hrest⟩ := ih h
        rw [if_pos ⟨hcarries, hadm⟩, List.map_cons]
        exact ⟨rest, maximal_frames_cons hadm hrest⟩
      · rw [if_neg fun hboth => hadm hboth.2]
        exact ⟨_, maximal_frames_refused hlimit (payload_length reply) hadm⟩
    · rw [if_neg hcarries, ← all_silent] at h
      rw [if_neg fun hboth => hcarries hboth.1, List.flatten_eq_nil_iff.mpr h, List.append_nil]
      obtain ⟨hpre, hne⟩ := transmit_cut hcarries
      exact ⟨_, maximal_frames_cut hlimit (payload_length reply) hpre hne⟩

/-- The client reads the frames at the front of the stream, however it arrives. -/
theorem receive_replies (n : ℕ) (client : Socket) {messages : List Bytes} {rest : Bytes}
    (h : MaximalFrames bufferSize client.stream messages rest) :
    Client.receiveReplies n client = messages.take n := by
  have hlimit : bufferSize ≤ 2^31 := by decide
  induction n generalizing client messages with
  | zero => rfl
  | succ n ih =>
    rw [Client.receiveReplies, Client.receiveMessage]
    cases messages with
    | nil =>
      have hstop := receive_stop bufferSize hlimit client (by simpa [h.split] using h.maximal)
      simp [hstop]
    | cons m ms =>
      have hsplit := h.split
      rw [List.flatMap_cons, List.append_assoc] at hsplit
      obtain ⟨client', hrecv, hstream, -, -⟩ :=
        receive_frame _ hlimit client m _ (h.admissible m (by simp)) hsplit
      have hrest : MaximalFrames bufferSize client'.stream ms rest :=
        ⟨hstream, fun a ha => h.admissible a (by simp [ha]), h.maximal⟩
      have hpos : ¬ ((m.length : ℤ) < 0) := by omega
      simp only [hrecv, hpos, if_false, ih client' hrest, List.take_succ_cons]

/-- A client reads whole replies, in order, where the length field can hold the
length of each one that it reads. -/
theorem reads_replies_iff {outcomes : ℕ → SendOutcome} {replies : List Bytes}
    (h : FramesKept outcomes replies) :
    (∀ n (client : Socket), client.stream = (transmissions outcomes replies).flatten →
      Client.receiveReplies n client <+: replies) ↔
      ∀ reply ∈ readable outcomes replies, reply.length < 2^32 := by
  obtain ⟨rest, hrest⟩ := wire_readable h
  have hread : ∀ n (client : Socket), client.stream = (transmissions outcomes replies).flatten →
      Client.receiveReplies n client = ((readable outcomes replies).map payload).take n := by
    intro n client hstream
    exact receive_replies n client (hstream ▸ hrest)
  have hpre := readable_prefix outcomes replies
  constructor
  · intro hall reply hreply
    have hstream : (connected [(transmissions outcomes replies).flatten]).stream =
        (transmissions outcomes replies).flatten := by
      simp [connected, stream]
    have hwhole := hall (readable outcomes replies).length _ hstream
    rw [hread _ _ hstream, List.take_of_length_le (by rw [List.length_map])] at hwhole
    have hsame : (readable outcomes replies).map payload = readable outcomes replies :=
      (List.prefix_of_prefix_length_le hwhole hpre (by rw [List.length_map])).eq_of_length
        (by rw [List.length_map])
    rw [← hsame] at hreply
    obtain ⟨message, -, rfl⟩ := List.mem_map.mp hreply
    exact payload_length message
  · intro hall n client hstream
    have hsame : (readable outcomes replies).map payload = readable outcomes replies := by
      apply (List.map_congr_left _).trans (List.map_id _)
      intro reply hreply
      exact payload_of_lt reply (hall reply hreply)
    rw [hread n client hstream, hsame]
    exact (List.take_prefix n _).trans hpre

/-- A session on a connection with any outcomes of its sends. What goes out is
what each reply puts on the wire. Nothing follows a frame that was cut and the
client reads whole replies only, if and only if the sends and the lengths of the
replies are so. -/
theorem broken_reply {σ : Type} (getDirs : Bytes → σ → Except Fault (Option Bytes × σ))
    (explored : Bytes → σ → Option Bytes × σ)
    (hret : ∀ path env, getDirs path env = .ok (explored path env))
    (env : σ) (sock : Socket) (fuel : ℕ) (hfuel : sock.stream.length < fuel) :
    ∃ payloads env' sock', Server.handleClient getDirs fuel env sock = .ok (payloads, env', sock') ∧
      sock'.sent = sock.sent++
        (transmissions sock.outcomes (answers explored payloads env)).flatten ∧
      ((NothingAfterCut sock.outcomes (answers explored payloads env) ∧
        ∀ n (client : Socket),
          client.stream = (transmissions sock.outcomes (answers explored payloads env)).flatten →
            Client.receiveReplies n client <+: answers explored payloads env) ↔
        FramesKept sock.outcomes (answers explored payloads env) ∧
          ∀ reply ∈ readable sock.outcomes (answers explored payloads env),
            reply.length < 2^32) := by
  obtain ⟨payloads, rest, h⟩ := maximal_frames_exists maxPathLength sock.stream
  have hle := frames_length h
  obtain ⟨env', sock', hrun, hsent⟩ := handle_transmits payloads rest
    (fun m _ e => hret (cstr m) e) env sock fuel h (by omega)
  refine ⟨payloads, env', sock', hrun, hsent, ?_⟩
  rw [nothing_after_cut_iff]
  constructor
  · rintro ⟨hkept, hread⟩
    exact ⟨hkept, (reads_replies_iff hkept).mp hread⟩
  · rintro ⟨hkept, hshort⟩
    exact ⟨hkept, (reads_replies_iff hkept).mpr hshort⟩

def cutOnce (k : ℕ) : SendOutcome := if k = 1 then .short 1 else .full

/-- Two requests that come together, and nothing kept of the first reply. -/
theorem broken_reply_cut :
    ∃ payloads env' sock', Server.handleClient (fun _ (n : ℕ) => .ok (some [47, 97, 10], n+1)) 11 0
      ⟨[frame [47], frame [47]], false, cutOnce, []⟩ = .ok (payloads, env', sock') := by
  obtain ⟨payloads, env', sock', hrun, -, -⟩ :=
    broken_reply (fun _ (n : ℕ) => .ok (some [47, 97, 10], n+1)) (fun _ n => (some [47, 97, 10], n+1))
      (fun _ _ => rfl) 0 ⟨[frame [47], frame [47]], false, cutOnce, []⟩ 11 (by decide)
  exact ⟨payloads, env', sock', hrun⟩

/-- The client reads the first byte of one reply and two of the next header. -/
theorem cut_reply_mixes :
    ((Server.handleClient (fun _ (n : ℕ) => .ok (some [47, 97, 10], n+1)) 11 0
      ⟨[frame [47], frame [47]], false, cutOnce, []⟩).toOption.map fun result =>
        Client.receiveReplies 2 (connected [result.2.2.sent])) = some [[47, 0, 0]] := by
  decide +kernel

end ProgSistema.DirectoryServer
