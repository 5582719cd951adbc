import ProgSistema.DirectoryServer.EndToEnd

/-!
# The paths that both sides admit

The client checks a path before it sends it, and the server checks the message
that comes: its length, and the two dots in the string in its buffer. A path of
4 GiB and more is announced with a wrong length, and comes shortened if at all.
-/

set_option autoImplicit false

namespace ProgSistema.DirectoryServer
open CRuntime FileTree Framing StreamSocket

def recording (result : Bytes → Option Bytes) (path : Bytes) (explored : List Bytes) :
    Except Fault (Option Bytes × List Bytes) :=
  .ok (result path, explored++[path])

instance (limit : ℕ) (message : Bytes) : Decidable (Admissible limit message) :=
  inferInstanceAs (Decidable (0 < message.length ∧ message.length < limit))

def exploredFor (message : Bytes) : List Bytes :=
  if strstr (cstr message) dotdot then [] else [cstr message]

theorem recording_answer (result : Bytes → Option Bytes) (message : Bytes) : ∃ reply,
    Server.answer (recording result) (cstr message) [] = .ok (reply, exploredFor message) := by
  rw [Server.answer, exploredFor]
  split
  · exact ⟨_, rfl⟩
  · rw [recording, ok_bind]
    cases result (cstr message) with
    | none => exact ⟨_, rfl⟩
    | some listing => exact ⟨listing, rfl⟩

/-- A connection on which one frame arrives, and nothing else. -/
theorem one_frame_explored (result : Bytes → Option Bytes) {message : Bytes} {sock : Socket}
    (hlength : message.length < 2^32) (hstream : sock.stream = frame message) {fuel : ℕ}
    (hfuel : 1 < fuel) : ∃ payloads sock',
      Server.handleClient (recording result) fuel [] sock =
        .ok (payloads, if Admissible maxPathLength message then exploredFor message else [],
          sock') := by
  have hlimit : maxPathLength ≤ 2^31 := by decide
  obtain ⟨fuel, rfl⟩ : ∃ k, fuel = k+2 := ⟨fuel-2, by omega⟩
  by_cases hadm : Admissible maxPathLength message
  · obtain ⟨sock₁, hreceive, hrest, -, -⟩ := receive_frame maxPathLength hlimit sock message []
      hadm (by rw [hstream, List.append_nil])
    obtain ⟨reply, hanswer⟩ := recording_answer result message
    have hpos : ¬ (message.length : ℤ) ≤ 0 := by
      have := hadm.1
      omega
    have hstream₂ : (sendMessageOn sock₁ reply).2.stream = [] := by
      rw [send_message_transmits]
      exact hrest
    have hstop : (receiveMessageOn maxPathLength (sendMessageOn sock₁ reply).2).1 = -1 := by
      apply receive_stop maxPathLength hlimit
      intro m tail _ heq
      rw [hstream₂] at heq
      exact absurd heq.symm (by simp [frame, be32])
    refine ⟨[message],
      (receiveMessageOn maxPathLength (sendMessageOn sock₁ reply).2).2.2, ?_⟩
    rw [if_pos hadm, Server.handleClient, Server.receiveMessage]
    simp only [hreceive, hpos, if_false, hanswer, ok_bind, Server.sendMessage]
    rw [Server.handleClient, Server.receiveMessage]
    simp only [hstop, show ((-1 : ℤ) ≤ 0) from by decide, if_true]
    rfl
  · have hframes : Framing.MaximalFrames maxPathLength (frame message++[]) []
        (frame message++[]) :=
      maximal_frames_refused (hlimit.trans (by decide)) hlength hadm
    rw [List.append_nil, ← hstream] at hframes
    have hstop : (receiveMessageOn maxPathLength sock).1 = -1 :=
      receive_stop maxPathLength hlimit sock hframes.maximal
    refine ⟨[], (receiveMessageOn maxPathLength sock).2.2, ?_⟩
    rw [if_neg hadm, Server.handleClient, Server.receiveMessage]
    simp only [hstop, show ((-1 : ℤ) ≤ 0) from by decide, if_true]
    rfl

/-- The client accepts a path exactly if the server explores that very path when
it gets the client's frame for it. -/
theorem admissible_paths_agree (result : Bytes → Option Bytes) (path : Bytes) (hpath : 0 ∉ path)
    (sock : Socket) (hstream : sock.stream = clientStream [path]) (fuel : ℕ) (hfuel : 1 < fuel) :
    ∃ payloads explored sock',
      Server.handleClient (recording result) fuel [] sock = .ok (payloads, explored, sock') ∧
      (Client.validatePath path = true ↔ explored = [path]) := by
  have hwire : sock.stream = frame (path.take (path.length%2^32)) := by
    rw [hstream, client_stream_eq, List.flatMap_singleton, wire]
  have hlength := wire_length path
  have hmessage : (path.take (path.length%2^32)).length < 2^32 := by
    rw [hlength]
    exact Nat.mod_lt _ (by decide)
  obtain ⟨payloads, sock', hrun⟩ := one_frame_explored result hmessage hwire hfuel
  refine ⟨payloads, _, sock', hrun, ?_⟩
  rw [validate_path_spec]
  have hclean : cstr (path.take (path.length%2^32)) = path.take (path.length%2^32) :=
    cstr_of_no_nul _ fun h => hpath (List.mem_of_mem_take h)
  constructor
  · rintro ⟨hadm, hdots⟩
    have hlt : path.length < 2^32 := hadm.2.trans (by decide)
    have hwhole : path.take (path.length%2^32) = path := by
      rw [Nat.mod_eq_of_lt hlt, List.take_length]
    rw [hwhole] at hclean ⊢
    rw [if_pos hadm, exploredFor, hclean, hdots]
    rfl
  · intro hexplored
    by_cases hadm : Admissible maxPathLength (path.take (path.length%2^32))
    · rw [if_pos hadm, exploredFor, hclean] at hexplored
      by_cases hdots : strstr (path.take (path.length%2^32)) dotdot = true
      · rw [if_pos hdots] at hexplored
        cases hexplored
      · rw [if_neg hdots] at hexplored
        rw [(List.cons.inj hexplored).1] at hadm hdots
        exact ⟨hadm, Bool.eq_false_iff.mpr hdots⟩
    · rw [if_neg hadm] at hexplored
      cases hexplored

/-- A path of one byte, cut in its length. -/
theorem root_agreed : ∃ payloads explored sock',
    Server.handleClient (recording fun _ => none) 2 [] (connected [[0, 0], [0, 1, 47]]) =
      .ok (payloads, explored, sock') ∧
    (Client.validatePath [47] = true ↔ explored = [[47]]) :=
  admissible_paths_agree (fun _ => none) [47] (by decide) (connected [[0, 0], [0, 1, 47]])
    (by decide) 2 (by decide)

end ProgSistema.DirectoryServer
