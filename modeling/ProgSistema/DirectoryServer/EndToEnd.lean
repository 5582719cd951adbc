import ProgSistema.DirectoryServer.Session
import ProgSistema.DirectoryServer.Listing

/-!
# From the request to the text on the client's screen

The reply to one request travels in a frame of the listing's length, which
the client accepts only inside its own bounds. The empty listing of a
directory without subdirectories is sent and refused, although the display
code has a branch for it; so are listings that fill the client's buffer.
-/

set_option autoImplicit false

namespace ProgSistema.DirectoryServer
open CRuntime FileTree Framing StreamSocket Socket

def Shown (path : Bytes) (reply : Socket) (shown : Bytes) : Prop :=
  0 ≤ (Client.receiveMessage bufferSize reply).1 ∧
    (Client.singleQueryMode path reply).1 = some shown

def listingSize (base : Bytes) (t : DirTree) : ℕ :=
  ((directories t).map (fun ns => (pathText base ns).length+1)).sum

theorem listing_length (base : Bytes) (t : DirTree) :
    (listing base t).length = listingSize base t := by
  have hnl : (text "\n").length = 1 := by decide
  rw [listing, listingSize, List.length_flatMap]
  simp only [List.length_append, hnl]

theorem listing_size_pos (base : Bytes) (t : DirTree) :
    0 < listingSize base t ↔ directories t ≠ [] := by
  unfold listingSize
  cases directories t with
  | nil => simp
  | cons ns rest =>
    rw [List.map_cons, List.sum_cons]
    simp

theorem path_text_no_nul {base : Bytes} (hbase : 0 ∉ base) (ns : List Name) :
    0 ∉ pathText base ns := by
  have hsep : (0 : UInt8) ∉ separator base := by
    unfold separator
    split <;> decide
  have hnames : (0 : UInt8) ∉ List.intercalate [slash] (ns.map Name.bytes) := by
    induction ns with
    | nil => simp [List.intercalate]
    | cons n ns ih =>
      cases ns with
      | nil => simpa [List.intercalate] using n.noNul
      | cons m ms =>
        have hcons : List.intercalate [slash] ((n::m::ms).map Name.bytes) =
            n.bytes++slash::List.intercalate [slash] ((m::ms).map Name.bytes) := by
          simp [List.intercalate]
        rw [hcons, List.mem_append, List.mem_cons, not_or, not_or]
        exact ⟨n.noNul, by decide, ih⟩
  rw [pathText, List.mem_append, List.mem_append, not_or, not_or]
  exact ⟨⟨hbase, hsep⟩, hnames⟩

theorem listing_no_nul {base : Bytes} (hbase : 0 ∉ base) (t : DirTree) : 0 ∉ listing base t := by
  intro h
  obtain ⟨ns, -, hns⟩ := List.mem_flatMap.mp h
  rcases List.mem_append.mp hns with hp | hn
  · exact path_text_no_nul hbase ns hp
  · exact absurd hn (by decide)

/-- A listing starts like an error message exactly when the request does,
because a separator follows the request path. -/
theorem listing_error_prefix {base : Bytes} {t : DirTree} (hne : base ≠ [])
    (hdirs : directories t ≠ []) :
    text "ERRORE:" <+: listing base t ↔ text "ERRORE:" <+: base := by
  obtain ⟨ns, rest, hcons⟩ := List.exists_cons_of_ne_nil hdirs
  have hstart : base++separator base <+: listing base t := by
    rw [listing, hcons, List.flatMap_cons, pathText]
    simp only [List.append_assoc]
    exact List.prefix_append_right_inj _ |>.mpr (List.prefix_append _ _)
  exact path_starts_iff (by decide) hne hstart

theorem shown_iff (path : Bytes) (hv : Client.validatePath path = true) (reply : Socket)
    (hfull : reply.FullSends) (m : Bytes) (hm : m.length < 2^32) (hnul : 0 ∉ m)
    (h : reply.stream = frame m) (shown : Bytes) :
    Shown path reply shown ↔
      Admissible bufferSize m ∧ Client.display path m = shown := by
  have hplen : path.length < 2^31 := by
    unfold Client.validatePath at hv
    split at hv
    · cases hv
    · split at hv
      · cases hv
      · rename_i hlt
        have : maxPathLength = 512 := rfl
        omega
  have hmod : path.length%2^32 = path.length := Nat.mod_eq_of_lt (by omega)
  have hsend : Client.sendMessage reply path =
      ((path.length : ℤ), { reply with sent := reply.sent++wire path }) := by
    rw [Client.sendMessage, send_message_full path hfull]
    have hcast : ((path.length : ℤ)%2^32) = ((path.length : ℕ) : ℤ) := by omega
    rw [hcast, to_int_of_lt _ hplen]
  have hlimit : bufferSize ≤ 2^31 := by decide
  have hstream : ({ reply with sent := reply.sent++wire path } : Socket).stream = frame m := h
  by_cases hadm : Admissible bufferSize m
  · obtain ⟨s₁, hr₁, -⟩ := receive_frame bufferSize hlimit reply m [] hadm (by simpa using h)
    obtain ⟨s₂, hr₂, -⟩ := receive_frame bufferSize hlimit
      { reply with sent := reply.sent++wire path } m [] hadm (by simpa using hstream)
    have hpos : ¬ ((m.length : ℤ) < 0) := by omega
    have hpath : ¬ ((path.length : ℤ) < 0) := by omega
    have hrun : (Client.singleQueryMode path reply).1 = some (Client.display path m) := by
      rw [Client.singleQueryMode, hv]
      simp only [Bool.not_true, Bool.false_eq_true, if_false, hsend, hpath,
        Client.receiveMessage, hr₂, hpos, cstr_of_no_nul m hnul]
    rw [Shown, hrun, Client.receiveMessage, hr₁]
    constructor
    · rintro ⟨-, heq⟩
      exact ⟨hadm, Option.some.inj heq⟩
    · rintro ⟨-, heq⟩
      exact ⟨by omega, congrArg some heq⟩
  · have hstop : (receiveMessageOn bufferSize reply).1 = -1 := by
      refine receive_stop bufferSize hlimit reply ?_
      intro m' tail hadm' heq
      rw [h] at heq
      have hlt : m'.length < 2^32 := hadm'.2.trans_le (by decide)
      obtain ⟨rfl, -⟩ := frame_prefix_free m m' [] tail hm hlt (by simpa using heq)
      exact hadm hadm'
    constructor
    · rintro ⟨hacc, -⟩
      rw [Client.receiveMessage, hstop] at hacc
      omega
    · rintro ⟨hadm', -⟩
      exact absurd hadm' hadm

theorem display_eq_iff (path m : Bytes) (hne : m ≠ []) :
    Client.display path m = m ↔ ¬ text "ERRORE:" <+: m := by
  rw [Client.display, if_neg hne]
  split
  · rename_i hcmp
    constructor
    · intro heq
      have hlen := congrArg List.length heq
      have hx : (text "❌ ").length = 4 := by decide
      rw [List.length_append, hx] at hlen
      omega
    · intro hnot
      exact absurd ((Client.error_test m).mp hcmp) hnot
  · rename_i hcmp
    constructor
    · intro _ h
      exact hcmp ((Client.error_test m).mpr h)
    · intro _
      rfl

/-- A display never grows by more than the four bytes of the error mark. -/
theorem display_length (path m : Bytes) (hne : m ≠ []) :
    (Client.display path m).length ≤ m.length+4 := by
  have hx : (text "❌ ").length = 4 := by decide
  rw [Client.display, if_neg hne]
  split
  · rw [List.length_append, hx]
    omega
  · omega

/-- A message longer than its 32-bit length field is cut on the wire. -/
theorem cut_message_shown {path m : Bytes} (hv : Client.validatePath path = true)
    {reply : Socket} (hfull : reply.FullSends) (hnul : 0 ∉ m) (h : reply.stream = wire m) :
    Shown path reply m ↔ Admissible bufferSize m ∧ ¬ text "ERRORE:" <+: m := by
  have hlt : (m.take (m.length%2^32)).length < 2^32 := by
    rw [wire_length]
    exact Nat.mod_lt _ (by decide)
  have hcut : 0 ∉ m.take (m.length%2^32) := fun h0 => hnul (List.mem_of_mem_take h0)
  rw [shown_iff path hv reply hfull _ hlt hcut h m]
  by_cases hlen : m.length < 2^32
  · rw [Nat.mod_eq_of_lt hlen, List.take_length]
    refine and_congr_right fun hadm => display_eq_iff path m ?_
    rintro rfl
    exact absurd hadm.1 (by simp)
  · have hbuf : bufferSize = 1048576 := rfl
    constructor
    · rintro ⟨hadm, heq⟩
      have hne : m.take (m.length%2^32) ≠ [] := by
        intro hnil
        rw [hnil] at hadm
        exact absurd hadm.1 (by simp)
      have hle := display_length path _ hne
      have hup := hadm.2
      rw [heq] at hle
      omega
    · rintro ⟨hadm, -⟩
      have := hadm.2
      omega

theorem connected_full (chunks : List Bytes) : (connected chunks).FullSends := rfl

theorem validate_path_spec (path : Bytes) :
    Client.validatePath path = true ↔
      Admissible maxPathLength path ∧ strstr path dotdot = false := by
  unfold Client.validatePath Admissible
  constructor
  · intro h
    split at h
    · cases h
    · rename_i hne
      split at h
      · cases h
      · rename_i hlt
        split at h
        · cases h
        · rename_i hdots
          exact ⟨⟨List.length_pos_iff.mpr hne, by omega⟩, by simpa using hdots⟩
  · rintro ⟨⟨hpos, hlt⟩, hdots⟩
    rw [if_neg (List.length_pos_iff.mp hpos), if_neg (by omega), if_neg (by simp [hdots])]

/-- The server answers the client's request with the frame of the listing. -/
theorem request_answered {fs : FileSystem} {base : Bytes} {t : DirTree}
    (h : Names fs.opendir fs.stat base t) (ht : t.isDirectory = true)
    (hv : Client.validatePath base = true) (hbase : 0 ∉ base) (depth : ℕ)
    (hdepth : t.height ≤ depth) (chunks : List Bytes)
    (hchunks : chunks.flatten = clientStream [base]) (fuel : ℕ) (hfuel : 1 < fuel) :
    ∃ heap sock, Server.handleClient (getDirectoriesRecursive fs depth) fuel alwaysSucceeds
        (connected chunks) = .ok ([base], heap, sock) ∧ sock.sent = wire (listing base t) := by
  obtain ⟨hadm, hdots⟩ := (validate_path_spec base).mp hv
  have hlt : base.length < 2^32 := hadm.2.trans_le (by decide)
  have hframes : MaximalFrames maxPathLength (connected chunks).stream [base] [] := by
    have hs : (connected chunks).stream = [base].flatMap frame := by
      rw [stream, connected, hchunks, client_stream_eq]
      simp [wire_of_lt base hlt]
    rw [hs]
    refine frames_end maxPathLength [base] (fun m hm => ?_)
    rw [List.mem_singleton.mp hm]
    exact hadm
  have hexp := get_directories_ok h ht depth hdepth
  obtain ⟨fuel, rfl⟩ : ∃ k, fuel = k+2 := ⟨fuel-2, by omega⟩
  obtain ⟨sock₁, hrecv, hstream, hsent, hout⟩ := receive_frame maxPathLength (by decide)
    (connected chunks) base [] hadm (by simpa using hframes.split)
  have hpos : ¬ ((base.length : ℤ) ≤ 0) := by
    have := hadm.1
    omega
  have hans : Server.answer (getDirectoriesRecursive fs depth) (cstr base) alwaysSucceeds =
      .ok (listing base t, alwaysSucceeds) := by
    rw [cstr_of_no_nul base hbase, Server.answer, hdots, hexp]
    rfl
  have hfull₁ : sock₁.FullSends := hout
  let sock₂ : Socket := { sock₁ with sent := sock₁.sent++wire (listing base t) }
  have hend : MaximalFrames maxPathLength sock₂.stream [] [] := by
    have hnil : sock₂.stream = [] := hstream
    rw [hnil]
    exact frames_end maxPathLength [] (by simp)
  obtain ⟨heap, sock₃, hrun, hsent₃⟩ := @handle_frames _ (getDirectoriesRecursive fs depth)
    (fun _ heap => (none, heap)) [] [] (by simp) alwaysSucceeds sock₂ hfull₁
    (fuel+1) hend (by simp)
  refine ⟨heap, sock₃, ?_, ?_⟩
  · rw [Server.handleClient, Server.receiveMessage]
    simp only [hrecv, hpos, if_false, hans, ok_bind, Server.sendMessage,
      send_message_full _ hfull₁]
    show (Server.handleClient (getDirectoriesRecursive fs depth) (fuel+1) alwaysSucceeds
      sock₂ >>= _) = _
    rw [hrun]
    rfl
  · rw [hsent₃, answers, List.flatMap_nil, List.append_nil]
    show sock₁.sent++wire (listing base t) = _
    rw [hsent]
    rfl

/-- The listing reaches the screen exactly when there is a subdirectory, the
lines fit the client's buffer, and the request does not look like an error. -/
theorem listing_shown_iff (fs : FileSystem) (base : Bytes) (t : DirTree)
    (h : Names fs.opendir fs.stat base t) (ht : t.isDirectory = true)
    (hv : Client.validatePath base = true) (hbase : 0 ∉ base) (depth : ℕ)
    (hdepth : t.height ≤ depth) (chunks : List Bytes)
    (hchunks : chunks.flatten = clientStream [base]) (fuel : ℕ) (hfuel : 1 < fuel) :
    ∃ heap sock, Server.handleClient (getDirectoriesRecursive fs depth) fuel alwaysSucceeds
        (connected chunks) = .ok ([base], heap, sock) ∧
      ∀ replyChunks : List Bytes, replyChunks.flatten = sock.sent →
        (Shown base (connected replyChunks) (listing base t) ↔
          directories t ≠ [] ∧ listingSize base t < bufferSize ∧ ¬ text "ERRORE:" <+: base) := by
  obtain ⟨heap, sock, hrun, hsent⟩ :=
    request_answered h ht hv hbase depth hdepth chunks hchunks fuel hfuel
  refine ⟨heap, sock, hrun, ?_⟩
  intro replyChunks hreply
  have hne : base ≠ [] := by
    rintro rfl
    cases hv
  have hstream : (connected replyChunks).stream = wire (listing base t) := hreply.trans hsent
  rw [cut_message_shown hv (connected_full _) (listing_no_nul hbase t) hstream, Admissible, listing_length,
    listing_size_pos, and_assoc]
  refine and_congr_right fun hdirs => and_congr_right fun _ => not_congr ?_
  exact listing_error_prefix hne hdirs

theorem sample_names :
    Names sampleHost.fileSystem.opendir sampleHost.fileSystem.stat (text "/") sampleTree :=
  sampleHost.lookup_names sample_distinct _ [] rfl

theorem sample_shown : ∃ heap sock,
    Server.handleClient (getDirectoriesRecursive sampleHost.fileSystem 3) 2 alwaysSucceeds
      (connected [clientStream [text "/"]]) = .ok ([text "/"], heap, sock) ∧
    Shown (text "/") (connected [sock.sent]) (text "/a\n/a/b\n") := by
  obtain ⟨heap, sock, hrun, hiff⟩ := listing_shown_iff sampleHost.fileSystem (text "/") sampleTree
    sample_names rfl (by decide) (by decide) 3 (by decide) [clientStream [text "/"]] (by simp) 2
    (by decide)
  have hlist : listing (text "/") sampleTree = text "/a\n/a/b\n" := by decide
  have hshown := (hiff [sock.sent] (by simp)).mpr ⟨by decide, by decide, by decide⟩
  rw [hlist] at hshown
  exact ⟨heap, sock, hrun, hshown⟩

/-- The directory `/a/b` has no subdirectory: its reply is the frame of length
zero, which the client refuses. -/
theorem leaf_directory_refused : ∃ heap sock,
    Server.handleClient (getDirectoriesRecursive sampleHost.fileSystem 1) 2 alwaysSucceeds
      (connected [clientStream [text "/a/b"]]) = .ok ([text "/a/b"], heap, sock) ∧
    listing (text "/a/b") emptyDir = [] ∧ sock.sent = [0, 0, 0, 0] ∧
    ¬ Shown (text "/a/b") (connected [sock.sent]) (listing (text "/a/b") emptyDir) := by
  have hdist : emptyDir.Distinct := .dir _ _ _ List.nodup_nil (by simp)
  have hnames : Names sampleHost.fileSystem.opendir sampleHost.fileSystem.stat (text "/a/b")
      emptyDir := sampleHost.lookup_names hdist _ [innerDir, sampleTree] rfl
  obtain ⟨heap, sock, hrun, hsent⟩ := request_answered hnames rfl (by decide) (by decide) 1
    (by decide) [clientStream [text "/a/b"]] (by simp) 2 (by decide)
  have hnil : listing (text "/a/b") emptyDir = [] := by decide
  have hwire : sock.sent = wire [] := by rw [hsent, hnil]
  refine ⟨heap, sock, hrun, hnil, hwire, ?_⟩
  rw [hnil, cut_message_shown (by decide) (connected_full _) (by decide) (by rw [hwire]; rfl)]
  rintro ⟨hadm, -⟩
  exact absurd hadm.1 (by decide)

end ProgSistema.DirectoryServer
