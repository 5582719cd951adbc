import ProgSistema.Lib.CRuntime

/-!
# Length-prefixed frames on a segmented byte stream

A frame is a four-byte big-endian length followed by that many bytes. The
stream reaches its reader in chunks that need not respect frames. Frames are
prefix-free, so a byte string has one longest prefix made of frames.
-/

set_option autoImplicit false

namespace ProgSistema.Framing

def be32 (n : ℕ) : Bytes :=
  [UInt8.ofNat (n/2^24), UInt8.ofNat (n/2^16), UInt8.ofNat (n/2^8), UInt8.ofNat n]

def ofBe32 : Bytes → ℕ
  | [a, b, c, d] => a.toNat*2^24+b.toNat*2^16+c.toNat*2^8+d.toNat
  | _ => 0

theorem be32_length (n : ℕ) : (be32 n).length = 4 := rfl

theorem of_be32_be32 (n : ℕ) (h : n < 2^32) : ofBe32 (be32 n) = n := by
  simp only [be32, ofBe32, UInt8.toNat_ofNat']
  omega

theorem be32_of_be32 (b : Bytes) (h : b.length = 4) : be32 (ofBe32 b) = b := by
  match b, h with
  | [a, b, c, d], _ =>
    have ha := a.toNat_lt
    have hb := b.toNat_lt
    have hc := c.toNat_lt
    have hd := d.toNat_lt
    simp only [be32, ofBe32, List.cons.injEq, and_true]
    refine ⟨?_, ?_, ?_, ?_⟩ <;> apply UInt8.toNat_inj.mp <;> rw [UInt8.toNat_ofNat'] <;> omega

def frame (m : Bytes) : Bytes := be32 m.length ++ m

theorem frame_length (m : Bytes) : (frame m).length = m.length+4 := by
  rw [frame, List.length_append, be32_length]
  omega

def Admissible (limit : ℕ) (m : Bytes) : Prop := 0 < m.length ∧ m.length < limit

/-- The listed messages are the frames at the front of the stream, and what
follows them does not start with a further admissible frame. -/
structure MaximalFrames (limit : ℕ) (stream : Bytes) (messages : List Bytes)
    (rest : Bytes) : Prop where
  split : stream = messages.flatMap frame ++ rest
  admissible : ∀ m ∈ messages, Admissible limit m
  maximal : ∀ m tail, Admissible limit m → rest ≠ frame m ++ tail

theorem frame_prefix_free (m m' a b : Bytes) (hm : m.length < 2^32) (hm' : m'.length < 2^32)
    (h : frame m ++ a = frame m' ++ b) : m = m' ∧ a = b := by
  rw [frame, frame, List.append_assoc, List.append_assoc] at h
  obtain ⟨hhead, htail⟩ := List.append_inj h (by rw [be32_length, be32_length])
  have hlen : m.length = m'.length := by
    rw [← of_be32_be32 _ hm, ← of_be32_be32 _ hm', hhead]
  exact List.append_inj htail hlen

theorem maximal_frames_nil {limit : ℕ} {stream rest : Bytes}
    (h : ∀ m tail, Admissible limit m → stream ≠ frame m ++ tail) (hr : stream = rest) :
    MaximalFrames limit stream [] rest := by
  subst hr
  exact ⟨rfl, by simp, h⟩

theorem maximal_frames_cons {limit : ℕ} {stream rest m : Bytes} {messages : List Bytes}
    (hm : Admissible limit m) (h : MaximalFrames limit stream messages rest) :
    MaximalFrames limit (frame m ++ stream) (m::messages) rest where
  split := by rw [h.split, List.flatMap_cons, List.append_assoc]
  admissible := by
    intro a ha
    rcases List.mem_cons.mp ha with rfl | ha
    · exact hm
    · exact h.admissible a ha
  maximal := h.maximal

/-- A reader stops at a frame that it does not admit. -/
theorem maximal_frames_refused {limit : ℕ} (hlimit : limit ≤ 2^32) {m tail : Bytes}
    (hm : m.length < 2^32) (h : ¬ Admissible limit m) :
    MaximalFrames limit (frame m++tail) [] (frame m++tail) := by
  apply maximal_frames_nil _ rfl
  intro m' tail' hm' heq
  obtain ⟨rfl, -⟩ := frame_prefix_free m m' tail tail' hm (hm'.2.trans_le hlimit) heq
  exact h hm'

/-- A reader stops at a frame that has been cut. -/
theorem maximal_frames_cut {limit : ℕ} (hlimit : limit ≤ 2^32) {m cut : Bytes}
    (hm : m.length < 2^32) (hcut : cut <+: frame m) (hne : cut ≠ frame m) :
    MaximalFrames limit cut [] cut := by
  apply maximal_frames_nil _ rfl
  intro m' tail hm' heq
  obtain ⟨missing, hmissing⟩ := hcut
  have hsplit : frame m++[] = frame m'++(tail++missing) := by
    rw [List.append_nil, ← hmissing, heq, List.append_assoc]
  obtain ⟨rfl, hnil⟩ := frame_prefix_free m m' _ _ hm (hm'.2.trans_le hlimit) hsplit
  rw [(List.append_eq_nil_iff.mp hnil.symm).1, List.append_nil] at heq
  exact hne heq

/-- The longest prefix of frames is unique for a limit the length field can
represent. -/
theorem maximal_frames_unique {limit : ℕ} (hlimit : limit ≤ 2^32) {stream rest rest' : Bytes}
    {messages messages' : List Bytes} (h : MaximalFrames limit stream messages rest)
    (h' : MaximalFrames limit stream messages' rest') : messages = messages' ∧ rest = rest' := by
  induction messages generalizing stream messages' with
  | nil =>
    cases messages' with
    | nil => exact ⟨rfl, h.split.symm.trans h'.split⟩
    | cons m' ms' =>
      have hs := h.split.symm.trans h'.split
      rw [List.flatMap_cons, List.append_assoc] at hs
      exact absurd hs (h.maximal _ _ (h'.admissible m' (by simp)))
  | cons m ms ih =>
    cases messages' with
    | nil =>
      have hs := h'.split.symm.trans h.split
      rw [List.flatMap_cons, List.append_assoc] at hs
      exact absurd hs (h'.maximal _ _ (h.admissible m (by simp)))
    | cons m' ms' =>
      have hs := h.split.symm.trans h'.split
      simp only [List.flatMap_cons, List.append_assoc] at hs
      have hm := (h.admissible m (by simp)).2.trans_le hlimit
      have hm' := (h'.admissible m' (by simp)).2.trans_le hlimit
      obtain ⟨rfl, htail⟩ := frame_prefix_free m m' _ _ hm hm' hs
      have hrest : MaximalFrames limit (ms.flatMap frame ++ rest) ms rest :=
        ⟨rfl, fun a ha => h.admissible a (by simp [ha]), h.maximal⟩
      have hrest' : MaximalFrames limit (ms.flatMap frame ++ rest) ms' rest' :=
        ⟨htail, fun a ha => h'.admissible a (by simp [ha]), h'.maximal⟩
      obtain ⟨rfl, rfl⟩ := ih hrest hrest'
      exact ⟨rfl, rfl⟩

/-- Every stream has such a prefix. -/
theorem maximal_frames_exists (limit : ℕ) (stream : Bytes) :
    ∃ messages rest, MaximalFrames limit stream messages rest := by
  induction hn : stream.length using Nat.strong_induction_on generalizing stream with
  | h n ih =>
    by_cases h : ∃ m tail, Admissible limit m ∧ stream = frame m++tail
    · obtain ⟨m, tail, hm, rfl⟩ := h
      rw [List.length_append, frame_length] at hn
      obtain ⟨ms, rest, hms⟩ := ih tail.length (by omega) tail rfl
      exact ⟨m::ms, rest, maximal_frames_cons hm hms⟩
    · refine ⟨[], stream, maximal_frames_nil ?_ rfl⟩
      intro m tail hm heq
      exact h ⟨m, tail, hm, heq⟩

theorem frames_length {limit : ℕ} {stream rest : Bytes} {messages : List Bytes}
    (h : MaximalFrames limit stream messages rest) : messages.length ≤ stream.length := by
  rw [h.split, List.length_append]
  have hle : messages.length ≤ (messages.flatMap frame).length := by
    clear h
    induction messages with
    | nil => simp
    | cons m ms ih =>
      rw [List.flatMap_cons, List.length_append, frame_length, List.length_cons]
      omega
  omega

theorem frames_end (limit : ℕ) (messages : List Bytes)
    (h : ∀ m ∈ messages, Admissible limit m) :
    MaximalFrames limit (messages.flatMap frame) messages [] where
  split := by simp
  admissible := h
  maximal := by
    intro m tail _ hnil
    have hlen := congrArg List.length hnil
    rw [List.length_append, frame_length, List.length_nil] at hlen
    omega

def gather : ℕ → List Bytes → Bytes × List Bytes
  | _, [] => ([], [])
  | n, chunk::chunks =>
    if chunk.length ≤ n then
      let (got, left) := gather (n-chunk.length) chunks
      (chunk++got, left)
    else (chunk.take n, chunk.drop n::chunks)

/-- Segmentation is invisible: the bytes taken and the bytes left depend on
the stream alone. -/
theorem gather_stream (n : ℕ) (chunks : List Bytes) :
    (gather n chunks).1 = chunks.flatten.take n ∧
      (gather n chunks).2.flatten = chunks.flatten.drop n := by
  induction chunks generalizing n with
  | nil => simp [gather]
  | cons chunk chunks ih =>
    rw [gather]
    split
    · rename_i hle
      obtain ⟨htake, hdrop⟩ := ih (n-chunk.length)
      constructor
      · rw [List.flatten_cons, List.take_append, List.take_of_length_le hle, ← htake]
      · rw [List.flatten_cons, List.drop_append, List.drop_of_length_le hle, ← hdrop]
        rfl
    · rename_i hgt
      have hz : n-chunk.length = 0 := by omega
      simp only [List.flatten_cons, List.take_append, List.drop_append, hz, List.take_zero,
        List.drop_zero, List.append_nil, and_self]

end ProgSistema.Framing
