import ProgSistema.Lib.CRuntime

/-!
# Logs that hold their own offset

A mapped file begins with an `int`, the number of bytes of the log that
follows it. A record is appended behind the log if it fits, or else the log is
begun again. The offset is compared with the size of the file in mixed signed
and unsigned arithmetic.
-/

set_option autoImplicit false

namespace ProgSistema
open CRuntime

structure MappedFile where
  bytes : ℕ → UInt8
  size : ℕ

namespace MappedFile

def slice (f : MappedFile) (pos len : ℕ) : Bytes := (List.range' pos len).map f.bytes

theorem slice_append (f : MappedFile) (pos m n : ℕ) :
    f.slice pos (m+n) = f.slice pos m++f.slice (pos+m) n := by
  unfold slice
  rw [← List.map_append, List.range'_append_1]

theorem slice_congr {f g : MappedFile} {pos len : ℕ}
    (h : ∀ i, pos ≤ i → i < pos+len → f.bytes i = g.bytes i) :
    f.slice pos len = g.slice pos len := by
  apply List.map_congr_left
  intro i hi
  obtain ⟨hlow, hhigh⟩ := List.mem_range'_1.mp hi
  exact h i hlow hhigh

def offset (f : MappedFile) : ℤ := toInt (littleEndian (f.slice 0 4))

def storeOffset (x : ℤ) (f : MappedFile) : MappedFile :=
  let n := (x % 2^32).toNat
  { f with bytes := fun i => if i < 4 then UInt8.ofNat (n/256^i) else f.bytes i }

def memcpy (pos : ℤ) (b : Bytes) (f : MappedFile) : Except Fault MappedFile :=
  if 0 ≤ pos ∧ pos+b.length ≤ f.size then
    .ok { f with bytes := fun i =>
      if pos.toNat ≤ i ∧ i < pos.toNat+b.length then b.getD (i-pos.toNat) 0 else f.bytes i }
  else .error .outOfBounds

def ftruncate (n : ℕ) (f : MappedFile) : MappedFile where
  bytes i := if f.size ≤ i ∧ i < n then 0 else f.bytes i
  size := n

/-- A file that has its size already is left as it is. -/
theorem ftruncate_same (f : MappedFile) : f.ftruncate f.size = f := by
  have hbytes : (f.ftruncate f.size).bytes = f.bytes := by
    funext i
    exact if_neg (by omega)
  cases f
  exact congrArg (MappedFile.mk · _) hbytes

/-- A file of zeros holds the empty log. -/
theorem ftruncate_empty (f : MappedFile) (n : ℕ) (hsize : f.size = 0) (hn : 4 ≤ n) :
    (f.ftruncate n).offset = 0 := by
  have hzero : ∀ i, i < 4 → (f.ftruncate n).bytes i = 0 := by
    intro i hi
    exact if_pos ⟨by omega, by omega⟩
  have hslice : (f.ftruncate n).slice 0 4 = [0, 0, 0, 0] := by
    have hrange : List.range' 0 4 = [0, 1, 2, 3] := rfl
    rw [slice, hrange]
    simp [hzero]
  rw [offset, hslice]
  decide

theorem store_offset (f : MappedFile) (x : ℤ) (hlow : 0 ≤ x) (hhigh : x < 2^31) :
    (f.storeOffset x).offset = x := by
  obtain ⟨n, rfl⟩ := Int.eq_ofNat_of_zero_le hlow
  have hn : n < 2^31 := by omega
  have hmod : ((n : ℤ) % 2^32).toNat = n := by omega
  have hbytes : (f.storeOffset n).slice 0 4 =
      [UInt8.ofNat (n/256^0), UInt8.ofNat (n/256^1), UInt8.ofNat (n/256^2),
        UInt8.ofNat (n/256^3)] := by
    unfold slice storeOffset
    rw [hmod]
    rfl
  have hvalue : littleEndian ((f.storeOffset n).slice 0 4) = n := by
    rw [hbytes]
    simp only [littleEndian, List.foldr_cons, List.foldr_nil, UInt8.toNat_ofNat']
    omega
  rw [offset, hvalue]
  exact to_int_of_lt n hn

theorem store_offset_slice (f : MappedFile) (x : ℤ) {pos len : ℕ} (h : 4 ≤ pos) :
    (f.storeOffset x).slice pos len = f.slice pos len := by
  apply slice_congr
  intro i hi _
  exact if_neg (by omega)

/-- A copy behind the offset leaves the offset and what precedes the copy. -/
theorem memcpy_spec (f : MappedFile) (pos : ℕ) (b : Bytes) (hpos : 4 ≤ pos)
    (hfit : pos+b.length ≤ f.size) : ∃ g, f.memcpy pos b = .ok g ∧ g.size = f.size ∧
      g.offset = f.offset ∧ g.slice pos b.length = b ∧
      ∀ start len, start+len ≤ pos → g.slice start len = f.slice start len := by
  have hbefore : ∀ g : MappedFile, (∀ i, i < pos → g.bytes i = f.bytes i) → ∀ start len,
      start+len ≤ pos → g.slice start len = f.slice start len := by
    intro g hg start len hend
    exact slice_congr fun i _ hi => hg i (by omega)
  unfold memcpy
  rw [if_pos ⟨by omega, by omega⟩, Int.toNat_natCast]
  have hsame : ∀ i, i < pos → (if pos ≤ i ∧ i < pos+b.length then b.getD (i-pos) 0
      else f.bytes i) = f.bytes i := fun i hi => if_neg (by omega)
  refine ⟨_, rfl, rfl, ?_, ?_, hbefore _ hsame⟩
  · unfold offset
    rw [hbefore _ hsame 0 4 (by omega)]
  · unfold slice
    apply List.ext_getElem
    · simp
    · intro i hi _
      rw [List.length_map, List.length_range'] at hi
      simp [hi]

/-- `sizeof(int)+offset`, a `size_t` stored in an `int`. -/
def safeOffset (f : MappedFile) : ℤ := toInt (toSizeT (4+f.offset))

/-- The end of the record, an `int`, is compared with the size as a `size_t`. -/
def full (f : MappedFile) (recordLen : ℕ) : Bool :=
  toSizeT (toInt (f.safeOffset+toInt recordLen)) ≥ f.size

def place (f : MappedFile) (recordLen : ℕ) : ℤ × MappedFile :=
  if f.full recordLen then (4, f.storeOffset 0) else (f.safeOffset, f)

def append (record : Bytes) (f : MappedFile) : Except Fault MappedFile := do
  let (safeOffset, f) := f.place record.length
  let f ← f.memcpy safeOffset record
  return f.storeOffset (toInt (f.offset+toInt record.length))

structure LogOf (f : MappedFile) (content : Bytes) : Prop where
  low : 0 ≤ f.offset
  high : 4+f.offset < f.size
  content : f.slice 4 f.offset.toNat = content

theorem full_iff {f : MappedFile} {recordLen : ℕ} (hlow : 0 ≤ f.offset)
    (hhigh : 4+f.offset < f.size) (hsize : f.size < 2^31) (hlen : recordLen < f.size) :
    f.safeOffset = 4+f.offset ∧
      (f.full recordLen = true ↔ (f.size : ℤ) ≤ 4+f.offset+recordLen) := by
  have hsafe : f.safeOffset = 4+f.offset := by
    unfold safeOffset toSizeT toInt
    rw [Int.bmod_def]
    omega
  refine ⟨hsafe, ?_⟩
  unfold full
  rw [hsafe, to_int_of_lt _ (by omega), decide_eq_true_eq]
  unfold toSizeT toInt
  rw [Int.bmod_def]
  omega

/-- A record that fits an empty log is appended whole, to the log or to an
empty one, behind the offset and inside the file. -/
theorem append_spec {f : MappedFile} {content : Bytes} (h : LogOf f content) (record : Bytes)
    (hsize : f.size < 2^31) (hrecord : 4+record.length < f.size) :
    ∃ g, f.append record = .ok g ∧ g.size = f.size ∧
      LogOf g (if f.full record.length then record else content++record) ∧
      4 ≤ (f.place record.length).1 ∧ (f.place record.length).1+record.length < f.size := by
  obtain ⟨hlow, hhigh, hcontent⟩ := h
  obtain ⟨hsafe, hfull⟩ := full_iff hlow hhigh hsize (by omega : record.length < f.size)
  -- the file to which the record is appended, with the log that it holds
  have hplace : ∃ (g : MappedFile) (old : Bytes),
      f.place record.length = (((4+old.length : ℕ) : ℤ), g) ∧ g.size = f.size ∧
      g.offset = old.length ∧ g.slice 4 old.length = old ∧
      4+old.length+record.length < f.size ∧
      (if f.full record.length then record else content++record) = old++record := by
    unfold place
    by_cases hf : f.full record.length = true
    · rw [if_pos hf, if_pos hf]
      refine ⟨f.storeOffset 0, [], rfl, rfl, ?_, rfl, by simpa using hrecord, rfl⟩
      exact store_offset f 0 le_rfl (by decide)
    · rw [if_neg hf, if_neg hf, hsafe]
      have hlen : f.offset = content.length := by
        rw [← hcontent, slice, List.length_map, List.length_range']
        omega
      have hroom : ¬ (f.size : ℤ) ≤ 4+f.offset+record.length := fun hle => hf (hfull.mpr hle)
      refine ⟨f, content, ?_, rfl, hlen, ?_, by omega, rfl⟩
      · rw [hlen]
        rfl
      · rw [hlen] at hcontent
        exact hcontent
  obtain ⟨g, old, hpos, hgsize, hgoffset, hgslice, hfits, hnew⟩ := hplace
  obtain ⟨g', hcopy, hsize', hoffset', hslice', hbefore⟩ :=
    memcpy_spec g (4+old.length) record (by omega) (by omega)
  have hnext : toInt (g'.offset+toInt record.length) = (old++record).length := by
    rw [hoffset', hgoffset, to_int_of_lt _ (by omega), List.length_append, ← Nat.cast_add]
    exact to_int_of_lt _ (by omega)
  have hstored : (g'.storeOffset (old++record).length).offset = (old++record).length := by
    apply store_offset
    · exact Int.natCast_nonneg _
    · rw [List.length_append]
      omega
  have happend : f.append record = .ok (g'.storeOffset (old++record).length) := by
    unfold append
    rw [hpos]
    dsimp only
    rw [hcopy, ok_bind, hnext]
    rfl
  rw [happend, hpos, hnew]
  refine ⟨_, rfl, hsize'.trans hgsize, ⟨?_, ?_, ?_⟩, ?_, ?_⟩
  · rw [hstored]
    exact Int.natCast_nonneg _
  · rw [hstored, List.length_append]
    show _ < (g'.size : ℤ)
    omega
  · rw [hstored, Int.toNat_natCast, store_offset_slice _ _ le_rfl, List.length_append, slice_append,
      hbefore 4 old.length le_rfl, hgslice, hslice']
  · show (4 : ℤ) ≤ (4+old.length : ℕ)
    omega
  · show ((4+old.length : ℕ) : ℤ)+record.length < f.size
    omega

def Inside (size : ℕ) (w : ℤ × ℕ) : Prop := 4 ≤ w.1 ∧ w.1+w.2 ≤ size

instance (size : ℕ) (w : ℤ × ℕ) : Decidable (Inside size w) :=
  inferInstanceAs (Decidable (_ ∧ _))

theorem offset_range (f : MappedFile) : -2^31 ≤ f.offset ∧ f.offset < 2^31 := by
  unfold offset toInt
  rw [Int.bmod_def]
  omega

/-- Whether a log is begun again, for any offset that the file may hold. -/
theorem full_iff_of_any (f : MappedFile) {len : ℕ} (hsize : f.size < 2^63) (hlen : len < 2^30) :
    f.full len = true ↔ f.offset+4+len < 0 ∨ 2^31 ≤ f.offset+4+len ∨
      (f.size : ℤ) ≤ f.offset+4+len := by
  obtain ⟨hlow, hhigh⟩ := f.offset_range
  have hsum : toInt (f.safeOffset+toInt len) = toInt (f.offset+4+len) := by
    have hsafe : f.safeOffset = toInt (f.offset+4) := by
      unfold safeOffset toSizeT toInt
      simp only [Int.bmod_def]
      omega
    rw [to_int_of_lt len (by omega), hsafe]
    exact Int.bmod_add_bmod
  unfold full
  rw [hsum, decide_eq_true_eq]
  unfold toSizeT toInt
  rw [Int.bmod_def]
  omega

/-- No negative offset is checked for, and an empty log is taken to have room
for every record. -/
theorem place_inside_iff (f : MappedFile) {len : ℕ} (hsize : f.size < 2^63) (hlen : len < 2^30) :
    Inside f.size ((f.place len).1, len) ↔
      4+len ≤ f.size ∧ (0 ≤ f.offset ∨ f.offset+4+len < 0) := by
  obtain ⟨hlow, hhigh⟩ := f.offset_range
  have hfull := full_iff_of_any f hsize hlen
  unfold Inside place
  by_cases h : f.full len = true
  · rw [if_pos h]
    have hcases := hfull.mp h
    dsimp only
    omega
  · rw [if_neg h]
    have hroom := mt hfull.mpr h
    have hsafe : f.safeOffset = f.offset+4 := by
      unfold safeOffset toSizeT toInt
      rw [Int.bmod_def]
      omega
    dsimp only
    rw [hsafe]
    omega

/-- A record copied into the file leaves an offset that is not negative. -/
theorem append_inside (f : MappedFile) (record : Bytes) (hlen : record.length < 2^30)
    (h : Inside f.size ((f.place record.length).1, record.length)) (hsize : f.size < 2^63) :
    ∃ g, f.append record = .ok g ∧ g.size = f.size ∧ 0 ≤ g.offset := by
  obtain ⟨hlow, hhigh⟩ := f.offset_range
  have hfull := full_iff_of_any f hsize hlen
  have hinside := (place_inside_iff f hsize hlen).mp h
  -- the file to which the record is copied, and its offset
  have hplace : ∃ (g : MappedFile), (f.place record.length).2 = g ∧ g.size = f.size ∧
      0 ≤ g.offset ∧ g.offset+record.length < 2^31 := by
    unfold place
    by_cases hf : f.full record.length = true
    · rw [if_pos hf]
      have hzero : (f.storeOffset 0).offset = 0 := store_offset f 0 le_rfl (by decide)
      exact ⟨f.storeOffset 0, rfl, rfl, hzero.ge, by omega⟩
    · rw [if_neg hf]
      have hroom := mt hfull.mpr hf
      exact ⟨f, rfl, rfl, by omega, by omega⟩
  obtain ⟨g, hg, hgsize, hglow, hghigh⟩ := hplace
  obtain ⟨pos, hpos⟩ := Int.eq_ofNat_of_zero_le (by unfold Inside at h; omega :
    0 ≤ (f.place record.length).1)
  rw [hpos] at h
  obtain ⟨hstart, hend⟩ := h
  obtain ⟨g', hcopy, hsize', hoffset', -, -⟩ := memcpy_spec g pos record (by omega) (by omega)
  have hnext : toInt (g'.offset+toInt record.length) = g.offset+record.length := by
    rw [hoffset', to_int_of_lt _ (by omega)]
    exact (to_int_eq_iff _).mpr ⟨by omega, hghigh⟩
  have hwhere : f.place record.length = ((pos : ℤ), g) := Prod.ext hpos hg
  have happend : f.append record = .ok (g'.storeOffset (g.offset+record.length)) := by
    unfold append
    rw [hwhere]
    dsimp only
    rw [hcopy, ok_bind, hnext]
    rfl
  refine ⟨_, happend, hsize'.trans hgsize, ?_⟩
  rw [store_offset _ _ (by omega) hghigh]
  omega

end MappedFile

end ProgSistema
