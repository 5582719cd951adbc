import ProgSistema.HashedDatabase.Files

/-!
# Records at the ends of the files

A new record goes to the end of both files. Nothing is ever taken away, so that
the records found one after the other are those of all times before.
-/

set_option autoImplicit false

namespace ProgSistema.HashedDatabase
open CRuntime RecordLayout
variable {xs : List Entry} {ds : List Bytes} {idx dat : Bytes} {o : ℕ} {e : Entry} {σ : Slot}
  {next : ℕ → ℕ} {slot : ℕ → Option Slot}

theorem first_le (h : Stored xs ds idx dat) : firstRecord ≤ idx.length := by
  rcases h.start with heq | ⟨e, he⟩
  · exact heq.le
  · have hlt := get_lt he
    rw [← h.index] at hlt
    omega

theorem place_lt (h : Stored xs ds idx dat) (ho : get Entry.bytes xs o = some e) :
    o < idx.length := by
  have hlt := get_lt ho
  have hpos := bytes_pos e
  rw [← h.index] at hlt
  omega

theorem datoff_lt (h : Stored xs ds idx dat) (hσ : slotOf xs o = some σ) :
    σ.datoff < dat.length := by
  have hlt := get_lt (h.lines o σ hσ)
  have hpos := line_pos σ.data
  rw [← h.data] at hlt
  omega

theorem mapped_append (hm : Mapped idx dat next slot)
    (hfits : σ.Fits) (hoff : σ.datoff = dat.length) {v : ℕ} (hv : (v : ℤ) ≤ ptrMax) :
    Mapped (idx++(field ptrSz v++field idxlenSz σ.text.length++σ.text)) (dat++line σ.data)
      (Function.update next idx.length v) (Function.update slot idx.length (some σ)) := by
  obtain ⟨xs, ds, h, rfl, rfl⟩ := hm
  let e : Entry := { next := v, tail := .slot σ }
  have heσ : e.slot? = some σ := rfl
  have hefits : e.Fits := ⟨hv, fun τ hτ => Option.some.inj hτ ▸ hfits⟩
  have hget : get Entry.bytes (xs++[e]) =
      Function.update (get Entry.bytes xs) idx.length (some e) := by
    rw [h.index]
    exact get_append bytes_pos xs e
  have hline : get line (ds++[σ.data]) =
      Function.update (get line ds) dat.length (some σ.data) := by
    rw [h.data]
    exact get_append line_pos ds σ.data
  have hslot : slotOf (xs++[e]) = Function.update (slotOf xs) idx.length (some σ) :=
    slot_update hget
  have hold : ∀ o' τ, o' ≠ idx.length → slotOf (xs++[e]) o' = some τ → slotOf xs o' = some τ := by
    intro o' τ ho hτ
    rwa [hslot, Function.update_of_ne ho] at hτ
  have hnew : ∀ τ, slotOf (xs++[e]) idx.length = some τ → τ = σ := by
    intro τ hτ
    rw [hslot, Function.update_self] at hτ
    exact (Option.some.inj hτ).symm
  refine ⟨xs++[e], ds++[σ.data], ⟨?_, ?_, ?_, ?_, ?_, ?_, ?_, ?_, ?_, ?_⟩, next_update hget, hslot⟩
  · rw [image_append, image_cons, image_nil, List.append_nil, slot_bytes heσ, ← h.index]
  · rw [image_append, image_cons, image_nil, List.append_nil, ← h.data]
  · intro x hx
    rcases List.mem_append.mp hx with hx | hx
    · exact h.fits x hx
    · rw [List.mem_singleton.mp hx]
      exact hefits
  · intro j hj
    obtain ⟨x, hx⟩ := h.heads j hj
    have hlt := place_lt h hx
    exact ⟨x, by rw [hget, Function.update_of_ne (by omega), hx]⟩
  · intro o' x hx
    rw [hget] at hx
    by_cases ho : o' = idx.length
    · rw [ho, Function.update_self] at hx
      rw [← Option.some.inj hx, ho, heσ]
      exact iff_of_true rfl (first_le h)
    · rw [Function.update_of_ne ho] at hx
      exact h.shape o' x hx
  · intro o' τ hτ
    rw [hline]
    by_cases ho : o' = idx.length
    · rw [hnew τ (ho ▸ hτ), hoff, Function.update_self]
    · have hτ' := hold o' τ ho hτ
      rw [Function.update_of_ne (datoff_lt h hτ').ne]
      exact h.lines o' τ hτ'
  · intro o₁ o₂ σ₁ σ₂ h₁ h₂ hsame
    by_cases ho₁ : o₁ = idx.length <;> by_cases ho₂ : o₂ = idx.length
    · rw [ho₁, ho₂]
    · have hlt := datoff_lt h (hold o₂ σ₂ ho₂ h₂)
      rw [hnew σ₁ (ho₁ ▸ h₁)] at hsame
      omega
    · have hlt := datoff_lt h (hold o₁ σ₁ ho₁ h₁)
      rw [hnew σ₂ (ho₂ ▸ h₂)] at hsame
      omega
    · exact h.apart o₁ o₂ σ₁ σ₂ (hold o₁ σ₁ ho₁ h₁) (hold o₂ σ₂ ho₂ h₂) hsame
  · right
    rw [hget]
    rcases h.start with heq | ⟨x, hx⟩
    · exact ⟨e, by rw [heq, Function.update_self]⟩
    · exact ⟨x, by rw [Function.update_of_ne (place_lt h hx).ne, hx]⟩
  · rw [List.length_append, List.length_append, List.length_singleton, List.length_singleton,
      h.count]
    omega
  · intro d hd
    rcases List.mem_append.mp hd with hd | hd
    · exact h.short d hd
    · rw [List.mem_singleton.mp hd, line_length]
      exact hfits.datlen

/-- The data file is bounded by the index file. -/
theorem dat_length_le (hm : Mapped idx dat next slot) :
    ptrSz*dat.length ≤ datlenMax*idx.length := by
  obtain ⟨xs, ds, h, -, -⟩ := hm
  have hidx : ptrSz*xs.length ≤ idx.length := by
    rw [h.index]
    refine length_le_image (fun e => ?_) xs
    have hle := le_field_length ptrSz e.next
    rw [Entry.bytes, List.length_append]
    omega
  have hdat : dat.length ≤ datlenMax*ds.length := by
    rw [h.data]
    exact image_length_le h.short
  have hcount := h.count
  calc ptrSz*dat.length ≤ ptrSz*(datlenMax*ds.length) := Nat.mul_le_mul_left _ hdat
    _ = datlenMax*(ptrSz*ds.length) := by ring
    _ ≤ datlenMax*(ptrSz*xs.length) :=
      Nat.mul_le_mul_left _ (Nat.mul_le_mul_left _ (by omega))
    _ ≤ datlenMax*idx.length := Nat.mul_le_mul_left _ hidx

theorem append_record_eq {s : State} (hm : Mapped s.idx s.dat next slot) {key data : Bytes}
    (hfits : Slot.Fits ⟨key, data, s.dat.length⟩) {ptrval chain : ℕ} (hptr : (ptrval : ℤ) ≤ ptrMax)
    (hchain : Place slot chain) (hoff : s.db.chainoff = chain)
    (hroom : (s.idx.length : ℤ) ≤ ptrMax) : ∃ s',
    appendRecord key data ptrval s = .ok s' ∧
    Mapped s'.idx s'.dat
      (Function.update (Function.update next s.idx.length ptrval) chain s.idx.length)
      (Function.update slot s.idx.length (some ⟨key, data, s.dat.length⟩)) ∧
    s'.dat = s.dat++line data := by
  let σ : Slot := ⟨key, data, s.dat.length⟩
  have hlow : idxlenMin ≤ σ.text.length := hfits.low
  have hhigh : σ.text.length ≤ idxlenMax := hfits.high
  have hplaces := place_update s.idx.length σ hchain
  let s₁ : State := { s with
    dat := s.dat++line data
    db := { s.db with datoff := s.dat.length, datlen := σ.datlen } }
  have hdat : writeDat data 0 .seekEnd s = .ok s₁ := by
    simp only [writeDat, lseek, Int.add_zero, Int.toNat_natCast, pwrite_end]
    rw [if_neg (by omega)]
    rfl
  let s₂ : State := { s₁ with
    idx := s.idx++(field ptrSz ptrval++field idxlenSz σ.text.length++σ.text)
    db := { s₁.db with
      position := s.idx.length+(ptrSz+idxlenSz+σ.text.length), idxbuf := σ.text,
      idxoff := s.idx.length, ptrval := ptrval } }
  have hidx : writeIdx key 0 .seekEnd ptrval s₁ = .ok s₂ := by
    have htext : record key s₁.db.datoff s₁.db.datlen = σ.text := rfl
    simp only [writeIdx, htext, lseek, Int.add_zero, Int.toNat_natCast, pwrite_end]
    rw [if_neg (by omega), if_neg (by omega), if_neg (by omega)]
  have hm₂ : Mapped s₂.idx s₂.dat (Function.update next s.idx.length ptrval)
      (Function.update slot s.idx.length (some σ)) := mapped_append hm hfits rfl hptr
  have hlength : s₂.db.idxoff = s.idx.length := rfl
  obtain ⟨idx', hwrite, -, hm'⟩ := write_ptr_eq (s := s₂) hm₂ hplaces hoff hroom
  refine ⟨{ s₂ with idx := idx', db.position := chain+ptrSz }, ?_, hm', rfl⟩
  rw [appendRecord, hdat, ok_bind, hidx, ok_bind, hlength]
  exact hwrite

/-- What the checks on the way ensure. -/
theorem append_record_ok {s s' : State} {key data : Bytes} {ptrval : ℤ}
    (h : appendRecord key data ptrval s = .ok s') :
    idxlenMin ≤ (Slot.text ⟨key, data, s.dat.length⟩).length ∧
    (Slot.text ⟨key, data, s.dat.length⟩).length ≤ idxlenMax ∧ (s.idx.length : ℤ) ≤ ptrMax := by
  obtain ⟨s₁, hdat, h⟩ := bind_ok_cases h
  obtain ⟨s₂, hidx, hptr⟩ := bind_ok_cases h
  simp only [writeDat, lseek, Int.add_zero] at hdat
  rw [if_neg (by omega)] at hdat
  cases hdat
  have htext : record key (s.dat.length : ℤ) (data.length+1) =
      Slot.text ⟨key, data, s.dat.length⟩ := rfl
  simp only [writeIdx, lseek, Int.add_zero, htext] at hidx
  split_ifs at hidx with hptr hlen hoff
  cases hidx
  simp only [writePtr] at hptr
  split_ifs at hptr with hroom
  omega

/-! The files as `dbOpen` makes them. -/

def startEntries : List Entry := List.replicate nhashDef ⟨0, .nothing⟩++[⟨0, .newline⟩]

theorem start_entry {e : Entry} (h : e ∈ startEntries) : e.next = 0 ∧ e.slot? = none := by
  rcases List.mem_append.mp h with h | h
  · rw [List.eq_of_mem_replicate h]
    exact ⟨rfl, rfl⟩
  · rw [List.mem_singleton.mp h]
    exact ⟨rfl, rfl⟩

theorem start_image : image Entry.bytes startEntries = chainPointers := by
  have hnothing : ∀ n, image Entry.bytes (List.replicate n ⟨0, .nothing⟩) =
      (List.replicate n (field ptrSz 0)).flatten := by
    intro n
    induction n with
    | zero => rfl
    | succ n ih =>
      rw [List.replicate_succ, List.replicate_succ, image_cons, ih, List.flatten_cons]
      congr 1
  rw [startEntries, image_append, hnothing, chainPointers, List.replicate_succ',
    List.flatten_append, List.append_assoc]
  have hlast : image Entry.bytes [⟨0, .newline⟩] = [field ptrSz 0].flatten++[newline] := by decide
  rw [hlast]

theorem start_length : chainPointers.length = firstRecord := by
  rw [← start_image, startEntries, image_append, List.length_append, image_replicate_length]
  decide

theorem stored_start : Stored startEntries [] chainPointers [] := by
  have hnone : ∀ o, slotOf startEntries o = none := by
    intro o
    cases h : get Entry.bytes startEntries o with
    | none => rw [slotOf, h, Option.bind_none]
    | some e => rw [slot_of_get h, (start_entry (get_mem h)).2]
  have hcount : startEntries.length = 0+(nhashDef+1) := by
    rw [startEntries, List.length_append, List.length_replicate, Nat.zero_add]
    rfl
  refine ⟨start_image.symm, rfl, ?_, ?_, ?_, ?_, ?_, Or.inl start_length.symm, hcount, ?_⟩
  · intro e he
    obtain ⟨hnext, hslot⟩ := start_entry he
    refine ⟨by rw [hnext]; decide, fun σ hσ => ?_⟩
    rw [hslot] at hσ
    cases hσ
  · intro j hj
    have hlen : (Entry.bytes ⟨0, .nothing⟩).length = ptrSz := rfl
    have hplace : (image Entry.bytes (List.replicate j ⟨0, .nothing⟩)).length = j*ptrSz := by
      rw [image_replicate_length, hlen]
    obtain ⟨k, hk⟩ := Nat.exists_eq_add_of_le hj
    rw [← hplace, startEntries, hk, List.replicate_add, List.append_assoc]
    cases k with
    | zero => exact ⟨_, get_split bytes_pos _ [] _⟩
    | succ k =>
      rw [List.replicate_succ, List.cons_append]
      exact ⟨_, get_split bytes_pos _ _ _⟩
  · intro o e he
    have hlt := get_lt he
    have hpos := bytes_pos e
    rw [start_image, start_length] at hlt
    rw [(start_entry (get_mem he)).2]
    exact iff_of_false Bool.false_ne_true (by omega)
  · intro o σ hσ
    rw [hnone] at hσ
    cases hσ
  · intro o o' σ σ' hσ
    rw [hnone] at hσ
    cases hσ
  · intro d hd
    cases hd

theorem mapped_start : Mapped chainPointers [] (fun _ => 0) (fun _ => none) := by
  refine ⟨startEntries, [], stored_start, ?_, ?_⟩
  · ext1 o
    rw [nextOf]
    cases h : get Entry.bytes startEntries o with
    | none => rfl
    | some e => exact (start_entry (get_mem h)).1
  · ext1 o
    cases h : get Entry.bytes startEntries o with
    | none => rw [slotOf, h, Option.bind_none]
    | some e => rw [slot_of_get h, (start_entry (get_mem h)).2]

end ProgSistema.HashedDatabase
