import ProgSistema.HashedDatabase.Format

/-!
# What the single accesses do to pointers and slots

The two files are seen as a function from places to chain pointers and one from
places to slots. A write changes them at one place.
-/

set_option autoImplicit false

namespace ProgSistema.HashedDatabase
open CRuntime RecordLayout

def firstRecord : ℕ := (nhashDef+1)*ptrSz+1

def nextOf (xs : List Entry) (o : ℕ) : ℕ :=
  match get Entry.bytes xs o with
  | some e => e.next
  | none => 0

def slotOf (xs : List Entry) (o : ℕ) : Option Slot := (get Entry.bytes xs o).bind Entry.slot?

structure Stored (xs : List Entry) (ds : List Bytes) (idx dat : Bytes) : Prop where
  index : idx = image Entry.bytes xs
  data : dat = image line ds
  fits : ∀ e ∈ xs, e.Fits
  heads : ∀ j ≤ nhashDef, ∃ e, get Entry.bytes xs (j*ptrSz) = some e
  shape : ∀ o e, get Entry.bytes xs o = some e → (e.slot?.isSome = true ↔ firstRecord ≤ o)
  lines : ∀ o σ, slotOf xs o = some σ → get line ds σ.datoff = some σ.data
  apart : ∀ o o' σ σ', slotOf xs o = some σ → slotOf xs o' = some σ' → σ.datoff = σ'.datoff →
    o = o'
  start : firstRecord = idx.length ∨ ∃ e, get Entry.bytes xs firstRecord = some e
  count : xs.length = ds.length+(nhashDef+1)
  short : ∀ d ∈ ds, (line d).length ≤ datlenMax

def Mapped (idx dat : Bytes) (next : ℕ → ℕ) (slot : ℕ → Option Slot) : Prop :=
  ∃ xs ds, Stored xs ds idx dat ∧ nextOf xs = next ∧ slotOf xs = slot

def Place (slot : ℕ → Option Slot) (o : ℕ) : Prop :=
  (∃ j ≤ nhashDef, o = j*ptrSz) ∨ ∃ σ, slot o = some σ

variable {xs : List Entry} {ds : List Bytes} {idx dat : Bytes} {o : ℕ} {e e' : Entry}
  {σ : Slot}

theorem next_of_get (h : get Entry.bytes xs o = some e) : nextOf xs o = e.next := by
  rw [nextOf, h]

theorem slot_of_get (h : get Entry.bytes xs o = some e) : slotOf xs o = e.slot? := by
  rw [slotOf, h]
  rfl

theorem get_of_slot (h : slotOf xs o = some σ) :
    ∃ e, get Entry.bytes xs o = some e ∧ e.slot? = some σ := by
  rw [slotOf, Option.bind_eq_some_iff] at h
  exact h

theorem next_update {ys : List Entry}
    (h : get Entry.bytes ys = Function.update (get Entry.bytes xs) o (some e)) :
    nextOf ys = Function.update (nextOf xs) o e.next := by
  ext1 o'
  rw [nextOf, h]
  by_cases ho : o' = o
  · rw [ho, Function.update_self, Function.update_self]
  · rw [Function.update_of_ne ho, Function.update_of_ne ho, nextOf]

theorem slot_update {ys : List Entry}
    (h : get Entry.bytes ys = Function.update (get Entry.bytes xs) o (some e)) :
    slotOf ys = Function.update (slotOf xs) o e.slot? := by
  ext1 o'
  rw [slotOf, h]
  by_cases ho : o' = o
  · rw [ho, Function.update_self, Function.update_self]
    rfl
  · rw [Function.update_of_ne ho, Function.update_of_ne ho, slotOf]

theorem next_put (h : get Entry.bytes xs o = some e)
    (hlen : e'.bytes.length = e.bytes.length) :
    nextOf (put Entry.bytes xs o e') = Function.update (nextOf xs) o e'.next :=
  next_update (get_put bytes_pos h hlen)

theorem slot_put (h : get Entry.bytes xs o = some e)
    (hlen : e'.bytes.length = e.bytes.length) :
    slotOf (put Entry.bytes xs o e') = Function.update (slotOf xs) o e'.slot? :=
  slot_update (get_put bytes_pos h hlen)

/-- One entry is replaced by one of the same length with its data in the same place. -/
theorem stored_put (ds' : List Bytes) (h : Stored xs ds idx dat)
    (ho : get Entry.bytes xs o = some e) (hfits : e'.Fits) (hlen : e'.bytes.length = e.bytes.length)
    (hoff : e'.slot?.map Slot.datoff = e.slot?.map Slot.datoff) (hds : ds'.length = ds.length)
    (hshort : ∀ d ∈ ds', (line d).length ≤ datlenMax)
    (hlines : ∀ o' σ, slotOf (put Entry.bytes xs o e') o' = some σ →
      get line ds' σ.datoff = some σ.data) :
    Stored (put Entry.bytes xs o e') ds' (image Entry.bytes (put Entry.bytes xs o e'))
      (image line ds') := by
  have hget := get_put bytes_pos ho hlen
  have hsome : e'.slot?.isSome = e.slot?.isSome := by
    rw [← Option.isSome_map (f := Slot.datoff), hoff, Option.isSome_map]
  have hback : ∀ o' σ', slotOf (put Entry.bytes xs o e') o' = some σ' →
      ∃ σ, slotOf xs o' = some σ ∧ σ.datoff = σ'.datoff := by
    intro o' σ' hσ'
    rw [slot_put ho hlen] at hσ'
    by_cases ho' : o' = o
    · rw [ho', Function.update_self] at hσ'
      rw [hσ', Option.map_some] at hoff
      obtain ⟨σ, hσ, hsame⟩ := Option.map_eq_some_iff.mp hoff.symm
      exact ⟨σ, by rw [ho', slot_of_get ho, hσ], hsame⟩
    · rw [Function.update_of_ne ho'] at hσ'
      exact ⟨σ', hσ', rfl⟩
  refine ⟨rfl, rfl, ?_, ?_, ?_, hlines, ?_, ?_, ?_, hshort⟩
  · intro x hx
    rcases mem_put hx with rfl | hx
    · exact hfits
    · exact h.fits x hx
  · intro j hj
    rw [hget]
    by_cases heq : j*ptrSz = o
    · exact ⟨e', by rw [heq, Function.update_self]⟩
    · rw [Function.update_of_ne heq]
      exact h.heads j hj
  · intro o' x hx
    rw [hget] at hx
    by_cases heq : o' = o
    · rw [heq, Function.update_self] at hx
      rw [← Option.some.inj hx, hsome, heq]
      exact h.shape o e ho
    · rw [Function.update_of_ne heq] at hx
      exact h.shape o' x hx
  · intro o₁ o₂ σ₁ σ₂ h₁ h₂ hsame
    obtain ⟨τ₁, ht₁, heq₁⟩ := hback o₁ σ₁ h₁
    obtain ⟨τ₂, ht₂, heq₂⟩ := hback o₂ σ₂ h₂
    exact h.apart o₁ o₂ τ₁ τ₂ ht₁ ht₂ (by rw [heq₁, heq₂, hsame])
  · have hstart := h.start
    rw [h.index] at hstart
    rw [image_put_length bytes_pos ho hlen, hget]
    by_cases heq : firstRecord = o
    · exact Or.inr ⟨e', by rw [heq, Function.update_self]⟩
    · rw [Function.update_of_ne heq]
      exact hstart
  · rw [put_length, hds]
    exact h.count

theorem place_update {slot : ℕ → Option Slot} (i : ℕ) (σ : Slot) (ho : Place slot o) :
    Place (Function.update slot i (some σ)) o := by
  refine ho.imp_right fun ⟨τ, hτ⟩ => ?_
  by_cases hi : o = i
  · exact ⟨σ, by rw [hi, Function.update_self]⟩
  · exact ⟨τ, by rw [Function.update_of_ne hi, hτ]⟩

theorem place_get (h : Stored xs ds idx dat) (ho : Place (slotOf xs) o) :
    ∃ e, get Entry.bytes xs o = some e := by
  rcases ho with ⟨j, hj, rfl⟩ | ⟨σ, hσ⟩
  · exact h.heads j hj
  · obtain ⟨e, he, -⟩ := get_of_slot hσ
    exact ⟨e, he⟩

/-! Pointers. -/

variable {s : State} {next : ℕ → ℕ} {slot : ℕ → Option Slot} {p : ℤ}

theorem read_ptr_eq (hm : Mapped s.idx s.dat next slot) (ho : Place slot o) (hoff : p = o) :
    readPtr p s = .ok (next o, { s with db.position := o+ptrSz }) := by
  obtain ⟨xs, ds, h, rfl, rfl⟩ := hm
  obtain ⟨e, he⟩ := place_get h ho
  have hfits := h.fits e (get_mem he)
  have hlen := pointer_length hfits.pointer
  have hread : pread s.idx o ptrSz = field ptrSz e.next := by
    have hle := le_field_length ptrSz e.next
    have hpread := pread_image he (i := 0) (k := ptrSz) (by
      rw [Entry.bytes, List.length_append]
      omega)
    rw [h.index]
    refine hpread.trans ?_
    rw [pread, List.drop_zero, Entry.bytes, List.take_append_of_le_length hle,
      List.take_of_length_le hlen.le]
  have hbound : e.next < 2^63 := by
    have hptr := hfits.pointer
    have hmax : ptrMax < 2^63 := by decide
    omega
  have hnat : p.toNat = o := by rw [hoff, Int.toNat_natCast]
  rw [readPtr, if_neg (by omega), hnat, hread, if_neg (by rw [hlen]; exact fun hne => hne rfl),
    atoll_field ptrSz hbound, next_of_get he]

theorem write_ptr_eq (hm : Mapped s.idx s.dat next slot) (ho : Place slot o) (hoff : p = o)
    {v : ℕ} (hv : (v : ℤ) ≤ ptrMax) : ∃ idx',
    writePtr p v s = .ok { s with idx := idx', db.position := o+ptrSz } ∧
    idx'.length = s.idx.length ∧ Mapped idx' s.dat (Function.update next o v) slot := by
  obtain ⟨xs, ds, h, rfl, rfl⟩ := hm
  obtain ⟨e, he⟩ := place_get h ho
  have hfits := h.fits e (get_mem he)
  let e' : Entry := { e with next := v }
  have hfits' : e'.Fits := ⟨hv, hfits.slot⟩
  have holdlen := pointer_length hfits.pointer
  have hnewlen : (field ptrSz v).length = ptrSz := pointer_length hv
  have hlen : e'.bytes.length = e.bytes.length := by
    rw [Entry.bytes, Entry.bytes, List.length_append, List.length_append, hnewlen, holdlen]
  have hslot : slotOf (put Entry.bytes xs o e') = slotOf xs := by
    rw [slot_put he hlen, show e'.slot? = slotOf xs o from (slot_of_get he).symm,
      Function.update_eq_self]
  have hstored := stored_put ds h he hfits' hlen rfl rfl h.short (by
    rw [hslot]
    exact h.lines)
  have hwrite : pwrite s.idx o (field ptrSz v) = image Entry.bytes (put Entry.bytes xs o e') := by
    rw [h.index]
    refine pwrite_image bytes_pos he ?_ ?_
    · rw [Entry.bytes, List.length_append]
      omega
    · rw [hnewlen, Entry.bytes, Entry.bytes, List.drop_left' holdlen]
  have hnat : p.toNat = o := by rw [hoff, Int.toNat_natCast]
  refine ⟨image Entry.bytes (put Entry.bytes xs o e'), ?_, ?_, ?_⟩
  · rw [writePtr, if_neg (by omega), if_neg (by omega), hnat, hwrite]
  · rw [image_put_length bytes_pos he hlen, h.index]
  · exact ⟨_, ds, h.data ▸ hstored, next_put he hlen, hslot⟩

/-! Index records. -/

def State.loaded (s : State) (o ptrval : ℕ) (σ : Slot) : State := { s with db := { s.db with
  position := o+σ.size, idxbuf := σ.key, idxoff := o, idxlen := σ.text.length,
  datoff := σ.datoff, datlen := σ.datlen, ptrval := ptrval } }

theorem read_idx_eq (hm : Mapped s.idx s.dat next slot) (hσ : slot o = some σ)
    (hoff : (if p = 0 then (s.db.position : ℤ) else p) = o) :
    readIdx p s = .ok (next o, s.loaded o (next o) σ) := by
  obtain ⟨xs, ds, h, rfl, rfl⟩ := hm
  obtain ⟨e, he, heσ⟩ := get_of_slot hσ
  have hfits := h.fits e (get_mem he)
  have hslot := hfits.slot σ heσ
  have hbytes := slot_bytes heσ
  have hsize := slot_bytes_length hfits heσ
  have hptr := pointer_length hfits.pointer
  have hlen := length_length hslot.high
  have hhead : (field ptrSz e.next++field idxlenSz σ.text.length).length = ptrSz+idxlenSz := by
    rw [List.length_append, hptr, hlen]
  have hfront : pread s.idx o (ptrSz+idxlenSz) =
      field ptrSz e.next++field idxlenSz σ.text.length := by
    have hpread := pread_image he (i := 0) (k := ptrSz+idxlenSz) (by rw [hsize, Slot.size]; omega)
    rw [h.index]
    refine hpread.trans ?_
    rw [pread, List.drop_zero, hbytes, ← hhead, List.take_left]
  have hrecord : pread s.idx (o+(ptrSz+idxlenSz)) σ.text.length = σ.text := by
    rw [h.index, pread_image he (by rw [hsize, Slot.size]), pread, hbytes, ← hhead,
      List.drop_left, List.take_length]
  have hbound : e.next < 2^63 := by
    have hpointer := hfits.pointer
    have hmax : ptrMax < 2^63 := by decide
    omega
  have hmax : idxlenMax = 1024 := rfl
  have hhigh := hslot.high
  have hlow := hslot.low
  have hidxlen : toSizeT (toInt (atoll (cstr (field idxlenSz σ.text.length)))) = σ.text.length := by
    rw [atoll_field idxlenSz (by omega), to_int_of_lt _ (by omega), to_size_t_nat (by omega)]
  have hposition : o+(ptrSz+idxlenSz)+σ.text.length = o+σ.size := Nat.add_assoc ..
  simp only [readIdx, hoff]
  rw [if_neg (by omega), Int.toNat_natCast, hfront]
  rw [if_neg (not_not.mpr hhead), List.take_left' hptr, List.drop_left' hptr, hidxlen,
    if_neg (by omega), hrecord, if_neg (not_not.mpr rfl), if_neg (not_not.mpr (text_last σ)),
    split_text hslot, ok_bind, atoll_field ptrSz hbound, next_of_get he, hposition]
  rfl

/-- At the end of the file a record can only be missed. -/
theorem read_idx_end (hend : s.db.position = s.idx.length) :
    readIdx 0 s = .ok (-1, { s with db.idxoff := s.idx.length }) := by
  simp only [readIdx, hend, if_true]
  rw [if_neg (by omega), Int.toNat_natCast, pread_end, if_pos (by decide),
    if_pos ⟨rfl, trivial⟩]

/-! Data and the slots that have it. -/

theorem read_dat_eq (hm : Mapped s.idx s.dat next slot) (hσ : slot o = some σ)
    (hoff : s.db.datoff = σ.datoff) (hlen : s.db.datlen = σ.datlen) :
    readDat s = .ok (σ.data, { s with db.datbuf := σ.data }) := by
  obtain ⟨xs, ds, h, rfl, rfl⟩ := hm
  obtain ⟨e, he, heσ⟩ := get_of_slot hσ
  have hslot := (h.fits e (get_mem he)).slot σ heσ
  have hline := h.lines o σ hσ
  have hlinelen : (line σ.data).length = σ.datlen := line_length σ.data
  have hread : pread s.dat σ.datoff σ.datlen = line σ.data := by
    rw [h.data, ← Nat.add_zero σ.datoff, pread_image hline (by omega), pread, List.drop_zero,
      List.take_of_length_le hlinelen.le]
  have hlast : (line σ.data).getLast? = some newline := List.getLast?_concat
  have hdrop : cstr (line σ.data).dropLast = σ.data := by
    rw [line, List.dropLast_concat, cstr_of_no_nul _ hslot.dataNoNul]
  simp only [readDat, hoff, hlen, Int.toNat_natCast, hread]
  rw [if_neg (by omega), if_neg (not_not.mpr hlinelen), if_neg (not_not.mpr hlast), hdrop]

/-- Data of the same length over that of a slot. -/
theorem write_dat_eq (hm : Mapped s.idx s.dat next slot) (hσ : slot o = some σ) (data : Bytes)
    (hlen : data.length = σ.data.length) (hno : 0 ∉ data) (hoff : p = σ.datoff) : ∃ dat',
    writeDat data p .seekSet s = .ok { s with
      dat := dat', db := { s.db with datoff := σ.datoff, datlen := σ.datlen } } ∧
    dat'.length = s.dat.length ∧
    Mapped s.idx dat' next (Function.update slot o (some { σ with data := data })) := by
  obtain ⟨xs, ds, h, rfl, rfl⟩ := hm
  obtain ⟨e, he, heσ⟩ := get_of_slot hσ
  have hfits := h.fits e (get_mem he)
  have hslot := hfits.slot σ heσ
  let σ' : Slot := { σ with data := data }
  let e' : Entry := { e with tail := .slot σ' }
  have heσ' : e'.slot? = some σ' := rfl
  have hdatlen : σ'.datlen = σ.datlen := congrArg (·+1) hlen
  have htext : σ'.text = σ.text := by
    rw [Slot.text, Slot.text, hdatlen]
  have hfits' : e'.Fits := by
    refine ⟨hfits.pointer, fun τ hτ => ?_⟩
    obtain rfl := Option.some.inj hτ
    exact ⟨hslot.noSep, hslot.keyNoNul, hno, htext ▸ hslot.low, htext ▸ hslot.high,
      hdatlen ▸ hslot.datlen, hslot.offset⟩
  have hbytes : e'.bytes = e.bytes := by
    rw [slot_bytes heσ, slot_bytes heσ', htext]
  have hline := h.lines o σ hσ
  have hlinelen : (line data).length = (line σ.data).length := by
    rw [line_length, line_length, hlen]
  have hget := get_put line_pos hline hlinelen
  have hstored := stored_put (put line ds σ.datoff data) h he hfits'
    (congrArg List.length hbytes) (by rw [heσ, heσ']; rfl) (put_length ds _ data) (by
      intro d hd
      rcases mem_put hd with rfl | hd
      · rw [hlinelen]
        exact h.short _ (get_mem hline)
      · exact h.short d hd) (by
      intro o' τ hτ
      rw [slot_put he (congrArg List.length hbytes)] at hτ
      by_cases ho : o' = o
      · rw [ho, Function.update_self] at hτ
        obtain rfl := Option.some.inj hτ
        rw [hget, show σ'.datoff = σ.datoff from rfl, Function.update_self]
      · rw [Function.update_of_ne ho] at hτ
        rw [hget, Function.update_of_ne fun hsame => ho (h.apart o' o τ σ hτ hσ hsame)]
        exact h.lines o' τ hτ)
  have hwrite : pwrite s.dat σ.datoff (line data) = image line (put line ds σ.datoff data) := by
    rw [h.data]
    refine pwrite_image line_pos hline hlinelen.le ?_
    rw [hlinelen, List.drop_length, List.append_nil]
  refine ⟨image line (put line ds σ.datoff data), ?_, ?_, ?_⟩
  · simp only [writeDat, lseek, hoff, Int.toNat_natCast]
    rw [if_neg (by omega), ← line, hwrite, show data.length+1 = σ.datlen from hdatlen]
  · rw [image_put_length line_pos hline hlinelen, h.data]
  · rw [image_put bytes_pos he hbytes, ← h.index] at hstored
    refine ⟨_, _, hstored, ?_, slot_put he (congrArg List.length hbytes)⟩
    rw [next_put he (congrArg List.length hbytes), ← next_of_get he, Function.update_eq_self]

/-- A key of the same length over that of a slot, with another pointer. -/
theorem write_idx_eq (hm : Mapped s.idx s.dat next slot) (hσ : slot o = some σ) (key : Bytes)
    (hlen : key.length = σ.key.length) (hsep : sep ∉ key) (hno : 0 ∉ key) {v : ℕ}
    (hv : (v : ℤ) ≤ ptrMax) (hoff : p = o) (hdatoff : s.db.datoff = σ.datoff)
    (hdatlen : s.db.datlen = σ.datlen) : ∃ idx',
    writeIdx key p .seekSet v s = .ok { s with idx := idx', db := { s.db with
      position := o+σ.size, idxbuf := Slot.text { σ with key := key }, idxoff := o,
      ptrval := v } } ∧
    idx'.length = s.idx.length ∧ Mapped idx' s.dat (Function.update next o v)
      (Function.update slot o (some { σ with key := key })) := by
  obtain ⟨xs, ds, h, rfl, rfl⟩ := hm
  obtain ⟨e, he, heσ⟩ := get_of_slot hσ
  have hfits := h.fits e (get_mem he)
  have hslot := hfits.slot σ heσ
  let σ' : Slot := { σ with key := key }
  let e' : Entry := { next := v, tail := .slot σ' }
  have heσ' : e'.slot? = some σ' := rfl
  have htext : σ'.text.length = σ.text.length := by
    rw [text_length, text_length]
    exact congrArg (·+(decimal σ.datoff).length+(decimal σ.datlen).length+3) hlen
  have hlow := hslot.low
  have hhigh := hslot.high
  have hfits' : e'.Fits := by
    refine ⟨hv, fun τ hτ => ?_⟩
    obtain rfl := Option.some.inj hτ
    exact ⟨hsep, hno, hslot.dataNoNul, htext ▸ hlow, htext ▸ hhigh, hslot.datlen, hslot.offset⟩
  have hsize : σ'.size = σ.size := by
    rw [Slot.size, Slot.size, htext]
  have hbytes : e'.bytes.length = e.bytes.length := by
    rw [slot_bytes_length hfits heσ, slot_bytes_length hfits' heσ', hsize]
  have hstored := stored_put ds h he hfits' hbytes (by rw [heσ, heσ']; rfl) rfl h.short (by
    intro o' τ hτ
    rw [slot_put he hbytes] at hτ
    by_cases ho : o' = o
    · rw [ho, Function.update_self] at hτ
      obtain rfl := Option.some.inj hτ
      exact h.lines o σ hσ
    · rw [Function.update_of_ne ho] at hτ
      exact h.lines o' τ hτ)
  have hwrite : pwrite s.idx o e'.bytes = image Entry.bytes (put Entry.bytes xs o e') := by
    rw [h.index]
    refine pwrite_image bytes_pos he hbytes.le ?_
    rw [hbytes, List.drop_length, List.append_nil]
  refine ⟨image Entry.bytes (put Entry.bytes xs o e'), ?_, ?_, ?_⟩
  · have hrecord : record key s.db.datoff s.db.datlen = σ'.text := by
      rw [hdatoff, hdatlen]
      rfl
    simp only [writeIdx, lseek, hoff, hrecord, Int.toNat_natCast]
    rw [if_neg (by omega), if_neg (by omega), if_neg (by omega), ← slot_bytes heσ', hwrite, htext]
    rfl
  · rw [image_put_length bytes_pos he hbytes, h.index]
  · exact ⟨_, ds, h.data ▸ hstored, next_put he hbytes, slot_put he hbytes⟩

end ProgSistema.HashedDatabase
