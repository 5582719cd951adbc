import ProgSistema.HashedDatabase.Space

/-!
# Deleting and storing

A record goes from the chain of its key to the free list and back again, or comes
to the end of the files; its place never changes. Each operation is followed on
the pointers first and then taken as one change of the table.
-/

set_option autoImplicit false

namespace ProgSistema.HashedDatabase
open CRuntime RecordLayout LinkedChain ChainedTable

variable {L L' : Layout} {s : State} {idx dat : Bytes} {m : Bytes → Option Bytes}
  {key data : Bytes} {σ : Slot} {o : ℕ} {before after : List ℕ} {b : Option (Fin nhashDef)}

def Boundary (L : Layout) (idx : Bytes) (o : ℕ) : Prop := o = idx.length ∨ ∃ σ, L.slot o = some σ

def Live (L : Layout) (o : ℕ) (σ : Slot) : Prop :=
  o ∈ L.chain (some (bucketOf σ.key)) ∧ L.slot o = some σ

structure Keeps (key : Bytes) (L L' : Layout) (idx idx' : Bytes) : Prop where
  boundary : ∀ o, Boundary L idx o → Boundary L' idx' o
  live : ∀ o σ, Live L o σ → σ.key ≠ key → Live L' o σ

/-- Where the slot at one offset is replaced, records still begin where they did. -/
theorem boundary_kept {idx' : Bytes} {i : ℕ} (hlen : idx'.length = idx.length)
    (hslot : L'.slot = Function.update L.slot o (some σ)) (h : Boundary L idx i) :
    Boundary L' idx' i := by
  rcases h with hend | ⟨τ, hτ⟩
  · exact Or.inl (hend.trans hlen.symm)
  · by_cases hio : i = o
    · exact Or.inr ⟨σ, by rw [hslot, hio, Function.update_self]⟩
    · exact Or.inr ⟨τ, by rw [hslot, Function.update_of_ne hio, hτ]⟩

theorem offset_ne {τ : Slot} {i : ℕ} (hσ : L.slot o = some σ) (hτ : L.slot i = some τ)
    (hkey : τ.key ≠ σ.key) : i ≠ o := by
  rintro rfl
  rw [hσ] at hτ
  exact hkey (congrArg Slot.key (Option.some.inj hτ).symm)

theorem keeps_refl (key : Bytes) (L : Layout) (idx : Bytes) : Keeps key L L idx idx :=
  ⟨fun _ h => h, fun _ _ h _ => h⟩

theorem keeps_trans {L'' : Layout} {idx' idx'' : Bytes} (h : Keeps key L L' idx idx')
    (h' : Keeps key L' L'' idx' idx'') : Keeps key L L'' idx idx'' :=
  ⟨fun o ho => h'.boundary o (h.boundary o ho),
    fun o σ hσ hne => h'.live o σ (h.live o σ hσ hne) hne⟩

theorem next_le {next : ℕ → ℕ} {slot : ℕ → Option Slot} (hm : Mapped idx dat next slot) (o : ℕ) :
    (next o : ℤ) ≤ ptrMax := by
  obtain ⟨xs, ds, h, rfl, rfl⟩ := hm
  rw [nextOf]
  cases he : get Entry.bytes xs o with
  | none =>
    dsimp only
    decide
  | some e => exact (h.fits e (get_mem he)).pointer

theorem member_le (h : Represents L idx dat m) (hb : L.chain b = before++o::after) :
    (o : ℤ) ≤ ptrMax := by
  have hlinked : Linked id 0 L.next (L.next (headOf b)) (L.chain b) := h.chained.linked b
  rw [hb] at hlinked
  have hpointer : L.next (before.getLastD (headOf b)) = o := linked_pointer _ o _ _ hlinked
  rw [← hpointer]
  exact next_le h.mapped _

/-- The place of the pointer to a member of a chain. -/
theorem pointer_place (h : Represents L idx dat m) (hb : L.chain b = before++o::after) :
    Place L.slot (before.getLastD (headOf b)) := by
  have hmem : before.getLastD (headOf b) ∈ headOf b::L.chain b := before_mem (S := scheme) hb
  rcases List.mem_cons.mp hmem with heq | hmem
  · rw [heq]
    exact head_place b
  · exact Or.inr (h.chained.member b _ hmem)

/-! Records to the free list. -/

def Slot.blanked (σ : Slot) : Slot := { σ with
  key := σ.key.map fun _ => space
  data := List.replicate (σ.datlen-1) space }

def Layout.freed (L : Layout) (b : Option (Fin nhashDef)) (before after : List ℕ) (o : ℕ)
    (σ : Slot) : Layout where
  next := Function.update (Function.update (Function.update L.next o (L.next (headOf none)))
    (headOf none) o) (before.getLastD (headOf b)) (L.next o)
  slot := Function.update L.slot o (some σ.blanked)
  chain := Function.update (Function.update L.chain b (before++after)) none (o::L.chain none)

theorem freed_represents (h : Represents L idx dat m)
    (hb : L.chain (some (bucketOf σ.key)) = before++o::after) (hσ : L.slot o = some σ)
    {idx' dat' : Bytes} (hm : Mapped idx' dat'
      (L.freed (some (bucketOf σ.key)) before after o σ).next
      (L.freed (some (bucketOf σ.key)) before after o σ).slot) :
    Represents (L.freed (some (bucketOf σ.key)) before after o σ) idx' dat'
      (Function.update m σ.key none) := by
  have hc := h.chained
  have hne : (none : Option (Fin nhashDef)) ≠ some (bucketOf σ.key) :=
    (Option.some_ne_none _).symm
  have hblank : scheme.Blank σ.blanked := by
    intro c hc'
    obtain ⟨-, -, rfl⟩ := List.mem_map.mp hc'
    rfl
  have hmoved := move hc hb hσ hne hblank
  -- `doDelete` takes the record out of its chain last
  rw [Function.update_comm (before_ne hc hb), Function.update_comm (before_ne_head hc hb hne)]
    at hmoved
  exact ⟨hm, hmoved, holds_retire hc hb hσ rfl h.holds⟩

theorem freed_keeps (h : Represents L idx dat m)
    (hb : L.chain (some (bucketOf σ.key)) = before++o::after) (hσ : L.slot o = some σ)
    {idx' : Bytes} (hlen : idx'.length = idx.length) :
    Keeps σ.key L (L.freed (some (bucketOf σ.key)) before after o σ) idx idx' := by
  have hc := h.chained
  have hne : ∀ k, some (bucketOf k) ≠ (none : Option (Fin nhashDef)) := fun k =>
    Option.some_ne_none _
  constructor
  · exact fun _ => boundary_kept hlen rfl
  · rintro i τ ⟨hi, hτ⟩ hkey
    have hio : i ≠ o := offset_ne hσ hτ hkey
    refine ⟨?_, (Function.update_of_ne hio ..).trans hτ⟩
    simp only [Layout.freed]
    rw [Function.update_of_ne (hne τ.key)]
    exact (mem_removed hc hb).mpr ⟨hi, hio⟩

theorem freed_balanced {n l live : ℕ} {dat' : Bytes} (h : Balanced n l (live+1) L dat)
    (hσ : L.slot o = some σ) (hlen : dat'.length = dat.length) :
    Balanced n l live (L.freed b before after o σ) dat' := by
  obtain ⟨hkey, hdata⟩ := h.even o σ hσ
  constructor
  · refine even_update h.even ((List.length_map ..).trans hkey) ?_
    rw [Slot.blanked, List.length_replicate]
    exact hdata
  · have hfree : (L.freed b before after o σ).chain none = o::L.chain none := by
      simp only [Layout.freed]
      rw [Function.update_self]
    rw [hlen, h.size, hfree, List.length_cons, Nat.add_right_comm, Nat.add_assoc]

/-- `doDelete` after a search that has found the record. -/
theorem do_delete_eq (h : Represents L s.idx s.dat m)
    (hb : L.chain (some (bucketOf σ.key)) = before++o::after) (hσ : L.slot o = some σ)
    (chainoff : ℕ) : ∃ s', doDelete (s.located chainoff
        (before.getLastD (headOf (some (bucketOf σ.key)))) o (L.next o) σ) = .ok s' ∧
      Mapped s'.idx s'.dat (L.freed (some (bucketOf σ.key)) before after o σ).next
        (L.freed (some (bucketOf σ.key)) before after o σ).slot ∧
      s'.idx.length = s.idx.length ∧ s'.dat.length = s.dat.length ∧ s'.db.chainoff = chainoff := by
  let q := before.getLastD (headOf (some (bucketOf σ.key)))
  let s₀ : State := s.located chainoff q o (L.next o) σ
  have hspace : (0 : UInt8) ≠ space := by decide
  have hsep : sep ≠ space := by decide
  have hole : (o : ℤ) ≤ ptrMax := member_le h hb
  let s₁ : State := { s₀ with db := { s₀.db with
    datbuf := σ.blanked.data, idxbuf := σ.blanked.key } }
  have hdatlen : σ.blanked.data.length+1 = σ.datlen := by
    rw [Slot.blanked, List.length_replicate]
    rfl
  obtain ⟨dat', hdat, hdatsize, hm₁⟩ := write_dat_eq (s := s₁) (p := σ.datoff)
    h.mapped hσ σ.blanked.data (Nat.succ.inj hdatlen)
    (fun hmem => hspace (List.eq_of_mem_replicate hmem)) rfl
  let σ₁ : Slot := { σ with data := σ.blanked.data }
  let s₂ : State := { s₁ with
    dat := dat', db := { s₁.db with datoff := σ.datoff, datlen := σ.datlen } }
  have hread := read_ptr_eq (s := s₂) (p := freeOff) hm₁ (head_place none) rfl
  let s₃ : State := { s₂ with db.position := headOf none+ptrSz }
  have hno : ∀ c ∈ σ.blanked.key, c = space := by
    intro c hc
    obtain ⟨-, -, rfl⟩ := List.mem_map.mp hc
    rfl
  have hσ₁ : Function.update L.slot o (some σ₁) o = some σ₁ := Function.update_self ..
  obtain ⟨idx', hidx, hidxsize, hm₂⟩ := write_idx_eq (s := s₃) (p := o)
    (v := L.next (headOf none)) hm₁ hσ₁ σ.blanked.key (List.length_map ..)
    (fun hmem => hsep (hno _ hmem)) (fun hmem => hspace (hno _ hmem)) (next_le h.mapped _) rfl rfl
    hdatlen.symm
  rw [Function.update_idem] at hm₂
  let s₄ : State := { s₃ with idx := idx', db := { s₃.db with
    position := o+σ₁.size, idxbuf := σ.blanked.text, idxoff := o,
    ptrval := L.next (headOf none) } }
  obtain ⟨idx₅, hfree, hsize₅, hm₅⟩ := write_ptr_eq (s := s₄) (p := freeOff) (v := o) hm₂
    (head_place none) rfl hole
  let s₅ : State := { s₄ with idx := idx₅, db.position := headOf none+ptrSz }
  obtain ⟨idx₆, hunlink, hsize₆, hm₆⟩ := write_ptr_eq (s := s₅) (p := q) (v := L.next o) hm₅
    (place_update o _ (pointer_place h hb)) rfl (next_le h.mapped o)
  refine ⟨{ s₅ with idx := idx₆, db.position := q+ptrSz }, ?_, hm₆, ?_, hdatsize, rfl⟩
  · refine bind_of_ok hdat ?_
    refine bind_of_ok hread ?_
    refine bind_of_ok hidx ?_
    exact bind_of_ok hfree hunlink
  · exact hsize₆.trans (hsize₅.trans hidxsize)

/-- A deletion takes the key out of the table. -/
theorem db_delete_eq (h : Represents L s.idx s.dat m) (key : Bytes) : ∃ s' L',
    dbDelete key s = .ok (if (m key).isSome then 0 else -1, s') ∧
    Represents L' s'.idx s'.dat (Function.update m key none) ∧ Keeps key L L' s.idx s'.idx ∧
    ∀ n l, (keysOf m).Finite →
      Spends n l L L' s.dat s'.dat (count m) (count (Function.update m key none)) := by
  rcases chain_cases h key with ⟨before, o, after, σ, hchain, hσ, rfl, hm⟩ | ⟨hno, hm⟩
  · obtain ⟨s', hdelete, hmapped, hsize, hdatsize, -⟩ :=
      do_delete_eq h hchain hσ (headOf (some (bucketOf σ.key)))
    refine ⟨s', _, ?_, freed_represents h hchain hσ hmapped, freed_keeps h hchain hσ hsize, ?_⟩
    · rw [hm]
      refine bind_of_ok (find_and_lock_found h hchain hσ) ?_
      exact bind_of_ok hdelete rfl
    · intro n l hfinite hbalanced
      rw [count_removed hfinite hm] at hbalanced
      exact ⟨freed_balanced hbalanced hσ hdatsize, Or.inl hdatsize⟩
  · obtain ⟨s', hfind, hidx, hdat, -⟩ := find_and_lock_absent h hno
    have hsame : Function.update m key none = m := by rw [← hm, Function.update_eq_self]
    refine ⟨s', L, ?_, ?_, hidx ▸ keeps_refl key L s.idx, fun n l _ => ?_⟩
    · rw [hm]
      exact bind_of_ok hfind rfl
    · rw [hidx, hdat, hsame]
      exact h
    · rw [hdat, hsame]
      exact spends_refl n l L s.dat _

/-! Free records used again. -/

theorem find_free_cases (h : Represents L s.idx s.dat m) (keylen datlen : ℕ) :
    (∃ s', findFree keylen datlen s = .ok (-1, s') ∧ s'.idx = s.idx ∧ s'.dat = s.dat ∧
      s'.db.chainoff = s.db.chainoff ∧
      ∀ i ∈ L.chain none, ∀ τ, L.slot i = some τ → ¬ (τ.key.length = keylen ∧ τ.datlen = datlen)) ∨
    ∃ before o after σ idx' position, L.chain none = before++o::after ∧ L.slot o = some σ ∧
      σ.key.length = keylen ∧ σ.datlen = datlen ∧
      findFree keylen datlen s =
        .ok (0, { s.loaded o (L.next o) σ with idx := idx', db.position := position }) ∧
      idx'.length = s.idx.length ∧
      Mapped idx' s.dat (Function.update L.next (before.getLastD (headOf none)) (L.next o))
        L.slot := by
  let wanted : Bytes → ℕ → Bool := fun idxbuf len => idxbuf.length = keylen ∧ len = datlen
  have hread := read_ptr_eq (s := s) (p := freeOff) h.mapped (head_place none) rfl
  let s₁ : State := { s with db.position := headOf none+ptrSz }
  have hlength := chain_length h none
  have hlinked := chain_linked h none
  have hmember := h.chained.member none
  rcases first_wanted h none wanted with hno | ⟨before, o, after, σ, hb, hσ, hfirst, hbefore⟩
  · obtain ⟨q, s', hwalk, hidx, hdat, hoff⟩ := walk_absent wanted (s := s₁) (q := headOf none)
      h.mapped h.chained.zero hlinked hmember hno hlength
    refine Or.inl ⟨s', ?_, hidx, hdat, hoff, fun i hi τ hτ => of_decide_eq_false (hno i hi τ hτ)⟩
    refine bind_of_ok hread ?_
    exact bind_of_ok hwalk rfl
  · have hplace := pointer_place h hb
    rw [hb] at hlength hlinked hmember
    have hwalk := walk_found wanted (s := s₁) (q := headOf none) h.mapped h.chained.zero hlinked
      hmember hbefore hσ hfirst hlength
    obtain ⟨idx', hwrite, hsize, hm⟩ := write_ptr_eq (s := s₁.loaded o (L.next o) σ)
      (p := before.getLastD (headOf none)) (v := L.next o) h.mapped hplace rfl
      (next_le h.mapped o)
    obtain ⟨hkeylen, hdatlen⟩ := of_decide_eq_true hfirst
    refine Or.inr ⟨before, o, after, σ, idx', before.getLastD (headOf none)+ptrSz, hb, hσ, hkeylen,
      hdatlen, ?_, hsize, hm⟩
    refine bind_of_ok hread ?_
    refine bind_of_ok hwalk ?_
    dsimp only
    rw [if_neg (slot_ne_zero h.chained.zero hσ)]
    exact bind_of_ok hwrite rfl

def Layout.reused (L : Layout) (before after : List ℕ) (o : ℕ) (σ : Slot) : Layout where
  next := Function.update (Function.update
    (Function.update L.next (before.getLastD (headOf none)) (L.next o)) o
      (L.next (headOf (some (bucketOf σ.key))))) (headOf (some (bucketOf σ.key))) o
  slot := Function.update L.slot o (some σ)
  chain := Function.update (Function.update L.chain none (before++after)) (some (bucketOf σ.key))
    (o::L.chain (some (bucketOf σ.key)))

theorem reused_represents (h : Represents L idx dat m) {τ : Slot}
    (hb : L.chain none = before++o::after) (hτ : L.slot o = some τ)
    (hno : ∀ i ∈ L.chain (some (bucketOf σ.key)), ∀ τ, L.slot i = some τ → τ.key ≠ σ.key)
    {idx' dat' : Bytes}
    (hm : Mapped idx' dat' (L.reused before after o σ).next (L.reused before after o σ).slot) :
    Represents (L.reused before after o σ) idx' dat' (Function.update m σ.key (some σ.data)) := by
  have hc := h.chained
  have hne : some (bucketOf σ.key) ≠ (none : Option (Fin nhashDef)) := Option.some_ne_none _
  have hsuits : Suits scheme (Function.update L.slot o none)
      (Function.update L.chain none (before++after)) σ (some (bucketOf σ.key)) := by
    refine ⟨rfl, fun i hi τ hτ => ?_⟩
    obtain ⟨hi, hio⟩ := (mem_removed hc hb).mp hi
    rw [Function.update_of_ne hio] at hτ
    exact hno i hi τ hτ
  exact ⟨hm, move hc hb hτ hne hsuits, holds_revive hc hb rfl hsuits h.holds⟩

theorem reused_keeps (h : Represents L idx dat m) (hb : L.chain none = before++o::after)
    {idx' : Bytes} (hlen : idx'.length = idx.length) :
    Keeps σ.key L (L.reused before after o σ) idx idx' := by
  have hc := h.chained
  constructor
  · exact fun _ => boundary_kept hlen rfl
  · rintro i τ ⟨hi, hτ⟩ hkey
    have ho : o ∈ L.chain none := by
      rw [hb]
      exact List.mem_append_right _ List.mem_cons_self
    have hio : i ≠ o := fun heq => hc.free _ o ho (heq ▸ hi)
    refine ⟨?_, (Function.update_of_ne hio ..).trans hτ⟩
    have hremoved : i ∈ Function.update L.chain none (before++after) (some (bucketOf τ.key)) :=
      (mem_removed hc hb).mpr ⟨hi, hio⟩
    simp only [Layout.reused]
    by_cases hbucket : bucketOf τ.key = bucketOf σ.key
    · rw [hbucket] at hi ⊢
      rw [Function.update_self]
      exact List.mem_cons_of_mem _ hi
    · rw [Function.update_of_ne fun heq => hbucket (Option.some.inj heq)]
      exact hremoved

theorem reused_balanced {live : ℕ} {dat' : Bytes}
    (h : Balanced σ.key.length σ.data.length live L dat) (hb : L.chain none = before++o::after)
    (hlen : dat'.length = dat.length) :
    Balanced σ.key.length σ.data.length (live+1) (L.reused before after o σ) dat' := by
  constructor
  · exact even_update h.even rfl rfl
  · have hfree : (L.reused before after o σ).chain none = before++after := by
      simp only [Layout.reused]
      rw [Function.update_of_ne (Option.some_ne_none _).symm, Function.update_self]
    have hone : (before++o::after).length+live = (before++after).length+(live+1) := by
      simp only [List.length_append, List.length_cons]
      omega
    rw [hlen, h.size, hb, hfree, hone]

/-! Records at the ends of the files. -/

/-- What a new record needs where it is not put in the place of a free one. -/
def Room (key data : Bytes) (idxsize datsize : ℕ) : Prop :=
  idxlenMin ≤ (Slot.text ⟨key, data, datsize⟩).length ∧
  (Slot.text ⟨key, data, datsize⟩).length ≤ idxlenMax ∧ (idxsize : ℤ) ≤ ptrMax

/-- Keys and data that can be told apart in the files. -/
structure Storable (key data : Bytes) : Prop where
  noSep : sep ∉ key
  keyNoNul : 0 ∉ key
  dataNoNul : 0 ∉ data
  short : data.length+1 ≤ datlenMax

def Layout.appended (L : Layout) (o : ℕ) (σ : Slot) : Layout where
  next := Function.update
    (Function.update L.next o (L.next (headOf (some (bucketOf σ.key)))))
    (headOf (some (bucketOf σ.key))) o
  slot := Function.update L.slot o (some σ)
  chain := Function.update L.chain (some (bucketOf σ.key)) (o::L.chain (some (bucketOf σ.key)))

theorem end_slot {next : ℕ → ℕ} {slot : ℕ → Option Slot} (hm : Mapped idx dat next slot) :
    slot idx.length = none := by
  obtain ⟨xs, ds, h, rfl, rfl⟩ := hm
  rw [slotOf, h.index, get_end bytes_pos, Option.bind_none]

theorem place_ne_end {next : ℕ → ℕ} {slot : ℕ → Option Slot} (hm : Mapped idx dat next slot)
    (ho : Place slot o) : idx.length ≠ o := by
  obtain ⟨xs, ds, h, rfl, rfl⟩ := hm
  obtain ⟨e, he⟩ := place_get h ho
  exact (place_lt h he).ne'

theorem appended_represents (h : Represents L idx dat m)
    (hno : ∀ i ∈ L.chain (some (bucketOf σ.key)), ∀ τ, L.slot i = some τ → τ.key ≠ σ.key)
    {idx' dat' : Bytes} (hm : Mapped idx' dat' (L.appended idx.length σ).next
      (L.appended idx.length σ).slot) :
    Represents (L.appended idx.length σ) idx' dat' (Function.update m σ.key (some σ.data)) := by
  have hc := h.chained
  have hend := end_slot h.mapped
  have hsuits : Suits scheme L.slot L.chain σ (some (bucketOf σ.key)) := ⟨rfl, hno⟩
  exact ⟨hm, push hc hend (place_ne_end h.mapped (head_place none))
    (fun b => place_ne_end h.mapped (head_place b)) hsuits, holds_push hc hend hsuits h.holds⟩

theorem appended_keeps (h : Represents L idx dat m) {idx' : Bytes} :
    Keeps σ.key L (L.appended idx.length σ) idx idx' := by
  constructor
  · intro i hi
    refine Or.inr ?_
    by_cases hio : i = idx.length
    · exact ⟨σ, by rw [hio]; exact Function.update_self ..⟩
    · obtain ⟨τ, hτ⟩ := hi.resolve_left hio
      exact ⟨τ, (Function.update_of_ne hio ..).trans hτ⟩
  · rintro i τ ⟨hi, hτ⟩ -
    have hio : i ≠ idx.length := by
      rintro rfl
      rw [end_slot h.mapped] at hτ
      cases hτ
    exact ⟨mem_pushed.mpr (Or.inl hi), (Function.update_of_ne hio ..).trans hτ⟩

theorem appended_free (L : Layout) (o : ℕ) (σ : Slot) :
    (L.appended o σ).chain none = L.chain none := by
  simp only [Layout.appended]
  rw [Function.update_of_ne (Option.some_ne_none _).symm]

theorem appended_balanced {live : ℕ} (h : Balanced σ.key.length σ.data.length live L dat) :
    Balanced σ.key.length σ.data.length (live+1) (L.appended o σ) (dat++line σ.data) := by
  constructor
  · exact even_update h.even rfl rfl
  · have hline : (line σ.data).length = σ.data.length+1 := List.length_append
    rw [appended_free, List.length_append, h.size, hline, ← Nat.add_assoc (L.chain none).length,
      Nat.mul_succ]

/-- A record is appended, or there is no room for it. -/
theorem append_cases (h : Represents L s.idx s.dat m) (hkey : Storable key data)
    (hno : ∀ i ∈ L.chain (some (bucketOf key)), ∀ τ, L.slot i = some τ → τ.key ≠ key)
    (hoff : s.db.chainoff = headOf (some (bucketOf key))) :
    (∃ s' L', appendRecord key data (L.next (headOf (some (bucketOf key)))) s = .ok s' ∧
      Represents L' s'.idx s'.dat (Function.update m key (some data)) ∧
      Keeps key L L' s.idx s'.idx ∧ (L.chain none = [] →
        ∀ live, Spends key.length data.length L L' s.dat s'.dat live (live+1))) ∨
    ((∃ e, appendRecord key data (L.next (headOf (some (bucketOf key)))) s = .error e) ∧
      ¬ Room key data s.idx.length s.dat.length) := by
  by_cases hroom : Room key data s.idx.length s.dat.length
  · obtain ⟨hlow, hhigh, hspace⟩ := hroom
    have hdat := dat_length_le h.mapped
    have hfits : Slot.Fits ⟨key, data, s.dat.length⟩ := by
      refine ⟨hkey.noSep, hkey.keyNoNul, hkey.dataNoNul, hlow, hhigh, hkey.short, ?_⟩
      have hmax : ptrMax = 9999999 := rfl
      have hptr : ptrSz = 7 := rfl
      have hdatlen : datlenMax = 1024 := rfl
      rw [hptr, hdatlen] at hdat
      show s.dat.length < 2^63
      omega
    obtain ⟨s', happend, hm, hline⟩ := append_record_eq h.mapped hfits (next_le h.mapped _)
      (head_place (some (bucketOf key))) hoff hspace
    refine Or.inl ⟨s', L.appended s.idx.length ⟨key, data, s.dat.length⟩, happend,
      appended_represents (σ := ⟨key, data, s.dat.length⟩) h hno hm,
      appended_keeps (σ := ⟨key, data, s.dat.length⟩) h, fun hfree live hbalanced => ?_⟩
    rw [hline]
    refine ⟨appended_balanced (σ := ⟨key, data, s.dat.length⟩) hbalanced, Or.inr ⟨?_, ?_⟩⟩
    · rw [appended_free, hfree]
    · rw [List.length_append]
      exact Nat.le_add_right ..
  · refine Or.inr ⟨?_, hroom⟩
    cases happend : appendRecord key data (L.next (headOf (some (bucketOf key)))) s with
    | error e => exact ⟨e, rfl⟩
    | ok s' => exact absurd (append_record_ok happend) hroom

/-! Storing. -/

theorem insert_cases (h : Represents L s.idx s.dat m) (hkey : Storable key data)
    (hno : ∀ i ∈ L.chain (some (bucketOf key)), ∀ τ, L.slot i = some τ → τ.key ≠ key)
    (hoff : s.db.chainoff = headOf (some (bucketOf key))) :
    (∃ s' L', insertRecord key data s = .ok s' ∧
      Represents L' s'.idx s'.dat (Function.update m key (some data)) ∧
      Keeps key L L' s.idx s'.idx ∧
      ∀ live, Spends key.length data.length L L' s.dat s'.dat live (live+1)) ∨
    ((∃ e, insertRecord key data s = .error e) ∧ ¬ Room key data s.idx.length s.dat.length) := by
  have hread := read_ptr_eq (s := s) h.mapped (head_place (some (bucketOf key))) hoff
  let s₁ : State := { s with db.position := headOf (some (bucketOf key))+ptrSz }
  have h₁ : Represents L s₁.idx s₁.dat m := h
  rcases find_free_cases h₁ key.length (data.length+1) with ⟨s₂, hfind, hidx, hdat, hchain, hnone⟩ |
    ⟨before, o, after, σ, idx', position, hb, hσ, hkeylen, hdatlen, hfind, hsize, hm⟩
  · have h₂ : Represents L s₂.idx s₂.dat m := by
      rw [hidx, hdat]
      exact h
    have happend := append_cases h₂ hkey hno (hchain.trans hoff)
    rw [hidx, hdat] at happend
    have hinsert : insertRecord key data s =
        appendRecord key data (L.next (headOf (some (bucketOf key)))) s₂ := by
      refine bind_of_ok hread ?_
      exact bind_of_ok hfind rfl
    rw [hinsert]
    rcases happend with ⟨s', L', happend, hrep, hkeeps, hspends⟩ | hfull
    · refine Or.inl ⟨s', L', happend, hrep, hkeeps, fun live hbalanced => ?_⟩
      have hfree : L.chain none = [] := by
        refine List.eq_nil_iff_forall_not_mem.mpr fun i hi => ?_
        obtain ⟨τ, hτ⟩ := h.chained.member none i hi
        obtain ⟨hkeylen, hdatalen⟩ := hbalanced.even i τ hτ
        exact hnone i hi τ hτ ⟨hkeylen, congrArg Nat.succ hdatalen⟩
      exact hspends hfree live hbalanced
    · exact Or.inr hfull
  · let s₂ : State := { s₁.loaded o (L.next o) σ with idx := idx', db.position := position }
    obtain ⟨dat', hwriteDat, hdatsize, hm₃⟩ := write_dat_eq (s := s₂) (p := σ.datoff)
      hm hσ data (Nat.succ.inj hdatlen).symm hkey.dataNoNul rfl
    let σ₁ : Slot := { σ with data := data }
    let s₃ : State := { s₂ with
      dat := dat', db := { s₂.db with datoff := σ.datoff, datlen := σ.datlen } }
    have hσ₁ : Function.update L.slot o (some σ₁) o = some σ₁ := Function.update_self ..
    obtain ⟨idx₄, hwriteIdx, hsize₄, hm₄⟩ := write_idx_eq (s := s₃) (p := o)
      (v := L.next (headOf (some (bucketOf key)))) hm₃ hσ₁ key hkeylen.symm hkey.noSep hkey.keyNoNul
      (next_le h.mapped _) rfl rfl hdatlen
    rw [Function.update_idem] at hm₄
    let s₄ : State := { s₃ with idx := idx₄, db := { s₃.db with
      position := o+σ₁.size, idxbuf := Slot.text ⟨key, data, σ.datoff⟩, idxoff := o,
      ptrval := L.next (headOf (some (bucketOf key))) } }
    obtain ⟨idx₅, hwritePtr, hsize₅, hm₅⟩ := write_ptr_eq (s := s₄)
      (p := s.db.chainoff) (v := o) hm₄ (head_place (some (bucketOf key))) hoff
      (member_le h hb)
    refine Or.inl ⟨{ s₄ with idx := idx₅, db.position := headOf (some (bucketOf key))+ptrSz },
      L.reused before after o ⟨key, data, σ.datoff⟩, ?_,
      reused_represents (σ := ⟨key, data, σ.datoff⟩) h hb hσ hno hm₅,
      reused_keeps (σ := ⟨key, data, σ.datoff⟩) h hb (hsize₅.trans (hsize₄.trans hsize)),
      fun live hbalanced => ⟨reused_balanced (σ := ⟨key, data, σ.datoff⟩) hbalanced hb hdatsize,
        Or.inl hdatsize⟩⟩
    refine bind_of_ok hread ?_
    refine bind_of_ok hfind ?_
    refine bind_of_ok hwriteDat ?_
    exact bind_of_ok hwriteIdx hwritePtr

theorem freed_no_key (h : Represents L idx dat m) (hm : m key = none) :
    ∀ i ∈ L.chain (some (bucketOf key)), ∀ τ, L.slot i = some τ → τ.key ≠ key := by
  rintro i hi τ hτ rfl
  have hsome := lookup_some h.holds hi hτ
  rw [show scheme.key τ = τ.key from rfl, hm] at hsome
  cases hsome

theorem replace_cases (h : Represents L s.idx s.dat m)
    (hb : L.chain (some (bucketOf σ.key)) = before++o::after) (hσ : L.slot o = some σ)
    (hkey : Storable σ.key data) :
    (∃ s' L', replaceRecord σ.key data (s.located (headOf (some (bucketOf σ.key)))
        (before.getLastD (headOf (some (bucketOf σ.key)))) o (L.next o) σ) = .ok s' ∧
      Represents L' s'.idx s'.dat (Function.update m σ.key (some data)) ∧
      Keeps σ.key L L' s.idx s'.idx ∧
      ∀ live, Spends σ.key.length data.length L L' s.dat s'.dat live live) ∨
    ((∃ e, replaceRecord σ.key data (s.located (headOf (some (bucketOf σ.key)))
        (before.getLastD (headOf (some (bucketOf σ.key)))) o (L.next o) σ) = .error e) ∧
      ¬ Room σ.key data s.idx.length s.dat.length) := by
  by_cases hlen : data.length+1 = σ.datlen
  · let s₁ : State := s.located (headOf (some (bucketOf σ.key)))
      (before.getLastD (headOf (some (bucketOf σ.key)))) o (L.next o) σ
    obtain ⟨dat', hwrite, hdatsize, hm⟩ := write_dat_eq (s := s₁) (p := σ.datoff)
      h.mapped hσ data (Nat.succ.inj hlen) hkey.dataNoNul rfl
    have ho : o ∈ L.chain (some (bucketOf σ.key)) := by
      rw [hb]
      exact List.mem_append_right _ List.mem_cons_self
    let L' : Layout := { L with
      slot := Function.update L.slot o (some { σ with data := data }) }
    refine Or.inl ⟨{ s₁ with
      dat := dat', db := { s₁.db with datoff := σ.datoff, datlen := σ.datlen } }, L', ?_,
      ⟨hm, rewrite_slot h.chained hσ rfl ⟨_, ho⟩, holds_rewrite h.chained hσ rfl ho h.holds⟩,
      ⟨fun _ => boundary_kept rfl rfl, ?_⟩,
      fun live hbalanced => ⟨⟨even_update hbalanced.even rfl rfl, ?_⟩, Or.inl hdatsize⟩⟩
    · exact (if_neg (not_not.mpr hlen)).trans hwrite
    · rintro i τ ⟨hi, hτ⟩ hne
      have hio : i ≠ o := offset_ne hσ hτ hne
      exact ⟨hi, (Function.update_of_ne hio ..).trans hτ⟩
    · exact hdatsize.trans hbalanced.size
  · obtain ⟨s₁, hdelete, hm₁, hidx, hdat, hoff⟩ :=
      do_delete_eq h hb hσ (headOf (some (bucketOf σ.key)))
    have h₁ := freed_represents h hb hσ hm₁
    have hkeeps := freed_keeps h hb hσ hidx
    have hread := read_ptr_eq hm₁ (head_place (some (bucketOf σ.key))) hoff
    let s₂ : State := { s₁ with db.position := headOf (some (bucketOf σ.key))+ptrSz }
    have happend := append_cases (s := s₂) h₁ hkey
      (freed_no_key h₁ (Function.update_self ..)) hoff
    rw [Function.update_idem, show s₂.idx.length = s.idx.length from hidx,
      show s₂.dat.length = s.dat.length from hdat] at happend
    have hreplace : ∀ r, appendRecord σ.key data
        ((L.freed (some (bucketOf σ.key)) before after o σ).next
          (headOf (some (bucketOf σ.key)))) s₂ = r →
        replaceRecord σ.key data (s.located (headOf (some (bucketOf σ.key)))
          (before.getLastD (headOf (some (bucketOf σ.key)))) o (L.next o) σ) = r := by
      intro r hr
      refine (if_pos hlen).trans ?_
      refine bind_of_ok hdelete ?_
      exact bind_of_ok hread hr
    rcases happend with ⟨s', L', happend, hrep, hkept, -⟩ | ⟨⟨e, happend⟩, hroom⟩
    · refine Or.inl ⟨s', L', hreplace _ happend, hrep, keeps_trans hkeeps hkept,
        fun live hbalanced => ?_⟩
      exact absurd (congrArg Nat.succ (hbalanced.even o σ hσ).2).symm hlen
    · exact Or.inr ⟨⟨e, hreplace _ happend⟩, hroom⟩

def stored (m : Bytes → Option Bytes) (key data : Bytes) (flag : ℤ) :
    ℤ × (Bytes → Option Bytes) :=
  if flag ≠ dbInsert ∧ flag ≠ dbReplace ∧ flag ≠ dbInsertOrReplace then (-1, m)
  else if (m key).isNone ∧ flag = dbReplace then (-1, m)
  else if (m key).isSome ∧ flag = dbInsert then (1, m)
  else (0, Function.update m key (some data))

theorem db_store_cases (h : Represents L s.idx s.dat m) (hsep : sep ∉ key) (hkey : 0 ∉ key)
    (hdata : 0 ∉ data) (flag : ℤ) :
    (∃ s' L', dbStore key data flag s = .ok ((stored m key data flag).1, s') ∧
      Represents L' s'.idx s'.dat (stored m key data flag).2 ∧ Keeps key L L' s.idx s'.idx ∧
      ((keysOf m).Finite → Spends key.length data.length L L' s.dat s'.dat (count m)
        (count (stored m key data flag).2))) ∨
    ((∃ e, dbStore key data flag s = .error e) ∧
      ¬ (datlenMin ≤ data.length+1 ∧ data.length+1 ≤ datlenMax ∧
        Room key data s.idx.length s.dat.length)) := by
  by_cases hflag : flag ≠ dbInsert ∧ flag ≠ dbReplace ∧ flag ≠ dbInsertOrReplace
  · refine Or.inl ⟨s, L, ?_, ?_, keeps_refl key L s.idx, fun _ => ?_⟩
    · rw [dbStore, if_pos hflag, stored, if_pos hflag]
    · rw [stored, if_pos hflag]
      exact h
    · rw [stored, if_pos hflag]
      exact spends_refl _ _ L s.dat _
  by_cases hlen : data.length+1 < datlenMin ∨ datlenMax < data.length+1
  · refine Or.inr ⟨⟨_, (if_neg hflag).trans (if_pos hlen)⟩, fun ⟨hlow, hhigh, _⟩ => ?_⟩
    omega
  have hstorable : Storable key data := ⟨hsep, hkey, hdata, by omega⟩
  have hstart : ∀ {rc u r}, findAndLock key s = .ok (rc, u) →
      (if rc < 0 then
        if flag = dbReplace then .ok (-1, u)
        else insertRecord key data u >>= fun u => .ok (0, u)
      else if flag = dbInsert then .ok (1, u)
      else replaceRecord key data u >>= fun u => .ok (0, u)) = r →
      dbStore key data flag s = r := by
    intro rc u r hfind hr
    refine (if_neg hflag).trans ?_
    refine (if_neg hlen).trans ?_
    exact bind_of_ok hfind hr
  rw [stored, if_neg hflag]
  rcases chain_cases h key with ⟨before, o, after, σ, hb, hσ, rfl, hm⟩ | ⟨hno, hm⟩
  · have hfind := find_and_lock_found h hb hσ
    rw [hm, if_neg (by simp)]
    by_cases hinsert : flag = dbInsert
    · rw [if_pos ⟨rfl, hinsert⟩]
      refine Or.inl ⟨s.located (headOf (some (bucketOf σ.key)))
        (before.getLastD (headOf (some (bucketOf σ.key)))) o (L.next o) σ, L,
        hstart hfind ?_, h, keeps_refl _ L _, fun _ => spends_refl _ _ L _ _⟩
      refine (if_neg (by decide)).trans ?_
      exact if_pos hinsert
    · rw [if_neg fun hboth => hinsert hboth.2]
      have hgo : ∀ x r, replaceRecord σ.key data (s.located (headOf (some (bucketOf σ.key)))
          (before.getLastD (headOf (some (bucketOf σ.key)))) o (L.next o) σ) = x →
          (x >>= fun s => .ok (0, s)) = r → dbStore σ.key data flag s = r := by
        intro x r hx hr
        refine hstart hfind ?_
        refine (if_neg (by decide)).trans ?_
        refine (if_neg hinsert).trans ?_
        rw [hx]
        exact hr
      rcases replace_cases h hb hσ hstorable with ⟨s', L', hreplace, hrep, hkeeps, hspends⟩ |
        ⟨⟨e, hreplace⟩, hroom⟩
      · refine Or.inl ⟨s', L', hgo _ _ hreplace rfl, hrep, hkeeps, fun _ => ?_⟩
        rw [count_replaced hm]
        exact hspends _
      · exact Or.inr ⟨⟨e, hgo _ _ hreplace rfl⟩, fun hall => hroom hall.2.2⟩
  · obtain ⟨s₁, hfind, hidx, hdat, hoff⟩ := find_and_lock_absent h hno
    have h₁ : Represents L s₁.idx s₁.dat m := by
      rw [hidx, hdat]
      exact h
    rw [hm]
    by_cases hreplace : flag = dbReplace
    · rw [if_pos ⟨rfl, hreplace⟩]
      refine Or.inl ⟨s₁, L, hstart hfind ?_, h₁, hidx ▸ keeps_refl key L s.idx,
        fun _ => ?_⟩
      · refine (if_pos (by decide)).trans ?_
        exact if_pos hreplace
      · rw [hdat]
        exact spends_refl _ _ L s.dat _
    · rw [if_neg fun hboth => hreplace hboth.2, if_neg (by simp)]
      have hgo : ∀ x r, insertRecord key data s₁ = x → (x >>= fun s => .ok (0, s)) = r →
          dbStore key data flag s = r := by
        intro x r hx hr
        refine hstart hfind ?_
        refine (if_pos (by decide)).trans ?_
        refine (if_neg hreplace).trans ?_
        rw [hx]
        exact hr
      have hinsert := insert_cases h₁ hstorable hno hoff
      rw [hidx, hdat] at hinsert
      rcases hinsert with ⟨s', L', hinsert, hrep, hkeeps, hspends⟩ | ⟨⟨e, hinsert⟩, hroom⟩
      · refine Or.inl ⟨s', L', hgo _ _ hinsert rfl, hrep, hkeeps, fun hfinite => ?_⟩
        rw [count_new hfinite hm]
        exact hspends _
      · exact Or.inr ⟨⟨e, hgo _ _ hinsert rfl⟩, fun hall => hroom hall.2.2⟩

end ProgSistema.HashedDatabase
