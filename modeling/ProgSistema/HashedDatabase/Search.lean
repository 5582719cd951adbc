import ProgSistema.HashedDatabase.Growth
import ProgSistema.Lib.ChainedTable

/-!
# Searching the chains of the index file

The hash table and the free list are a table of chained slots. A walk along one of
its chains ends at the first slot that it wants, or at the end of the chain.
-/

set_option autoImplicit false

namespace ProgSistema.HashedDatabase
open CRuntime RecordLayout LinkedChain ChainedTable

def bucketOf (key : Bytes) : Fin nhashDef := ⟨dbHash key, Nat.mod_lt _ (by decide)⟩

def headOf : Option (Fin nhashDef) → ℕ
  | none => 0
  | some b => b*ptrSz+hashOff

theorem head_injective : Function.Injective headOf := by
  have hptr : 0 < ptrSz := by decide
  have hoff : hashOff = ptrSz := rfl
  intro b c h
  cases b with
  | none =>
    cases c with
    | none => rfl
    | some c =>
      simp only [headOf] at h
      omega
  | some b =>
    cases c with
    | none =>
      simp only [headOf] at h
      omega
    | some c =>
      simp only [headOf] at h
      exact congrArg some (Fin.ext (Nat.eq_of_mul_eq_mul_right hptr (by omega)))

def scheme : Scheme Slot Bytes Bytes (Fin nhashDef) where
  head := headOf
  key := Slot.key
  value := Slot.data
  hash := bucketOf
  Blank σ := ∀ c ∈ σ.key, c = space
  head_injective := head_injective

structure Layout where
  next : ℕ → ℕ
  slot : ℕ → Option Slot
  chain : Option (Fin nhashDef) → List ℕ

structure Represents (L : Layout) (idx dat : Bytes) (m : Bytes → Option Bytes) : Prop where
  mapped : Mapped idx dat L.next L.slot
  chained : Chained scheme L.next L.slot L.chain
  holds : Holds scheme L.slot L.chain m

variable {L : Layout} {s : State} {m : Bytes → Option Bytes} {key : Bytes} {σ : Slot} {o : ℕ}
  {before after : List ℕ} {next : ℕ → ℕ} {slot : ℕ → Option Slot}

theorem head_place (b : Option (Fin nhashDef)) : Place slot (headOf b) := by
  cases b with
  | none => exact Or.inl ⟨0, Nat.zero_le _, (Nat.zero_mul _).symm⟩
  | some b => exact Or.inl ⟨b+1, b.isLt, (Nat.succ_mul _ _).symm⟩

theorem start_represents : ∃ L, Represents L chainPointers [] (fun _ => none) ∧
    (∀ o, L.slot o = none) ∧ L.chain none = [] := by
  refine ⟨⟨fun _ => 0, fun _ => none, fun _ => []⟩, ⟨mapped_start, ?_, ?_⟩, fun _ => rfl, rfl⟩
  · exact ⟨rfl, fun _ => rfl, fun _ => rfl, fun _ => List.nodup_nil, nofun, nofun, nofun, nofun,
      nofun, nofun⟩
  · intro k d
    exact ⟨nofun, fun ⟨_, _, hmem, _⟩ => absurd hmem List.not_mem_nil⟩

theorem slot_lt (hm : Mapped s.idx s.dat next slot) (hσ : slot o = some σ) :
    o < s.idx.length := by
  obtain ⟨xs, ds, h, rfl, rfl⟩ := hm
  obtain ⟨e, he, -⟩ := get_of_slot hσ
  exact place_lt h he

theorem chain_length (h : Represents L s.idx s.dat m) (b : Option (Fin nhashDef)) :
    (L.chain b).length < s.idx.length+1 := by
  have hsubset : (L.chain b).toFinset ⊆ Finset.range s.idx.length := by
    intro o ho
    obtain ⟨σ, hσ⟩ := h.chained.member b o (List.mem_toFinset.mp ho)
    exact Finset.mem_range.mpr (slot_lt h.mapped hσ)
  have hcard := Finset.card_le_card hsubset
  rw [List.toFinset_card_of_nodup (h.chained.nodup b), Finset.card_range] at hcard
  omega

theorem chain_linked (h : Represents L s.idx s.dat m) (b : Option (Fin nhashDef)) :
    Linked id 0 L.next (L.next (headOf b)) (L.chain b) := h.chained.linked b

/-! Walking. -/

section walk
variable (wanted : Bytes → ℕ → Bool) {n p q : ℕ}

theorem slot_ne_zero (hzero : slot 0 = none) (hσ : slot o = some σ) : (o : ℤ) ≠ 0 := by
  intro ho
  have hnat : o = 0 := by exact_mod_cast ho
  rw [hnat, hzero] at hσ
  cases hσ

theorem walk_found (hm : Mapped s.idx s.dat next slot) (hzero : slot 0 = none)
    (hl : Linked id 0 next p (before++o::after))
    (hmem : ∀ i ∈ before++o::after, ∃ τ, slot i = some τ)
    (hbefore : ∀ i ∈ before, ∀ τ, slot i = some τ → wanted τ.key τ.datlen = false)
    (hσ : slot o = some σ) (hwanted : wanted σ.key σ.datlen = true)
    (hfuel : (before++o::after).length < n) :
    walk wanted n q p s = .ok ((before.getLastD q : ℕ), (o : ℤ), s.loaded o (next o) σ) := by
  induction before generalizing p q s n with
  | nil =>
    obtain ⟨hp, -⟩ := hl
    have hne := slot_ne_zero hzero hσ
    obtain ⟨k, rfl⟩ := Nat.exists_eq_add_of_lt hfuel
    rw [hp, id, walk, if_neg hne, read_idx_eq hm hσ (if_neg hne), ok_bind]
    exact if_pos hwanted
  | cons i before ih =>
    obtain ⟨hp, hl⟩ := hl
    obtain ⟨τ, hτ⟩ := hmem i List.mem_cons_self
    have hne := slot_ne_zero hzero hτ
    have hno := hbefore i List.mem_cons_self τ hτ
    obtain ⟨k, rfl⟩ := Nat.exists_eq_add_of_lt hfuel
    rw [hp, id, walk, if_neg hne, read_idx_eq hm hτ (if_neg hne), ok_bind]
    refine (if_neg (ne_true_of_eq_false hno)).trans ?_
    rw [List.getLastD_cons]
    refine ih (s := s.loaded i (next i) τ) (q := i) hm hl ?_ ?_ ?_
    · exact fun j hj => hmem j (List.mem_cons_of_mem _ hj)
    · exact fun j hj => hbefore j (List.mem_cons_of_mem _ hj)
    · rw [List.cons_append, List.length_cons]
      omega

theorem walk_absent (hm : Mapped s.idx s.dat next slot) (hzero : slot 0 = none) {l : List ℕ}
    (hl : Linked id 0 next p l) (hmem : ∀ i ∈ l, ∃ τ, slot i = some τ)
    (hno : ∀ i ∈ l, ∀ τ, slot i = some τ → wanted τ.key τ.datlen = false)
    (hfuel : l.length < n) : ∃ q' s', walk wanted n q p s = .ok (q', 0, s') ∧
      s'.idx = s.idx ∧ s'.dat = s.dat ∧ s'.db.chainoff = s.db.chainoff := by
  induction l generalizing p q s n with
  | nil =>
    obtain ⟨k, rfl⟩ := Nat.exists_eq_add_of_lt hfuel
    have hp : p = 0 := hl
    exact ⟨q, s, by rw [walk, hp]; exact if_pos rfl, rfl, rfl, rfl⟩
  | cons i l ih =>
    obtain ⟨hp, hl⟩ := hl
    obtain ⟨τ, hτ⟩ := hmem i List.mem_cons_self
    have hne := slot_ne_zero hzero hτ
    have hfalse := hno i List.mem_cons_self τ hτ
    obtain ⟨k, rfl⟩ := Nat.exists_eq_add_of_lt hfuel
    obtain ⟨q', s', hwalk, hidx, hdat, hchain⟩ :=
      ih (s := s.loaded i (next i) τ) (q := i) (n := l.length+1+k) hm hl
        (fun j hj => hmem j (List.mem_cons_of_mem _ hj))
        (fun j hj => hno j (List.mem_cons_of_mem _ hj)) (by omega)
    refine ⟨q', s', ?_, hidx, hdat, hchain⟩
    rw [hp, id, walk, if_neg hne, read_idx_eq hm hτ (if_neg hne), ok_bind]
    exact (if_neg (ne_true_of_eq_false hfalse)).trans hwalk

end walk

/-- Whether some slot of the chain is wanted, and which one comes first. -/
theorem first_wanted (h : Represents L s.idx s.dat m) (b : Option (Fin nhashDef))
    (wanted : Bytes → ℕ → Bool) :
    (∀ i ∈ L.chain b, ∀ τ, L.slot i = some τ → wanted τ.key τ.datlen = false) ∨
    ∃ before o after σ, L.chain b = before++o::after ∧ L.slot o = some σ ∧
      wanted σ.key σ.datlen = true ∧
      ∀ i ∈ before, ∀ τ, L.slot i = some τ → wanted τ.key τ.datlen = false := by
  let test : ℕ → Bool := fun i => (L.slot i).any fun τ => wanted τ.key τ.datlen
  have htest : ∀ i τ, L.slot i = some τ → test i = wanted τ.key τ.datlen := by
    intro i τ hτ
    simp only [test, hτ, Option.any_some]
  cases hfind : (L.chain b).find? test with
  | none =>
    refine Or.inl fun i hi τ hτ => ?_
    rw [← htest i τ hτ]
    exact Bool.eq_false_iff.mpr (List.find?_eq_none.mp hfind i hi)
  | some o =>
    obtain ⟨ho, before, after, hchain, hbefore⟩ := List.find?_eq_some_iff_append.mp hfind
    have hmem : o ∈ L.chain b := List.mem_of_find?_eq_some hfind
    obtain ⟨σ, hσ⟩ := h.chained.member b o hmem
    refine Or.inr ⟨before, o, after, σ, hchain, hσ, by rw [← htest o σ hσ, ho], ?_⟩
    intro i hi τ hτ
    have hno := hbefore i hi
    rw [htest i τ hτ] at hno
    simpa using hno

/-! Finding a key. -/

/-- Either a slot of the key is on its chain, or none is. -/
theorem chain_cases (h : Represents L s.idx s.dat m) (key : Bytes) :
    (∃ before o after σ, L.chain (some (bucketOf key)) = before++o::after ∧ L.slot o = some σ ∧
      σ.key = key ∧ m key = some σ.data) ∨
    ((∀ o ∈ L.chain (some (bucketOf key)), ∀ σ, L.slot o = some σ → σ.key ≠ key) ∧
      m key = none) := by
  cases hm : m key with
  | none =>
    refine Or.inr ⟨fun o ho σ hσ hkey => ?_, rfl⟩
    subst hkey
    have hsome := lookup_some h.holds ho hσ
    rw [show scheme.key σ = σ.key from rfl, hm] at hsome
    cases hsome
  | some d =>
    obtain ⟨o, σ, ho, hσ, hkey, hd⟩ := (h.holds key d).mp hm
    obtain ⟨before, after, hchain⟩ := List.append_of_mem ho
    exact Or.inl ⟨before, o, after, σ, hchain, hσ, hkey, congrArg some hd.symm⟩

def atChain (key : Bytes) (s : State) : State := { s with db := { s.db with
  chainoff := headOf (some (bucketOf key)), position := headOf (some (bucketOf key))+ptrSz } }

theorem find_and_lock_eq (h : Represents L s.idx s.dat m) (key : Bytes) :
    findAndLock key s = (do
      let (ptroff, offset, s) ← walk (fun idxbuf _ => idxbuf = key) (s.idx.length+1)
        (headOf (some (bucketOf key))) (L.next (headOf (some (bucketOf key)))) (atChain key s)
      .ok (if offset = 0 then -1 else 0, { s with db.ptroff := ptroff })) := by
  have hhead : (dbHash key : ℤ)*ptrSz+hashOff = headOf (some (bucketOf key)) := by
    simp only [headOf, bucketOf]
    push_cast
    rfl
  have hread := read_ptr_eq (s := { s with db.chainoff := headOf (some (bucketOf key)) })
    h.mapped (head_place (some (bucketOf key))) rfl
  simp only [findAndLock, hhead]
  rw [hread, ok_bind]
  rfl

def State.located (s : State) (chainoff ptroff o ptrval : ℕ) (σ : Slot) : State :=
  State.loaded { s with db := { s.db with chainoff := chainoff, ptroff := ptroff } } o ptrval σ

theorem find_and_lock_found (h : Represents L s.idx s.dat m)
    (hchain : L.chain (some (bucketOf σ.key)) = before++o::after) (hσ : L.slot o = some σ) :
    findAndLock σ.key s = .ok (0, s.located (headOf (some (bucketOf σ.key)))
      (before.getLastD (headOf (some (bucketOf σ.key)))) o (L.next o) σ) := by
  have hlength := chain_length h (some (bucketOf σ.key))
  have hlinked := chain_linked h (some (bucketOf σ.key))
  have hmember := h.chained.member (some (bucketOf σ.key))
  have hnodup := h.chained.nodup (some (bucketOf σ.key))
  have honce := h.chained.once (bucketOf σ.key)
  rw [hchain] at hlength hlinked hmember hnodup honce
  have hbefore : ∀ i ∈ before, ∀ τ, L.slot i = some τ → decide (τ.key = σ.key) = false := by
    intro i hi τ hτ
    refine decide_eq_false fun hkey => ?_
    have heq := honce i (List.mem_append_left _ hi) o
      (List.mem_append_right _ List.mem_cons_self) τ σ hτ hσ hkey
    rw [heq] at hi
    exact (List.nodup_middle.mp hnodup).notMem (List.mem_append_left _ hi)
  have hwalk := walk_found (fun idxbuf _ => idxbuf = σ.key) (s := atChain σ.key s)
    (q := headOf (some (bucketOf σ.key))) h.mapped h.chained.zero hlinked hmember hbefore hσ
    (decide_eq_true rfl) hlength
  rw [find_and_lock_eq h, hwalk, ok_bind]
  dsimp only
  rw [if_neg (slot_ne_zero h.chained.zero hσ)]
  rfl

theorem find_and_lock_absent (h : Represents L s.idx s.dat m)
    (hno : ∀ o ∈ L.chain (some (bucketOf key)), ∀ σ, L.slot o = some σ → σ.key ≠ key) :
    ∃ s', findAndLock key s = .ok (-1, s') ∧ s'.idx = s.idx ∧ s'.dat = s.dat ∧
      s'.db.chainoff = headOf (some (bucketOf key)) := by
  obtain ⟨q', s', hwalk, hidx, hdat, hoff⟩ := walk_absent
    (fun idxbuf _ => idxbuf = key) (s := atChain key s) (q := headOf (some (bucketOf key))) h.mapped
    h.chained.zero (chain_linked h (some (bucketOf key))) (h.chained.member _)
    (fun i hi τ hτ => decide_eq_false (hno i hi τ hτ)) (chain_length h (some (bucketOf key)))
  refine ⟨{ s' with db.ptroff := q' }, ?_, hidx, hdat, hoff⟩
  rw [find_and_lock_eq h, hwalk, ok_bind]
  rfl

/-- A fetch gives what the table has and leaves the files as they are. -/
theorem db_fetch_eq (h : Represents L s.idx s.dat m) (key : Bytes) :
    ∃ s', dbFetch key s = .ok (m key, s') ∧ s'.idx = s.idx ∧ s'.dat = s.dat := by
  rcases chain_cases h key with ⟨before, o, after, σ, hchain, hσ, rfl, hm⟩ | ⟨hno, hm⟩
  · let s₁ := s.located (headOf (some (bucketOf σ.key)))
      (before.getLastD (headOf (some (bucketOf σ.key)))) o (L.next o) σ
    have hread := read_dat_eq (s := s₁) h.mapped hσ rfl rfl
    refine ⟨{ s₁ with db.datbuf := σ.data }, ?_, rfl, rfl⟩
    simp only [dbFetch, find_and_lock_found h hchain hσ, ok_bind]
    rw [if_neg (by decide), hread, hm]
    rfl
  · obtain ⟨s', hfind, hidx, hdat, -⟩ := find_and_lock_absent h hno
    refine ⟨s', ?_, hidx, hdat⟩
    simp only [dbFetch, hfind, ok_bind]
    rw [if_pos (by decide), hm]

end ProgSistema.HashedDatabase
