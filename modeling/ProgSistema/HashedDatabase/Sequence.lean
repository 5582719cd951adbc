import ProgSistema.HashedDatabase.Update

/-!
# Reading record after record

The records of the index file lie one behind the other. A read of the next record
passes over the deleted ones, whose keys are blank, and stops at the end of the file.
-/

set_option autoImplicit false

namespace ProgSistema.HashedDatabase
open CRuntime RecordLayout LinkedChain ChainedTable

variable {L : Layout} {s : State} {idx dat : Bytes} {m : Bytes → Option Bytes} {σ τ : Slot}
  {o i : ℕ} {next : ℕ → ℕ} {slot : ℕ → Option Slot}

theorem first_boundary (hm : Mapped idx dat next slot) :
    firstRecord = idx.length ∨ ∃ σ, slot firstRecord = some σ := by
  obtain ⟨xs, ds, h, rfl, rfl⟩ := hm
  refine h.start.imp_right fun ⟨e, he⟩ => ?_
  rw [slot_of_get he]
  exact Option.isSome_iff_exists.mp ((h.shape _ e he).mpr le_rfl)

theorem slot_first (hm : Mapped idx dat next slot) (hσ : slot o = some σ) : firstRecord ≤ o := by
  obtain ⟨xs, ds, h, rfl, rfl⟩ := hm
  obtain ⟨e, he, heσ⟩ := get_of_slot hσ
  exact (h.shape o e he).mp (Option.isSome_iff_exists.mpr ⟨σ, heσ⟩)

theorem slot_next (hm : Mapped idx dat next slot) (hσ : slot o = some σ) :
    o+σ.size = idx.length ∨ ∃ τ, slot (o+σ.size) = some τ := by
  obtain ⟨xs, ds, h, rfl, rfl⟩ := hm
  obtain ⟨e, he, heσ⟩ := get_of_slot hσ
  have hsize := slot_bytes_length (h.fits e (get_mem he)) heσ
  have hfirst := (h.shape o e he).mp (Option.isSome_iff_exists.mpr ⟨σ, heσ⟩)
  have hnext := get_next bytes_pos he
  rw [hsize, ← h.index] at hnext
  refine hnext.imp_right fun ⟨e', he'⟩ => ?_
  rw [slot_of_get he']
  exact Option.isSome_iff_exists.mp ((h.shape _ e' he').mpr (by omega))

theorem slot_apart (hm : Mapped idx dat next slot) (hσ : slot o = some σ) (hτ : slot i = some τ)
    (hlt : o < i) : o+σ.size ≤ i := by
  obtain ⟨xs, ds, h, rfl, rfl⟩ := hm
  obtain ⟨e, he, heσ⟩ := get_of_slot hσ
  obtain ⟨e', he', -⟩ := get_of_slot hτ
  rw [← slot_bytes_length (h.fits e (get_mem he)) heσ]
  exact get_apart he he' hlt

theorem size_pos (σ : Slot) : 0 < σ.size := by
  have hptr : ptrSz = 7 := rfl
  rw [Slot.size]
  omega

/-- A key that `dbNextrec` does not take for that of a deleted record. -/
def Shown (key : Bytes) : Prop := ∃ c ∈ key, c ≠ space

theorem shown_iff (key : Bytes) : Shown key ↔ ¬ key.all (· = space) = true := by
  simp [Shown]

/-- The loop stops at the first record with a key that is shown. -/
theorem next_loop_cases (h : Represents L s.idx s.dat m) (n : ℕ)
    (hb : Boundary L s.idx s.db.position) (hn : s.idx.length < s.db.position+n) :
    (∃ s', nextLoop n s = .ok (false, s') ∧ s'.idx = s.idx ∧ s'.dat = s.dat ∧
      s'.db.position = s.idx.length ∧
      ∀ i τ, s.db.position ≤ i → L.slot i = some τ → ¬ Shown τ.key) ∨
    ∃ o σ, L.slot o = some σ ∧ Shown σ.key ∧ s.db.position ≤ o ∧
      (∀ i τ, s.db.position ≤ i → i < o → L.slot i = some τ → ¬ Shown τ.key) ∧
      nextLoop n s = .ok (true, s.loaded o (L.next o) σ) := by
  induction n generalizing s with
  | zero =>
    rcases hb with hend | ⟨σ, hσ⟩
    · omega
    · have hlt := slot_lt h.mapped hσ
      omega
  | succ n ih =>
    rcases hb with hend | ⟨σ, hσ⟩
    · refine Or.inl ⟨{ s with db.idxoff := s.idx.length }, ?_, rfl, rfl, hend, ?_⟩
      · refine bind_of_ok (read_idx_end hend) ?_
        exact if_pos (by decide)
      · intro i τ hi hτ
        have hlt := slot_lt h.mapped hτ
        omega
    have hread := read_idx_eq (p := 0) h.mapped hσ (if_pos rfl)
    have hrc : ¬ ((L.next s.db.position : ℕ) : ℤ) < 0 := by omega
    by_cases hshown : Shown σ.key
    · refine Or.inr ⟨s.db.position, σ, hσ, hshown, le_rfl, fun i τ hi hlt => by omega, ?_⟩
      refine bind_of_ok hread ?_
      refine (if_neg hrc).trans ?_
      exact if_neg ((shown_iff σ.key).mp hshown)
    · have hblank : σ.key.all (· = space) = true :=
        not_not.mp fun hno => hshown ((shown_iff σ.key).mpr hno)
      let s₁ : State := s.loaded s.db.position (L.next s.db.position) σ
      have hstep : ∀ r, nextLoop n s₁ = r → nextLoop (n+1) s = r := by
        intro r hr
        refine bind_of_ok hread ?_
        refine (if_neg hrc).trans ?_
        exact (if_pos hblank).trans hr
      have hpos := size_pos σ
      have hposition : s₁.db.position = s.db.position+σ.size := rfl
      have hskip : ∀ i τ, s.db.position ≤ i → L.slot i = some τ →
          i = s.db.position ∧ ¬ Shown τ.key ∨ s₁.db.position ≤ i := by
        intro i τ hi hτ
        by_cases heq : i = s.db.position
        · rw [heq, hσ] at hτ
          exact Or.inl ⟨heq, Option.some.inj hτ ▸ hshown⟩
        · exact Or.inr (slot_apart h.mapped hσ hτ (by omega))
      have hn₁ : s₁.idx.length < s₁.db.position+n := by
        rw [hposition]
        show s.idx.length < _
        omega
      rcases ih (s := s₁) h (slot_next h.mapped hσ) hn₁ with
        ⟨s', hloop, hidx, hdat, hend, hrest⟩ | ⟨o, τ, hτ, hτshown, hle, hbetween, hloop⟩
      · refine Or.inl ⟨s', hstep _ hloop, hidx, hdat, hend, fun i τ hi hτ => ?_⟩
        rcases hskip i τ hi hτ with ⟨-, hno⟩ | hi₁
        · exact hno
        · exact hrest i τ hi₁ hτ
      · refine Or.inr ⟨o, τ, hτ, hτshown, by omega, fun i ρ hi hlt hρ => ?_, hstep _ hloop⟩
        rcases hskip i ρ hi hρ with ⟨-, hno⟩ | hi₁
        · exact hno
        · exact hbetween i ρ hi₁ hlt hρ

/-- The next record is that of a slot in use, unless no record with a key that is
shown lies behind. -/
theorem db_nextrec_cases (h : Represents L s.idx s.dat m) (hb : Boundary L s.idx s.db.position) :
    (∃ s', dbNextrec s = .ok (none, s') ∧ s'.idx = s.idx ∧ s'.dat = s.dat ∧
      s'.db.position = s.idx.length ∧
      ∀ i τ, s.db.position ≤ i → L.slot i = some τ → ¬ Shown τ.key) ∨
    ∃ o σ s', Live L o σ ∧ s.db.position ≤ o ∧
      (∀ i τ, s.db.position ≤ i → i < o → L.slot i = some τ → ¬ Shown τ.key) ∧
      dbNextrec s = .ok (some (σ.key, σ.data), s') ∧ s'.idx = s.idx ∧ s'.dat = s.dat ∧
      s'.db.position = o+σ.size := by
  rcases next_loop_cases h (s.idx.length+1) hb (by omega) with
    ⟨s', hloop, hidx, hdat, hend, hrest⟩ | ⟨o, σ, hσ, hshown, hle, hbetween, hloop⟩
  · refine Or.inl ⟨s', ?_, hidx, hdat, hend, hrest⟩
    exact bind_of_ok hloop rfl
  · let s₁ : State := s.loaded o (L.next o) σ
    have hread := read_dat_eq (s := s₁) h.mapped hσ rfl rfl
    have hlive : Live L o σ := by
      refine ⟨(h.chained.filed o σ hσ).resolve_left fun hfree => ?_, hσ⟩
      obtain ⟨c, hc, hne⟩ := hshown
      exact hne (h.chained.blank o hfree σ hσ c hc)
    refine Or.inr ⟨o, σ, { s₁ with db.datbuf := σ.data }, hlive, hle, hbetween, ?_, rfl, rfl, rfl⟩
    refine bind_of_ok hloop ?_
    exact bind_of_ok hread rfl

end ProgSistema.HashedDatabase
