import ProgSistema.SharedLog.Startup

/-!
# The records in the log

An instance in the critical section makes room for its record, copies it
behind the log and advances the offset. No other instance is there, and no
start touches the file any more.
-/

set_option autoImplicit false

namespace ProgSistema.SharedLog
open CRuntime Runs Semaphore

section Act
variable {ok : Bool} {pc pc' : Pc} {k k' : Shared}

structure Work (pc pc' : Pc) (k k' : Shared) : Prop where
  inside : pc.inside = some () ∧ pc'.inside = some ()
  value : k'.value = k.value
  grows : Grows k k'
  logged : Logged k'
  knows : pc'.Knows k'

/-- A file that still has its size, and a new position in the critical section. -/
theorem work_of {g : MappedFile}
    (hinside : pc.inside = some () ∧ pc'.inside = some ()) (hvalue : k'.value = k.value)
    (hg : k'.file = some g) (hgsize : g.size = fileSize) (hlog : g.LogOf k'.written.flatten)
    (hmapped : ∀ size, pc'.mapped = some size → size = fileSize)
    (hrecord : ∀ record, pc'.record = some record → record.length < maxRecordSize)
    (hfile : pc'.knowsFile k') : Work pc pc' k k' where
  inside := hinside
  value := hvalue
  grows := ⟨fun _ => by simp [hg], fun _ => ⟨g, hg, hgsize⟩⟩
  logged := by
    constructor
    · intro hunsized
      exact absurd ⟨g, hg, hgsize⟩ hunsized
    · intro f' hf' _
      rw [hg] at hf'
      cases hf'
      exact hlog
  knows := by
    refine ⟨?_, fun _ => ⟨g, hg, hgsize⟩, hmapped, hrecord, hfile, ?_⟩
    · intro _
      simp [hg]
    · rintro rfl
      cases hinside.2

theorem same_size {f : MappedFile} {n : ℕ} (h : f.size = n) : { f with size := n } = f := by
  rw [← h]

theorem check_work {size : ℕ} {record : Bytes} (hl : Logged k) (hk : (Pc.check size record).Knows k)
    (h : writeToSharedFile ok k (.check size record) = some (pc', k')) :
    Work (.check size record) pc' k k' := by
  obtain ⟨f, hf, hsize⟩ := hk.sized (by simp [Pc.mapped])
  have hrecord := hk.record record rfl
  obtain ⟨hlow, hhigh, hcontent⟩ := hl.log f hf hsize
  have hlen : record.length < f.size := by
    rw [hsize]
    exact hrecord.trans (by decide)
  obtain ⟨hsafe, hfull⟩ := MappedFile.full_iff hlow hhigh (by rw [hsize]; decide) hlen
  simp only [writeToSharedFile, hf] at h
  rw [hk.mapped size rfl, same_size hsize] at h
  unfold MappedFile.place at h
  by_cases hroom : f.full record.length = true
  · rw [if_pos hroom, if_pos hroom] at h
    cases h
    have hzero : (f.storeOffset 0).offset = 0 := MappedFile.store_offset f 0 le_rfl (by decide)
    refine work_of ⟨rfl, rfl⟩ rfl rfl hsize ⟨?_, ?_, ?_⟩ ?_ ?_ ?_
    · exact hzero.ge
    · show 4+(f.storeOffset 0).offset < (f.size : ℤ)
      rw [hzero, hsize]
      decide
    · show (f.storeOffset 0).slice 4 (f.storeOffset 0).offset.toNat = _
      rw [hzero]
      rfl
    · intro size' h'
      cases h'
      rfl
    · intro record' h'
      cases h'
      exact hrecord
    · intro f' hf'
      cases hf'
      show (4 : ℤ) = 4+(f.storeOffset 0).offset ∧
        4+(f.storeOffset 0).offset+record.length < fileSize
      rw [hzero]
      unfold maxRecordSize at hrecord
      unfold fileSize
      exact ⟨rfl, by omega⟩
  · rw [if_neg hroom, if_neg hroom] at h
    dsimp only at h
    cases h
    refine work_of ⟨rfl, rfl⟩ rfl rfl hsize ⟨hlow, hhigh, hcontent⟩ ?_ ?_ ?_
    · intro size' h'
      cases h'
      rfl
    · intro record' h'
      cases h'
      exact hrecord
    · intro f' hf'
      have hsame : f' = f := (Option.some.inj hf').symm
      have hlt := mt hfull.mpr hroom
      rw [hsize] at hlt
      rw [hsame]
      exact ⟨hsafe, not_le.mp hlt⟩

theorem copy_work {size : ℕ} {record : Bytes} {safeOffset : ℤ} (hl : Logged k)
    (hk : (Pc.copy size record safeOffset).Knows k)
    (h : writeToSharedFile ok k (.copy size record safeOffset) = some (pc', k')) :
    Work (.copy size record safeOffset) pc' k k' := by
  obtain ⟨f, hf, hsize⟩ := hk.sized (by simp [Pc.mapped])
  obtain ⟨hoffset, hroom⟩ := hk.file f hf
  obtain ⟨hlow, hhigh, hcontent⟩ := hl.log f hf hsize
  have hpos : safeOffset = ((4+f.offset.toNat : ℕ) : ℤ) := by omega
  obtain ⟨g, hcopy, hgsize, hgoffset, hslice, hbefore⟩ :=
    MappedFile.memcpy_spec f (4+f.offset.toNat) record (by omega) (by omega)
  simp only [writeToSharedFile, hf] at h
  rw [hk.mapped size rfl, hsize, min_self, same_size hsize, hpos, hcopy] at h
  cases h
  have hsame : g.slice 4 f.offset.toNat = f.slice 4 f.offset.toNat := hbefore _ _ le_rfl
  refine work_of ⟨rfl, rfl⟩ rfl rfl rfl ⟨?_, ?_, ?_⟩ ?_ ?_ ?_
  · show 0 ≤ g.offset
    rw [hgoffset]
    exact hlow
  · show 4+g.offset < (fileSize : ℤ)
    rw [hgoffset, ← hsize]
    exact hhigh
  · show g.slice 4 g.offset.toNat = _
    rw [hgoffset, hsame]
    exact hcontent
  · intro size' h'
    cases h'
    rfl
  · intro record' h'
    cases h'
    exact hk.record record rfl
  · intro f' hf'
    cases hf'
    show 4+g.offset+record.length < fileSize ∧ g.slice (4+g.offset.toNat) record.length = record
    rw [hgoffset]
    exact ⟨hroom, hslice⟩

theorem advance_work {size : ℕ} {record : Bytes} (hl : Logged k)
    (hk : (Pc.advance size record).Knows k)
    (h : writeToSharedFile ok k (.advance size record) = some (pc', k')) :
    Work (.advance size record) pc' k k' := by
  obtain ⟨f, hf, hsize⟩ := hk.sized (by simp [Pc.mapped])
  obtain ⟨hroom, hslice⟩ := hk.file f hf
  obtain ⟨hlow, hhigh, hcontent⟩ := hl.log f hf hsize
  obtain ⟨n, hn⟩ := Int.eq_ofNat_of_zero_le hlow
  rw [hn] at hcontent hroom hslice
  unfold fileSize at hroom
  have hnext : toInt (f.offset+toInt record.length) = ((n+record.length : ℕ) : ℤ) := by
    rw [hn, to_int_of_lt record.length (by omega), ← Nat.cast_add]
    exact to_int_of_lt _ (by omega)
  have hstored := MappedFile.store_offset f ((n+record.length : ℕ) : ℤ) (by omega) (by omega)
  simp only [writeToSharedFile, hf] at h
  rw [hnext] at h
  cases h
  refine work_of ⟨rfl, rfl⟩ rfl rfl hsize ⟨?_, ?_, ?_⟩ ?_ ?_ trivial
  · rw [hstored]
    exact Int.natCast_nonneg _
  · rw [hstored]
    show _ < (f.size : ℤ)
    rw [hsize]
    unfold fileSize
    omega
  · show _ = (k.written++[record]).flatten
    rw [hstored, Int.toNat_natCast, MappedFile.store_offset_slice _ _ le_rfl,
      MappedFile.slice_append, List.flatten_append, List.flatten_singleton, ← hcontent]
    exact congrArg _ hslice
  · intro size' h'
    cases h'
    exact hk.mapped size rfl
  · intro record' h'
    cases h'

end Act

section Step
variable {ι : Type} [DecidableEq ι] {s : Instances ι} {i : ι} {pc : Pc} {k : Shared}

/-- A step after which each instance still knows what it has to know. -/
theorem inv_of (hi : Inv s) (hguards : Guards k.value
      (Function.update (fun j => (s.procs j).inside) i pc.inside))
    (hlogged : Logged k) (hknows : pc.Knows k) (hgrows : Grows s.shared k)
    (hothers : ∀ j, j ≠ i → (s.procs j).inside = none ∨ k.file = s.shared.file) :
    Inv { procs := Function.update s.procs i pc, shared := k } where
  guards := by
    show Guards k.value fun j => (Function.update s.procs i pc j).inside
    rw [Sharing.keys_update]
    exact hguards
  logged := hlogged
  knows := by
    apply (Function.forall_update_iff s.procs fun _ q => q.Knows k).mpr
    exact ⟨hknows, fun j hj => (hi.knows j).keep hgrows (hothers j hj)⟩

theorem quiet_inv (hi : Inv s) (h : Quiet (s.procs i) pc s.shared k) :
    Inv { procs := Function.update s.procs i pc, shared := k } := by
  apply inv_of hi _ h.logged h.knows h.grows
  · intro j _
    cases hj : (s.procs j).inside with
    | none => exact Or.inl rfl
    | some u =>
      have hmapped : (s.procs j).mapped ≠ none := mapped_of_inside (by simp [hj])
      exact Or.inr (h.kept ((hi.knows j).sized hmapped)).1
  · rw [h.value]
    exact guards_keep hi.guards (h.outside.2.trans h.outside.1.symm)

theorem work_inv (hi : Inv s) (h : Work (s.procs i) pc s.shared k) :
    Inv { procs := Function.update s.procs i pc, shared := k } := by
  apply inv_of hi _ h.logged h.knows h.grows
  · intro j hj
    cases hin : (s.procs j).inside with
    | none => exact Or.inl rfl
    | some u => exact absurd (hi.guards.alone j i u hin h.inside.1) hj
  · rw [h.value]
    exact guards_keep hi.guards (h.inside.2.trans h.inside.1.symm)

theorem wait_inv {size value : ℕ} {record : Bytes} (hi : Inv s)
    (hpc : s.procs i = .semWait size record) (hsem : s.shared.sem = some (value+1)) :
    Inv { procs := Function.update s.procs i (.check size record),
          shared := { s.shared with sem := some value } } := by
  have hk := hi.knows i
  rw [hpc] at hk
  have hvalue : Shared.value { s.shared with sem := some value } =
      Function.update s.shared.value () (s.shared.value ()-1) := by
    funext u
    simp [Shared.value, hsem]
  apply inv_of hi
  · rw [hvalue]
    exact guards_wait hi.guards i () (by simp [Shared.value, hsem])
  · exact hi.logged.same rfl rfl rfl
  · exact ⟨by simp, hk.sized, hk.mapped, hk.record, trivial, by simp⟩
  · exact grows_same rfl
  · intro _ _
    exact Or.inr rfl

theorem post_inv {size : ℕ} {ok : Bool} (hi : Inv s) (hpc : s.procs i = .semPost size) :
    Inv { procs := Function.update s.procs i (if ok then .loop size else .ended),
          shared := { s.shared with sem := s.shared.sem.map (·+1) } } := by
  have hk := hi.knows i
  rw [hpc] at hk
  have hin : (s.procs i).inside = some () := by
    rw [hpc]
    rfl
  have hzero := hi.guards.taken i () hin
  have hvalue : Shared.value { s.shared with sem := s.shared.sem.map (·+1) } =
      Function.update s.shared.value () (s.shared.value ()+1) := by
    funext u
    cases hsem : s.shared.sem with
    | none => simp [Shared.value, hsem] at hzero
    | some v => simp [Shared.value, hsem]
  apply inv_of hi
  · have hout : (if ok = true then Pc.loop size else Pc.ended).inside = none := by
      cases ok <;> rfl
    rw [hvalue, hout]
    exact guards_post hi.guards i () hin
  · exact hi.logged.same rfl rfl rfl
  · cases ok with
    | false => exact (early_knows rfl _).1
    | true => exact ⟨by simp, fun _ => hk.sized (by simp [Pc.mapped]), hk.mapped, by simp [Pc.record],
        trivial, by simp⟩
  · exact grows_same rfl
  · intro _ _
    exact Or.inr rfl

theorem write_inv {ok : Bool} (hi : Inv s)
    (h : writeToSharedFile ok s.shared (s.procs i) = some (pc, k)) :
    Inv { procs := Function.update s.procs i pc, shared := k } := by
  have hk := hi.knows i
  cases hpc : s.procs i with (rw [hpc] at h hk)
  | semWait size record =>
    simp only [writeToSharedFile] at h
    split at h
    · cases h
      apply quiet_inv hi
      rw [hpc]
      exact quiet_same hi.logged ⟨rfl, rfl⟩ rfl rfl rfl rfl (early_knows rfl _).1
    · split at h
      · rename_i value hsem
        cases h
        exact wait_inv hi hpc hsem
      · cases h
  | check size record =>
    apply work_inv hi
    rw [hpc]
    exact check_work hi.logged hk h
  | copy size record safeOffset =>
    apply work_inv hi
    rw [hpc]
    exact copy_work hi.logged hk h
  | advance size record =>
    apply work_inv hi
    rw [hpc]
    exact advance_work hi.logged hk h
  | semPost size =>
    cases h
    exact post_inv hi hpc
  | _ => cases h

theorem act_inv (program : ι → Program) {e : Event} (hi : Inv s)
    (h : act program i e (s.procs i) s.shared = some (pc, k)) :
    Inv { procs := Function.update s.procs i pc, shared := k } := by
  by_cases hstart : (s.procs i).startingUp = true
  · exact quiet_inv hi (start_quiet hi.logged (hi.knows i) hstart h)
  · have hk := hi.knows i
    cases e with
    | run ok =>
      apply write_inv hi
      cases hpc : s.procs i <;> rw [hpc] at h hstart <;> first
        | exact h
        | exact absurd rfl hstart
    | write rand hour minute second =>
      cases hpc : s.procs i with (rw [hpc] at h hk)
      | loop size =>
        cases h
        apply quiet_inv hi
        rw [hpc]
        apply quiet_same hi.logged ⟨rfl, rfl⟩ rfl rfl rfl rfl
        refine ⟨by simp, hk.sized, hk.mapped, ?_, trivial, by simp⟩
        intro record h'
        cases h'
        exact generate_record_length _ rand hour minute second
      | _ => cases h
    | leave =>
      cases hpc : s.procs i with (rw [hpc] at h)
      | loop size =>
        cases h
        apply quiet_inv hi
        rw [hpc]
        exact quiet_same hi.logged ⟨rfl, rfl⟩ rfl rfl rfl rfl (early_knows rfl _).1
      | _ => cases h

end Step

theorem nothing_inv {ι : Type} : Inv (nothing : Instances ι) where
  guards := by
    refine ⟨alone_of_empty fun _ => rfl, ?_, fun _ => le_rfl⟩
    intro i u hi
    cases hi
  logged := by
    constructor
    · intro _
      refine ⟨rfl, rfl, ?_⟩
      intro f hf
      cases hf
    · intro f hf
      cases hf
  knows _ := (early_knows rfl _).1

theorem reachable_inv {ι : Type} [DecidableEq ι] {program : ι → Program} {s : Instances ι}
    (h : Reachable (Sharing.step (act program)) nothing s) : Inv s := by
  apply reachable_invariant _ Inv nothing_inv _ h
  intro a s t hi hstep
  obtain ⟨pc, k, hact, rfl⟩ := Sharing.step_next _ hstep
  exact act_inv program hi hact

/-- No two instances are in the critical section, the steps of a start leave
a file that has been written to as it is, everyone maps the same size, and the
file holds the records written since the last reset. -/
theorem log_across_starts {ι : Type} [DecidableEq ι] (program : ι → Program) (s : Instances ι)
    (h : Reachable (Sharing.step (act program)) nothing s) :
    (∀ i j, (s.procs i).inside ≠ none → (s.procs j).inside ≠ none → i = j) ∧
    (∀ i e t, (s.procs i).startingUp = true → Sharing.step (act program) (i, e) s = some t →
      s.shared.completed ≠ [] →
        t.shared.file = s.shared.file ∧ t.shared.written = s.shared.written) ∧
    (∀ i size, (s.procs i).mapped = some size → size = fileSize) ∧
    (∀ i, s.procs i ≠ .crashed) ∧
    ((∀ i, (s.procs i).inside = none) →
      (s.shared.written ≠ [] → ∃ f, s.shared.file = some f ∧ f.size = fileSize) ∧
      ∀ f, s.shared.file = some f → f.size ≠ 0 → f.size = fileSize ∧ 0 ≤ f.offset ∧
        4+f.offset < fileSize ∧ f.slice 4 f.offset.toNat = s.shared.written.flatten) := by
  have hi := reachable_inv h
  refine ⟨?_, ?_, fun i => (hi.knows i).mapped, fun i => (hi.knows i).running, fun _ => ⟨?_, ?_⟩⟩
  · intro i j hin hin'
    obtain ⟨u, hu⟩ := Option.ne_none_iff_exists'.mp hin
    obtain ⟨v, hv⟩ := Option.ne_none_iff_exists'.mp hin'
    exact hi.guards.alone i j () hu hv
  · intro i e t hstart hstep hcompleted
    obtain ⟨pc, k, hact, rfl⟩ := Sharing.step_next _ hstep
    have hsized : s.shared.Sized := by
      by_contra hunsized
      exact hcompleted (hi.logged.unsized hunsized).2.1
    exact (start_quiet hi.logged (hi.knows i) hstart hact).kept hsized
  · intro hwritten
    by_contra hunsized
    exact hwritten (hi.logged.unsized hunsized).1
  · intro f hf hsize
    rcases size_cases hi.logged hf with hfull | ⟨-, hzero⟩
    · obtain ⟨hlow, hhigh, hcontent⟩ := hi.logged.log f hf hfull
      rw [hfull] at hhigh
      exact ⟨hfull, hlow, hhigh, hcontent⟩
    · exact absurd hzero hsize

/-- Both programs find neither the semaphore nor the file, and `processoB`
sizes the file only after `processoA` has written its first record. -/
def bothCreate : List (Fin 2 × Event) :=
  [(0, .run true), (1, .run true), (0, .run true), (1, .run true), (0, .run true), (1, .run true),
    (1, .run true), (0, .run true), (1, .run true), (0, .run true), (1, .run true), (0, .run true),
    (0, .run true), (0, .write 12345 10 0 7), (0, .run true), (0, .run true), (0, .run true),
    (0, .run true), (0, .run true), (1, .run true), (1, .run true), (1, .write 42 10 0 8),
    (1, .run true), (1, .run true), (1, .run true), (1, .run true), (1, .run false)]

def bothPrograms (i : Fin 2) : Program := if i = 0 then .processoA else .processoB

theorem both_create_run :
    (exec (Sharing.step (act bothPrograms)) bothCreate nothing).isSome = true := by
  decide +kernel

def bothCreated : Instances (Fin 2) :=
  (exec (Sharing.step (act bothPrograms)) bothCreate nothing).get both_create_run

theorem both_create_log : ∃ f, bothCreated.shared.file = some f ∧
    f.slice 4 f.offset.toNat = text "| ProcessoA | 2345 | 10:00:07 | ProcessoA |\n"++
      text "| ProcessoB42 | 10:00:08 | ProcessoB |\n" := by
  have hwritten : bothCreated.shared.written.flatten =
      text "| ProcessoA | 2345 | 10:00:07 | ProcessoA |\n"++
        text "| ProcessoB42 | 10:00:08 | ProcessoB |\n" := by decide +kernel
  obtain ⟨-, -, -, -, hlog⟩ := log_across_starts bothPrograms bothCreated
    (reachable_get both_create_run)
  obtain ⟨hsome, hfile⟩ := hlog (by decide +kernel)
  obtain ⟨f, hf, hsize⟩ := hsome (by decide +kernel)
  obtain ⟨-, -, -, hcontent⟩ := hfile f hf (by rw [hsize]; decide)
  rw [hwritten] at hcontent
  exact ⟨f, hf, hcontent⟩

end ProgSistema.SharedLog
