import ProgSistema.SharedArray.Conservation
import ProgSistema.SharedArray.LogFile

/-!
# From the producer to the log

A consumer takes a record out of the array under one semaphore and writes it to
the log under the other one. A record that it cannot write is lost. Every record
added is followed through both of them.
-/

set_option autoImplicit false

namespace ProgSistema.SharedArray.Pipeline
open CRuntime

inductive Stage where
  | array (pc : SharedArray.Pc)
  | format (record : Record)
  | file (pc : Writers.Pc)
  | crashed
  deriving DecidableEq, Repr

/-- The steps at a semaphore are those of the array or of the file, according to
where the process is. -/
inductive Event where
  | produce (rand : ℕ) (hour : Fin 24) (minute : Fin 60) (second : Fin 61)
  | consume
  | stop
  | wait (interrupted : Bool)
  | work (rand : ℕ)
  | post
  | format (noMemory : Bool)
  deriving DecidableEq, Repr

def Event.onArray : Event → Option SharedArray.Event
  | .produce rand hour minute second => some (.produce (generateRecord rand hour minute second))
  | .consume => some .consume
  | .stop => some .stop
  | .wait interrupted => some (.wait interrupted)
  | .work rand => some (.work rand)
  | .post => some .post
  | .format _ => none

def Event.onFile : Event → Option Writers.Event
  | .wait interrupted => some (.wait interrupted)
  | .work _ => some .work
  | .post => some .post
  | _ => none

structure Handled (ι : Type) where
  consumer : ι
  record : Record
  written : Bool
  deriving DecidableEq, Repr

/-- The array and the file. The records that the consumers have handled only
record. -/
structure Shared (ι : Type) where
  array : SharedArray.Shared ι
  file : Writers.Shared
  handled : List (Handled ι)

section
variable {ι : Type}

def afterArray (pc next : SharedArray.Pc) : Stage :=
  match pc, next with
  | .semPost (some record), .idle => .format record
  | _, next => .array next

def afterFile : Writers.Pc → Stage
  | .idle => .array .idle
  | next => .file next

def finished (i : ι) (pc next : Writers.Pc) : List (Handled ι) :=
  match pc, next with
  | .critical record, _ => [⟨i, record, true⟩]
  | .semWait record, .idle => [⟨i, record, false⟩]
  | _, _ => []

def act (role : ι → Role) (i : ι) (e : Event) (stage : Stage) (k : Shared ι) :
    Option (Stage × Shared ι) :=
  match stage with
  | .array pc => e.onArray.bind fun a => (SharedArray.act role i a pc k.array).map fun next =>
      (afterArray pc next.1, { k with array := next.2 })
  | .format record =>
    match e with
    | .format true => some (.array .idle, { k with handled := k.handled++[⟨i, record, false⟩] })
    | .format false =>
      match writeLine record with
      | .error _ => some (.crashed, k)
      | .ok _ => some (.file (.semWait record), k)
    | _ => none
  | .file pc => e.onFile.bind fun a => (Writers.act i a pc k.file).map fun next =>
      (afterFile next.1,
        { k with file := next.2, handled := k.handled++finished i pc next.1 })
  | .crashed => none

abbrev Processes (ι : Type) := Sharing.System ι Stage (Shared ι)

def initialised (shm : SharedMemory) (bytes : ℕ → UInt8) : Processes ι where
  procs _ := .array .idle
  shared :=
    { array := (SharedArray.initialised shm : SharedArray.Processes ι).shared,
      file := (Writers.created bytes : Writers.Consumers ι).shared,
      handled := [] }

def Stage.hand : Stage → List Record
  | .array (.semPost (some record)) => [record]
  | .format record => [record]
  | .file (.semWait record) => [record]
  | .file (.critical record) => [record]
  | _ => []

def Good (record : Record) : Prop := (encode record).length ≤ 16 ∧ record.number ≠ -1

theorem generated_good (rand : ℕ) (hour : Fin 24) (minute : Fin 60) (second : Fin 61) :
    Good (generateRecord rand hour minute second) := by
  refine ⟨encode_length rand hour minute second, ?_⟩
  show (rand : ℤ) % 10000 ≠ -1
  omega

def Stage.Fits : Stage → Prop
  | .array pc => pc ≠ .crashed ∧ ∀ record, pc = .semWait (.add record) ∨
      pc = .critical (.add record) ∨ pc = .semPost (some record) → Good record
  | .format record => Good record
  | .file pc => pc ≠ .crashed ∧ pc ≠ .idle ∧ ∀ record, pc = .semWait record ∨
      pc = .critical record → Good record
  | .crashed => False

inductive Moves (i : ι) (stage stage' : Stage) (k k' : Shared ι) : Prop
  | quiet (hand : stage'.hand = stage.hand) (obtained : k'.array.obtained = k.array.obtained)
      (handled : k'.handled = k.handled) (written : k'.file.written = k.file.written)
  | takes (record : Record) (empty : stage.hand = []) (hand : stage'.hand = [record])
      (obtained : k'.array.obtained = k.array.obtained++[(i, record)])
      (handled : k'.handled = k.handled) (written : k'.file.written = k.file.written)
  | loses (record : Record) (hand : stage.hand = [record]) (empty : stage'.hand = [])
      (obtained : k'.array.obtained = k.array.obtained)
      (handled : k'.handled = k.handled++[⟨i, record, false⟩])
      (written : k'.file.written = k.file.written)
  | writes (record : Record) (hand : stage.hand = [record]) (empty : stage'.hand = [])
      (obtained : k'.array.obtained = k.array.obtained)
      (handled : k'.handled = k.handled++[⟨i, record, true⟩])
      (written : k'.file.written = k.file.written++[record] ∨ k'.file.written = [record])

structure Sound (k : Shared ι) : Prop where
  array : Conserved k.array
  file : Writers.Logged k.file
  added : ∀ record ∈ k.array.ledger.added, Good record

theorem obtained_added {k : SharedArray.Shared ι} (h : Conserved k) {o : ι × Record}
    (ho : o ∈ k.obtained) : o.2 ∈ k.ledger.added := by
  have hmem : some o.2 ∈ k.obtained.map fun o => some o.2 := List.mem_map_of_mem ho
  rw [h.obtained] at hmem
  obtain ⟨p, -, hp⟩ := List.mem_map.mp hmem
  exact List.mem_of_getElem? hp

/-! Steps on the array. -/

theorem call_add_added (record : Record) (k : SharedArray.Shared ι) :
    ∀ r ∈ (callAdd record k).2.ledger.added, r ∈ k.ledger.added ∨ r = record := by
  unfold callAdd
  split
  · exact fun r hr => Or.inl hr
  · show ∀ r ∈ (k.ledger.add maxRecord record).added, r ∈ k.ledger.added ∨ r = record
    intro r hr
    unfold Ledger.add at hr
    split at hr <;> simpa using hr

theorem call_remove_added (i : ι) (rand : ℕ) (k : SharedArray.Shared ι) :
    (callRemove i rand k).2.ledger.added = k.ledger.added := by
  unfold callRemove
  split <;> rfl

theorem waits_to_add {role : ι → Role} {i : ι} {e : SharedArray.Event} {pc : SharedArray.Pc}
    {k k' : SharedArray.Shared ι} {record : Record}
    (h : SharedArray.act role i e pc k = some (.semWait (.add record), k')) :
    e = .produce record := by
  unfold SharedArray.act at h
  split at h
  · split at h
    · cases h
      rfl
    · cases h
  · split at h <;> cases h
  · cases h
  · split at h
    · cases h
    · split at h <;> cases h
  · unfold callAdd at h
    split at h <;> cases h
  · unfold callRemove at h
    split at h <;> cases h
  · unfold afterPost at h
    split at h <;> cases h
  · cases h

/-- Outside its critical section a process has no record. -/
theorem hand_outside {pc : SharedArray.Pc} (h : pc.inside = false) :
    (Stage.array pc).hand = [] := by
  cases pc <;> first | rfl | cases h

theorem after_outside {pc : SharedArray.Pc} (h : pc.inside = false) (next : SharedArray.Pc) :
    afterArray pc next = .array next := by
  cases pc <;> first | rfl | cases h

theorem array_step {role : ι → Role} {i : ι} {e : SharedArray.Event} {pc pc' : SharedArray.Pc}
    {k : Shared ι} {array : SharedArray.Shared ι} (hs : Sound k) (hf : (Stage.array pc).Fits)
    (he : ∀ record, e = .produce record → Good record)
    (h : SharedArray.act role i e pc k.array = some (pc', array)) :
    Sound { k with array := array } ∧ (afterArray pc pc').Fits ∧
      Moves i (.array pc) (afterArray pc pc') k { k with array := array } := by
  obtain ⟨hconserved, hpc', -⟩ := act_conserved hs.array h
  rcases act_cases h with ⟨hout, hout', -, rfl⟩ | ⟨call, rfl, rfl, -, rfl⟩ |
    ⟨record, rfl, heq⟩ | ⟨rand, rfl, heq⟩ | ⟨removed, rfl, rfl, rfl⟩
  · rw [after_outside hout]
    refine ⟨hs, ⟨hpc', ?_⟩, .quiet ?_ rfl rfl rfl⟩
    · rintro record (rfl | rfl | rfl)
      · exact he record (waits_to_add h)
      · cases hout'
      · cases hout'
    · rw [hand_outside hout, hand_outside hout']
  · refine ⟨⟨hconserved, hs.file, hs.added⟩, ⟨hpc', ?_⟩, .quiet rfl rfl rfl rfl⟩
    rintro record (hrecord | hrecord | hrecord)
    · cases hrecord
    · cases hrecord
      exact hf.2 record (Or.inl rfl)
    · cases hrecord
  · obtain ⟨hpc, -, -, hobtained, -⟩ := call_add_spec hs.array record
    have hadded := call_add_added record k.array
    rw [← heq] at hpc hobtained hadded
    obtain rfl : pc' = .semPost none := hpc
    refine ⟨⟨hconserved, hs.file, ?_⟩, ⟨hpc', ?_⟩, .quiet rfl hobtained rfl rfl⟩
    · intro r hr
      rcases hadded r hr with hold | hnew
      · exact hs.added r hold
      · rw [hnew]
        exact hf.2 record (Or.inr (Or.inl rfl))
    · rintro r (hr | hr | hr) <;> cases hr
  · have hadded := call_remove_added i rand k.array
    rcases call_remove_spec hs.array i rand with
      ⟨-, hstop⟩ | ⟨-, record, hpc, -, -, -, hobtained, -⟩
    · rw [hstop] at heq
      cases heq
      refine ⟨hs, ⟨hpc', ?_⟩, .quiet rfl rfl rfl rfl⟩
      rintro r (hr | hr | hr) <;> cases hr
    · rw [← heq] at hadded hpc hobtained
      obtain rfl : pc' = .semPost (some record) := hpc
      have hadded' : ∀ r ∈ array.ledger.added, Good r := by
        intro r hr
        rw [hadded] at hr
        exact hs.added r hr
      refine ⟨⟨hconserved, hs.file, hadded'⟩, ⟨hpc', ?_⟩, .takes record rfl rfl hobtained rfl rfl⟩
      rintro r (hr | hr | hr)
      · cases hr
      · cases hr
      · cases hr
        refine hadded' record (obtained_added (o := (i, record)) hconserved ?_)
        rw [hobtained]
        exact List.mem_append_right _ (List.mem_singleton.mpr rfl)
  · cases removed with
    | none =>
      refine ⟨⟨hconserved, hs.file, hs.added⟩, ⟨hpc', ?_⟩, .quiet rfl rfl rfl rfl⟩
      rintro r (hr | hr | hr) <;> cases hr
    | some record =>
      have hgood := hf.2 record (Or.inr (Or.inr rfl))
      have hidle : afterPost (some record) = .idle := if_neg (by simpa using hgood.2)
      rw [hidle]
      exact ⟨⟨hconserved, hs.file, hs.added⟩, hgood, .quiet rfl rfl rfl rfl⟩

/-! Steps in `write_to_shared_file`. -/

theorem written_spec {k : Writers.Shared} (hk : Writers.Logged k) {record : Record}
    (hlen : (encode record).length ≤ 16) :
    (Writers.writeToSharedFile record k).2.written = k.written++[record] ∨
      (Writers.writeToSharedFile record k).2.written = [record] := by
  obtain ⟨file, hok, -⟩ := MappedFile.append_spec hk.log (encode record)
    (by rw [hk.size]; decide) (by rw [hk.size]; unfold fileSize; omega)
  unfold Writers.writeToSharedFile
  rw [hok]
  dsimp only
  split
  · exact Or.inr rfl
  · exact Or.inl rfl

theorem idle_fits : (Stage.array .idle).Fits := by
  refine ⟨nofun, ?_⟩
  rintro record (h | h | h) <;> cases h

theorem file_step {i : ι} {e : Writers.Event} {pc pc' : Writers.Pc} {k : Shared ι}
    {file : Writers.Shared} (hs : Sound k) (hf : (Stage.file pc).Fits)
    (h : Writers.act i e pc k.file = some (pc', file)) :
    let k' := { k with file := file, handled := k.handled++finished i pc pc' }
    Sound k' ∧ (afterFile pc').Fits ∧ Moves i (.file pc) (afterFile pc') k k' := by
  obtain ⟨hcrashed, hidle, hgood⟩ := hf
  have hsound : ∀ {record : Record}, Good record → pc.Produced → ∀ handled,
      Sound { k with file := file, handled := handled } := fun _ hpc _ =>
    ⟨hs.array, (Writers.act_logged (i := i) hs.file hpc h).1, hs.added⟩
  cases pc with
  | idle => exact absurd rfl hidle
  | crashed => exact absurd rfl hcrashed
  | semWait record =>
    have hrecord := hgood record (Or.inl rfl)
    have hsound := hsound hrecord hrecord.1
    cases e with
    | wait interrupted =>
      rw [Writers.act] at h
      split at h
      · cases h
        exact ⟨hsound _, idle_fits, .loses record rfl rfl rfl rfl rfl⟩
      · split at h
        · cases h
        · cases h
          refine ⟨hsound _, ⟨nofun, nofun, ?_⟩, .quiet rfl rfl (List.append_nil _) rfl⟩
          rintro r (hr | hr)
          · cases hr
          · cases hr
            exact hrecord
    | write | work | post => cases h
  | critical record =>
    have hrecord := hgood record (Or.inr rfl)
    have hsound := hsound hrecord hrecord.1
    cases e with
    | work =>
      have hnext := Option.some.inj h
      obtain ⟨hpc, -⟩ := Writers.write_spec hs.file record hrecord.1
      have hwritten := written_spec hs.file hrecord.1
      rw [hnext] at hpc hwritten
      obtain rfl : pc' = .semPost := hpc
      refine ⟨hsound _, ⟨nofun, nofun, ?_⟩, .writes record rfl rfl rfl rfl hwritten⟩
      rintro r (hr | hr) <;> cases hr
    | write | wait | post => cases h
  | semPost =>
    cases e with
    | post =>
      have hpc : Writers.Pc.semPost.Produced := trivial
      have hlogged := (Writers.act_logged (i := i) hs.file hpc h).1
      cases h
      exact ⟨⟨hs.array, hlogged, hs.added⟩, idle_fits, .quiet rfl rfl (List.append_nil _) rfl⟩
    | write | wait | work => cases h

/-! What holds of every run. -/

theorem act_step {role : ι → Role} {i : ι} {e : Event} {stage stage' : Stage} {k k' : Shared ι}
    (hs : Sound k) (hf : stage.Fits) (h : act role i e stage k = some (stage', k')) :
    Sound k' ∧ stage'.Fits ∧ Moves i stage stage' k k' := by
  cases stage with
  | array pc =>
    obtain ⟨a, ha, hnext⟩ := Option.bind_eq_some_iff.mp h
    obtain ⟨⟨pc', array⟩, hact, hk⟩ := Option.map_eq_some_iff.mp hnext
    cases hk
    refine array_step hs hf ?_ hact
    intro record hrecord
    cases e <;> cases ha <;> cases hrecord
    exact generated_good _ _ _ _
  | format record =>
    cases e with
    | format noMemory =>
      cases noMemory with
      | true =>
        cases h
        exact ⟨⟨hs.array, hs.file, hs.added⟩, idle_fits, .loses record rfl rfl rfl rfl rfl⟩
      | false =>
        have hlen := hf.1
        have hline : writeLine record = .ok (encode record) := if_pos (by omega)
        rw [act, hline] at h
        cases h
        refine ⟨hs, ⟨nofun, nofun, ?_⟩, .quiet rfl rfl rfl rfl⟩
        rintro r (hr | hr)
        · cases hr
          exact hf
        · cases hr
    | produce | consume | stop | wait | work | post => cases h
  | file pc =>
    obtain ⟨a, -, hnext⟩ := Option.bind_eq_some_iff.mp h
    obtain ⟨⟨pc', file⟩, hact, hk⟩ := Option.map_eq_some_iff.mp hnext
    cases hk
    exact file_step hs hf hact
  | crashed => cases hf

variable [DecidableEq ι]

def Shared.obtainedBy (k : Shared ι) (i : ι) : List Record :=
  (k.array.obtained.filter (·.1 = i)).map Prod.snd

def Shared.handledBy (k : Shared ι) (i : ι) : List Record :=
  (k.handled.filter (·.consumer = i)).map Handled.record

def Shared.logged (k : Shared ι) : List Record :=
  (k.handled.filter (·.written)).map Handled.record

structure Inv (s : Processes ι) : Prop where
  sound : Sound s.shared
  fits : ∀ i, (s.procs i).Fits
  order : ∀ i, s.shared.obtainedBy i = s.shared.handledBy i++(s.procs i).hand
  log : s.shared.file.written <:+ s.shared.logged

theorem initialised_inv (shm : SharedMemory) (bytes : ℕ → UInt8) :
    Inv (initialised shm bytes : Processes ι) := by
  have hfile := (Writers.created_inv bytes : Writers.LogInv (Writers.created bytes : Writers.Consumers ι))
  refine ⟨⟨conserved_initialised shm, hfile.logged, ?_⟩, fun _ => idle_fits, fun _ => rfl, ?_⟩
  · intro record hrecord
    cases hrecord
  · exact List.suffix_refl _

theorem moves_order {i : ι} {stage stage' : Stage} {k k' : Shared ι}
    (h : Moves i stage stage' k k') (horder : k.obtainedBy i = k.handledBy i++stage.hand) :
    k'.obtainedBy i = k'.handledBy i++stage'.hand := by
  unfold Shared.obtainedBy Shared.handledBy at horder ⊢
  cases h with
  | quiet hhand hobtained hhandled =>
    rw [hhand, hobtained, hhandled, horder]
  | takes record hempty hhand hobtained hhandled =>
    rw [hhand, hobtained, hhandled, List.filter_append, List.map_append, horder, hempty]
    simp
  | loses record hhand hempty hobtained hhandled
  | writes record hhand hempty hobtained hhandled =>
    rw [hempty, hobtained, hhandled, List.filter_append, List.map_append, horder, hhand]
    simp

theorem moves_others {i j : ι} (hj : j ≠ i) {stage stage' : Stage} {k k' : Shared ι}
    (h : Moves i stage stage' k k') :
    k'.obtainedBy j = k.obtainedBy j ∧ k'.handledBy j = k.handledBy j := by
  have hne : i ≠ j := Ne.symm hj
  unfold Shared.obtainedBy Shared.handledBy
  cases h with
  | quiet _ hobtained hhandled =>
    rw [hobtained, hhandled]
    exact ⟨rfl, rfl⟩
  | takes record _ _ hobtained hhandled =>
    rw [hobtained, hhandled, List.filter_append]
    simp [hne]
  | loses record _ _ hobtained hhandled | writes record _ _ hobtained hhandled =>
    rw [hobtained, hhandled, List.filter_append]
    simp [hne]

omit [DecidableEq ι] in
/-- The file begins again with some record or goes on. -/
theorem moves_log {i : ι} {stage stage' : Stage} {k k' : Shared ι} (h : Moves i stage stage' k k')
    (hlog : k.file.written <:+ k.logged) : k'.file.written <:+ k'.logged := by
  unfold Shared.logged at hlog ⊢
  cases h with
  | quiet _ _ hhandled hwritten | takes _ _ _ _ hhandled hwritten =>
    rw [hhandled, hwritten]
    exact hlog
  | loses record _ _ _ hhandled hwritten =>
    rw [hhandled, hwritten, List.filter_append, List.map_append]
    simpa using hlog
  | writes record _ _ _ hhandled hwritten =>
    rw [hhandled, List.filter_append, List.map_append]
    rcases hwritten with hgoes | hagain
    · obtain ⟨before, hbefore⟩ := hlog
      rw [hgoes, ← hbefore, List.append_assoc]
      exact List.suffix_append _ _
    · rw [hagain]
      exact List.suffix_append _ _

theorem step_inv {role : ι → Role} (a : ι × Event) (s t : Processes ι) (hi : Inv s)
    (h : Sharing.step (act role) a s = some t) : Inv t := by
  obtain ⟨stage, k, hact, rfl⟩ := Sharing.step_next _ h
  obtain ⟨hsound, hfits, hmoves⟩ := act_step hi.sound (hi.fits a.1) hact
  refine ⟨hsound, (Function.forall_update_iff s.procs fun _ q => q.Fits).mpr
    ⟨hfits, fun i _ => hi.fits i⟩, ?_, moves_log hmoves hi.log⟩
  apply (Function.forall_update_iff s.procs
    fun i q => k.obtainedBy i = k.handledBy i++q.hand).mpr
  refine ⟨moves_order hmoves (hi.order a.1), fun i hne => ?_⟩
  obtain ⟨hobtained, hhandled⟩ := moves_others hne hmoves
  rw [hobtained, hhandled]
  exact hi.order i

theorem reachable_inv {role : ι → Role} {shm : SharedMemory} {bytes : ℕ → UInt8}
    {s : Processes ι} (h : Runs.Reachable (Sharing.step (act role)) (initialised shm bytes) s) :
    Inv s :=
  Runs.reachable_invariant _ Inv (initialised_inv shm bytes) step_inv h

/-! What it means for the records. -/

/-- A list is part of another one where it is so for every key. -/
theorem subperm_of_keys {α κ : Type*} [DecidableEq κ] (key : α → κ) {xs ys : List α}
    (h : ∀ i, (xs.filter (key · = i)).Subperm (ys.filter (key · = i))) : xs.Subperm ys := by
  classical
  rw [List.subperm_ext_iff]
  intro x _
  have hcount := (h (key x)).count_le x
  rwa [List.count_filter (by simp), List.count_filter (by simp)] at hcount

/-- The pairs of one key are determined by their second parts. -/
theorem filter_key {κ β : Type*} [DecidableEq κ] (i : κ) (xs : List (κ × β)) :
    xs.filter (·.1 = i) = ((xs.filter (·.1 = i)).map Prod.snd).map fun b => (i, b) := by
  rw [List.map_map]
  refine (List.map_id _).symm.trans (List.map_congr_left ?_)
  rintro ⟨j, b⟩ hmem
  have hkey : j = i := by simpa using (List.mem_filter.mp hmem).2
  rw [hkey]
  rfl

def Shared.finishedPairs (k : Shared ι) : List (ι × Record) :=
  k.handled.map fun h => (h.consumer, h.record)

theorem finished_pairs_by (k : Shared ι) (i : ι) :
    (k.finishedPairs.filter (·.1 = i)).map Prod.snd = k.handledBy i := by
  rw [Shared.finishedPairs, Shared.handledBy, List.filter_map, List.map_map]
  rfl

/-- What one process has obtained, in pairs with it. -/
theorem obtained_pairs {s : Processes ι} (hi : Inv s) (i : ι) :
    s.shared.array.obtained.filter (·.1 = i) =
      s.shared.finishedPairs.filter (·.1 = i)++(s.procs i).hand.map fun r => (i, r) := by
  rw [filter_key i s.shared.array.obtained, filter_key i s.shared.finishedPairs,
    finished_pairs_by, ← List.map_append, ← hi.order i]
  rfl

theorem finished_subperm {s : Processes ι} (hi : Inv s) :
    s.shared.finishedPairs.Subperm s.shared.array.obtained := by
  refine subperm_of_keys Prod.fst fun i => ?_
  rw [obtained_pairs hi i]
  exact (List.sublist_append_left _ _).subperm

theorem finished_perm {s : Processes ι} (hi : Inv s) (hhands : ∀ i, (s.procs i).hand = []) :
    s.shared.finishedPairs.Perm s.shared.array.obtained := by
  refine (finished_subperm hi).antisymm (subperm_of_keys Prod.fst fun i => ?_)
  rw [obtained_pairs hi i, hhands i, List.map_nil, List.append_nil]

omit [DecidableEq ι] in
theorem logged_sublist (k : Shared ι) :
    k.logged.Sublist (k.finishedPairs.map Prod.snd) := by
  rw [Shared.finishedPairs, List.map_map]
  exact List.filter_sublist.map _

omit [DecidableEq ι] in
theorem obtained_places {k : SharedArray.Shared ι} (h : Conserved k) :
    (k.obtained.map Prod.snd).map some = k.ledger.removed.map (k.ledger.added[·]?) := by
  rw [List.map_map]
  exact h.obtained

/-- Each process handles the records that it obtains one after the other and in
their order. The log consists of the lines of the last records written, no
record is written that was not added, and none more often than it was added.
When no process has a record, the array is empty and never was full, and none
has been lost on the way, every record added has been written. -/
theorem records_reach_log (role : ι → Role) (shm : SharedMemory) (bytes : ℕ → UInt8)
    (s : Processes ι)
    (h : Runs.Reachable (Sharing.step (act role)) (initialised shm bytes) s) :
    (∀ i, s.procs i ≠ .crashed ∧ s.procs i ≠ .array .crashed ∧ s.procs i ≠ .file .crashed) ∧
    (∀ i, s.shared.obtainedBy i = s.shared.handledBy i++(s.procs i).hand) ∧
    (s.shared.file.written <:+ s.shared.logged ∧
      s.shared.file.file.slice 4 s.shared.file.file.offset.toNat =
        s.shared.file.written.flatMap encode) ∧
    s.shared.logged.Subperm s.shared.array.ledger.added ∧
    ((∀ i, (s.procs i).hand = []) → s.shared.array.shm.records = [] →
      s.shared.array.ledger.base = 0 → (∀ x ∈ s.shared.handled, x.written = true) →
      s.shared.logged.Perm s.shared.array.ledger.added) := by
  have hi := reachable_inv h
  have hconserved := hi.sound.array
  have hplaces := obtained_places hconserved
  refine ⟨fun i => ?_, hi.order, ⟨hi.log, hi.sound.file.log.content⟩, ?_, ?_⟩
  · have hfits := hi.fits i
    refine ⟨?_, ?_, ?_⟩ <;> intro hcrashed <;> rw [hcrashed] at hfits
    · exact hfits
    · exact hfits.1 rfl
    · exact hfits.1 rfl
  · obtain ⟨places, hperm, hsub⟩ := finished_subperm hi
    have hfinished : (s.shared.finishedPairs.map Prod.snd).Subperm
        (s.shared.array.obtained.map Prod.snd) := ⟨places.map Prod.snd, hperm.map _, hsub.map _⟩
    exact (logged_sublist s.shared).subperm.trans
      (hfinished.trans (Ledger.removed_subperm hconserved.valid hplaces))
  · intro hhands hempty hbase hwritten
    have hpresent : s.shared.array.ledger.present = [] := by
      rw [← List.length_eq_zero_iff, Ledger.holds_length hconserved.holds, hempty]
      rfl
    have hall : s.shared.logged = s.shared.finishedPairs.map Prod.snd := by
      rw [Shared.logged, List.filter_eq_self.mpr hwritten, Shared.finishedPairs, List.map_map]
      rfl
    rw [hall]
    exact ((finished_perm hi hhands).map Prod.snd).trans
      (Ledger.removed_perm hconserved.valid hplaces hbase hpresent)

end

def oneRecord : List (Fin 3 × Event) :=
  [(0, .produce 12345 10 0 7), (0, .wait false), (0, .work 0), (0, .post),
    (1, .consume), (1, .wait false), (1, .work 3), (1, .post), (1, .format false),
    (1, .wait false), (1, .work 0), (1, .post)]

theorem one_record_run : (Runs.exec (Sharing.step (act threeRoles)) oneRecord
    (initialised ⟨fun _ => ⟨[], 0⟩, 0⟩ fun _ => 0)).isSome = true := by
  decide +kernel

def oneRecordEnd : Processes (Fin 3) := (Runs.exec (Sharing.step (act threeRoles)) oneRecord
  (initialised ⟨fun _ => ⟨[], 0⟩, 0⟩ fun _ => 0)).get one_record_run

theorem one_record_logged : oneRecordEnd.shared.logged.Perm oneRecordEnd.shared.array.ledger.added ∧
    oneRecordEnd.shared.file.file.slice 4 oneRecordEnd.shared.file.file.offset.toNat =
      text "|10:00:07|2345|\n" := by
  obtain ⟨-, -, ⟨-, hlog⟩, -, hall⟩ := records_reach_log threeRoles ⟨fun _ => ⟨[], 0⟩, 0⟩
    (fun _ => 0) oneRecordEnd (Runs.reachable_get one_record_run)
  have hwritten : oneRecordEnd.shared.file.written.flatMap encode = text "|10:00:07|2345|\n" := by
    decide +kernel
  refine ⟨hall (by decide +kernel) (by decide +kernel) (by decide +kernel) (by decide +kernel), ?_⟩
  rw [← hwritten]
  exact hlog

end ProgSistema.SharedArray.Pipeline
