import ProgSistema.SharedLog.Model

/-!
# The log across start-ups

Whichever instance creates the semaphore gives it the value one, and whichever
instance sizes the file does so before the first record. The steps of a start
leave a file that has its size as it is, so that the log goes through all
starts, early and late.
-/

set_option autoImplicit false

namespace ProgSistema.SharedLog
open CRuntime Runs Semaphore

def Pc.inside : Pc → Option Unit
  | .check _ _ | .copy _ _ _ | .advance _ _ | .semPost _ => some ()
  | _ => none

def Pc.mapped : Pc → Option ℕ
  | .mmap size | .loop size | .semWait size _ | .check size _ | .copy size _ _
  | .advance size _ | .semPost size => some size
  | _ => none

def Pc.record : Pc → Option Bytes
  | .semWait _ record | .check _ record | .copy _ record _ | .advance _ record => some record
  | _ => none

def Pc.startingUp : Pc → Bool
  | .off | .semCreate | .semRetry | .semOpen | .openFile | .fstat | .ftruncate | .mmap _ => true
  | _ => false

def Shared.Sized (k : Shared) : Prop := ∃ f, k.file = some f ∧ f.size = fileSize

structure Logged (k : Shared) : Prop where
  unsized : ¬ k.Sized → k.written = [] ∧ k.completed = [] ∧ ∀ f, k.file = some f → f.size = 0
  log : ∀ f, k.file = some f → f.size = fileSize → f.LogOf k.written.flatten

def Pc.knowsFile (pc : Pc) (k : Shared) : Prop :=
  match pc with
  | .copy _ record safeOffset => ∀ f, k.file = some f →
      safeOffset = 4+f.offset ∧ 4+f.offset+record.length < fileSize
  | .advance _ record => ∀ f, k.file = some f → 4+f.offset+record.length < fileSize ∧
      f.slice (4+f.offset.toNat) record.length = record
  | _ => True

structure Pc.Knows (pc : Pc) (k : Shared) : Prop where
  present : pc = .fstat ∨ pc = .ftruncate → k.file ≠ none
  sized : pc.mapped ≠ none → k.Sized
  mapped : ∀ size, pc.mapped = some size → size = fileSize
  record : ∀ record, pc.record = some record → record.length < maxRecordSize
  file : pc.knowsFile k
  running : pc ≠ .crashed

/-- A semaphore that does not exist is as good as one with its first value. -/
def Shared.value (k : Shared) (_ : Unit) : ℕ := k.sem.getD 1

structure Inv {ι : Type} (s : Instances ι) : Prop where
  guards : Guards s.shared.value fun i => (s.procs i).inside
  logged : Logged s.shared
  knows : ∀ i, (s.procs i).Knows s.shared

theorem mapped_of_inside {pc : Pc} (h : pc.inside ≠ none) : pc.mapped ≠ none := by
  cases pc <;> simp_all [Pc.inside, Pc.mapped]

theorem knows_file_outside {pc : Pc} (h : pc.inside = none) (k : Shared) : pc.knowsFile k := by
  cases pc <;> trivial

def Grows (k k' : Shared) : Prop :=
  (k.file ≠ none → k'.file ≠ none) ∧ (k.Sized → k'.Sized)

theorem Pc.Knows.keep {pc : Pc} {k k' : Shared} (hk : pc.Knows k) (hgrows : Grows k k')
    (hfile : pc.inside = none ∨ k'.file = k.file) : pc.Knows k' := by
  refine ⟨fun h => hgrows.1 (hk.present h), fun h => hgrows.2 (hk.sized h), hk.mapped, hk.record,
    ?_, hk.running⟩
  rcases hfile with hout | hsame
  · exact knows_file_outside hout k'
  · have hknown := hk.file
    cases pc with
    | copy size record safeOffset =>
      show ∀ f, k'.file = some f → _
      rw [hsame]
      exact hknown
    | advance size record =>
      show ∀ f, k'.file = some f → _
      rw [hsame]
      exact hknown
    | _ => trivial

theorem grows_same {k k' : Shared} (h : k'.file = k.file) : Grows k k' := by
  unfold Grows Shared.Sized
  rw [h]
  exact ⟨id, id⟩

theorem Logged.same {k k' : Shared} (hl : Logged k) (hfile : k'.file = k.file)
    (hwritten : k'.written = k.written) (hcompleted : k'.completed = k.completed) : Logged k' := by
  constructor
  · unfold Shared.Sized
    rw [hfile, hwritten, hcompleted]
    exact hl.unsized
  · rw [hfile, hwritten]
    exact hl.log

section Act
variable {ok : Bool} {pc pc' : Pc} {k k' : Shared}

structure Quiet (pc pc' : Pc) (k k' : Shared) : Prop where
  outside : pc.inside = none ∧ pc'.inside = none
  value : k'.value = k.value
  grows : Grows k k'
  kept : k.Sized → k'.file = k.file ∧ k'.written = k.written
  logged : Logged k'
  knows : pc'.Knows k'

/-- A step that leaves the file alone and goes on outside the critical section. -/
theorem quiet_same (hl : Logged k) (hout : pc.inside = none ∧ pc'.inside = none)
    (hvalue : k'.value = k.value) (hfile : k'.file = k.file) (hwritten : k'.written = k.written)
    (hcompleted : k'.completed = k.completed) (hknows : pc'.Knows k) : Quiet pc pc' k k' where
  outside := hout
  value := hvalue
  grows := grows_same hfile
  kept _ := ⟨hfile, hwritten⟩
  logged := hl.same hfile hwritten hcompleted
  knows := hknows.keep (grows_same hfile) (Or.inr hfile)

def Pc.early : Pc → Bool
  | .off | .semCreate | .semRetry | .semOpen | .openFile | .ended => true
  | _ => false

theorem early_knows (h : pc.early = true) (k : Shared) : pc.Knows k ∧ pc.inside = none := by
  cases pc <;> first
    | (cases h; done)
    | exact ⟨⟨by simp, by simp [Pc.mapped], by simp [Pc.mapped], by simp [Pc.record], trivial,
        by simp⟩, rfl⟩

theorem semaphore_quiet (hl : Logged k)
    (h : initSemaphore ok k pc = some (pc', k')) : Quiet pc pc' k k' := by
  have hearly : ∀ {q r : Pc} {k₁ : Shared}, q.early = true → r.early = true →
      k₁.value = k.value → k₁.file = k.file → k₁.written = k.written →
      k₁.completed = k.completed → Quiet q r k k₁ := by
    intro q r k₁ hq hr hvalue hfile hwritten hcompleted
    exact quiet_same hl ⟨(early_knows hq k).2, (early_knows hr k).2⟩ hvalue hfile hwritten
      hcompleted (early_knows hr k).1
  cases pc with
  | off =>
    cases h
    apply hearly rfl _ rfl rfl rfl rfl
    split <;> rfl
  | semCreate =>
    simp only [initSemaphore] at h
    split at h
    · cases h
      exact hearly rfl rfl rfl rfl rfl rfl
    · split at h
      · rename_i hnone
        cases h
        have hvalue : Shared.value { k with sem := some 1 } = k.value := by
          unfold Shared.value
          rw [hnone]
          rfl
        exact hearly rfl rfl hvalue rfl rfl rfl
      · cases h
        exact hearly rfl rfl rfl rfl rfl rfl
  | semRetry =>
    cases h
    apply hearly rfl _ rfl rfl rfl rfl
    split <;> rfl
  | semOpen =>
    simp only [initSemaphore] at h
    split at h
    · cases h
      exact hearly rfl rfl rfl rfl rfl rfl
    · cases h
      exact hearly rfl rfl rfl rfl rfl rfl
  | _ => cases h

/-- The file has been sized, or is still empty. -/
theorem size_cases (hl : Logged k) {f : MappedFile} (hf : k.file = some f) :
    f.size = fileSize ∨ ¬ k.Sized ∧ f.size = 0 := by
  by_cases hsized : k.Sized
  · obtain ⟨g, hg, hsize⟩ := hsized
    rw [hf] at hg
    cases hg
    exact Or.inl hsize
  · exact Or.inr ⟨hsized, (hl.unsized hsized).2.2 f hf⟩

/-- The first instance creates the file, which nobody has written to. -/
theorem created_quiet (hl : Logged k) (hf : k.file = none) :
    Quiet .openFile .fstat k { k with file := some emptyFile } := by
  have hopen : Pc.fstat.Knows { k with file := some emptyFile } :=
    ⟨by simp, by simp [Pc.mapped], by simp [Pc.mapped], by simp [Pc.record], trivial, by simp⟩
  have hunsized : ¬ k.Sized := by
    rintro ⟨f, hsome, -⟩
    rw [hf] at hsome
    cases hsome
  obtain ⟨hwritten, hcompleted, -⟩ := hl.unsized hunsized
  refine ⟨⟨rfl, rfl⟩, rfl, ⟨by simp, fun hs => absurd hs hunsized⟩,
    fun hs => absurd hs hunsized, ⟨fun _ => ⟨hwritten, hcompleted, ?_⟩, ?_⟩, hopen⟩
  · intro f hsome
    cases hsome
    rfl
  · intro f hsome hsize
    cases hsome
    cases hsize

/-- The file that is sized first has its offset and no record. -/
theorem sized_quiet (hl : Logged k) {f : MappedFile} (hunsized : ¬ k.Sized) (hzero : f.size = 0) :
    Quiet .ftruncate (.mmap fileSize) k { k with file := some (f.ftruncate fileSize) } := by
  have hnew : ({ k with file := some (f.ftruncate fileSize) } : Shared).Sized := ⟨_, rfl, rfl⟩
  refine ⟨⟨rfl, rfl⟩, rfl, ⟨by simp, fun _ => hnew⟩, fun hs => absurd hs hunsized,
    ⟨fun hs => absurd hnew hs, ?_⟩, ⟨by simp, fun _ => hnew, by simp [Pc.mapped],
      by simp [Pc.record], trivial, by simp⟩⟩
  intro g hg hsize
  cases hg
  have hoffset := MappedFile.ftruncate_empty f fileSize hzero (by decide)
  rw [(hl.unsized hunsized).1]
  refine ⟨hoffset.ge, ?_, ?_⟩
  · rw [hoffset, hsize]
    decide
  · rw [hoffset]
    rfl

theorem file_quiet (hl : Logged k) (hk : pc.Knows k)
    (h : initSharedFile ok k pc = some (pc', k')) : Quiet pc pc' k k' := by
  have hended : ∀ {q : Pc}, q.inside = none → Quiet q .ended k k := fun hq =>
    quiet_same hl ⟨hq, rfl⟩ rfl rfl rfl rfl (early_knows rfl k).1
  have hmapped : ∀ {q : Pc}, k.Sized → q = .mmap fileSize ∨ q = .loop fileSize → q.Knows k := by
    intro q hsized hq
    rcases hq with rfl | rfl <;>
      exact ⟨by simp, fun _ => hsized, by simp [Pc.mapped], by simp [Pc.record], trivial, by simp⟩
  cases pc with
  | openFile =>
    simp only [initSharedFile] at h
    split at h
    · cases h
      exact hended rfl
    · cases h
      cases hf : k.file with
      | some f =>
        have hsame : { k with file := some ((some f).getD emptyFile) } = k := by
          rw [Option.getD_some, ← hf]
        rw [hsame]
        exact quiet_same hl ⟨rfl, rfl⟩ rfl rfl rfl rfl
          ⟨by simp [hf], by simp [Pc.mapped], by simp [Pc.mapped], by simp [Pc.record], trivial,
            by simp⟩
      | none => exact created_quiet hl hf
  | fstat =>
    simp only [initSharedFile] at h
    split at h
    · rename_i f hf
      cases h
      rcases size_cases hl hf with hsize | ⟨-, hzero⟩
      · rw [if_neg (by rw [hsize]; decide), hsize]
        exact quiet_same hl ⟨rfl, rfl⟩ rfl rfl rfl rfl (hmapped ⟨f, hf, hsize⟩ (Or.inl rfl))
      · rw [if_pos hzero]
        apply quiet_same hl ⟨rfl, rfl⟩ rfl rfl rfl rfl
        exact ⟨fun _ => by simp [hf], by simp [Pc.mapped], by simp [Pc.mapped], by simp [Pc.record],
          trivial, by simp⟩
    · cases h
      exact hended rfl
  | ftruncate =>
    simp only [initSharedFile] at h
    split at h
    · cases h
      exact hended rfl
    · cases h
      obtain ⟨f, hf⟩ := Option.ne_none_iff_exists'.mp (hk.present (Or.inr rfl))
      rw [hf, Option.map_some]
      rcases size_cases hl hf with hsize | ⟨hunsized, hzero⟩
      -- another instance has sized the file meanwhile
      · have hsame : { k with file := some (f.ftruncate fileSize) } = k := by
          rw [← hsize, MappedFile.ftruncate_same, ← hf]
        rw [hsame]
        exact quiet_same hl ⟨rfl, rfl⟩ rfl rfl rfl rfl (hmapped ⟨f, hf, hsize⟩ (Or.inl rfl))
      · exact sized_quiet hl hunsized hzero
  | mmap size =>
    cases h
    have hsized := hk.sized (by simp [Pc.mapped])
    rw [hk.mapped size rfl]
    cases ok with
    | false => exact hended rfl
    | true => exact quiet_same hl ⟨rfl, rfl⟩ rfl rfl rfl rfl (hmapped hsized (Or.inr rfl))
  | _ => cases h

theorem start_quiet {ι : Type} {program : ι → Program} {i : ι} {e : Event} (hl : Logged k)
    (hk : pc.Knows k) (hstart : pc.startingUp = true) (h : act program i e pc k = some (pc', k')) :
    Quiet pc pc' k k' := by
  cases e with
  | run ok =>
    cases pc with
    | off | semCreate | semRetry | semOpen => exact semaphore_quiet hl h
    | openFile | fstat | ftruncate | mmap => exact file_quiet hl hk h
    | _ => cases hstart
  | write => cases pc <;> first | (cases h; done) | cases hstart
  | leave => cases pc <;> first | (cases h; done) | cases hstart

end Act

end ProgSistema.SharedLog
