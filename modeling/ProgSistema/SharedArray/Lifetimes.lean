import ProgSistema.Lib.Semaphore
import ProgSistema.SharedArray.Model

/-!
# Starts and exits of the producer and the consumers

The semaphores and the segment are named objects. A name can be removed and
given to a new object while processes still use the old one, and the exclusion
that a semaphore provides is between the processes that have opened the same
object. The producer replaces the semaphore of the array when it starts; a
consumer removes the name of the semaphore of the log when it leaves.
-/

set_option autoImplicit false

namespace ProgSistema.SharedArray.Lifetimes
open Semaphore

/-- The objects that the names stand for, and the value of each semaphore. The
log is always the same file. -/
structure Names where
  memorySem : Option ℕ
  fileSem : Option ℕ
  values : ℕ → ℕ
  nextSem : ℕ
  segment : Option ℕ
  nextSegment : ℕ

def Names.setValue (k : Names) (sem value : ℕ) : Names :=
  { k with values := Function.update k.values sem value }

def Names.newSem (k : Names) : Names :=
  { k with values := Function.update k.values k.nextSem 1, nextSem := k.nextSem+1 }

inductive Object where
  | array (segment : ℕ)
  | logFile
  deriving DecidableEq, Repr

structure Handles where
  memory : ℕ
  file : ℕ
  segment : ℕ
  deriving DecidableEq, Repr

inductive Work where
  | adding (memory segment : ℕ)
  | removing (h : Handles)
  | writing (h : Handles)
  deriving DecidableEq, Repr

def Work.sem : Work → ℕ
  | .adding memory _ => memory
  | .removing h => h.memory
  | .writing h => h.file

def Work.object : Work → Object
  | .adding _ segment => .array segment
  | .removing h => .array h.segment
  | .writing _ => .logFile

inductive Stage where
  | ready
  | wait
  | critical
  | post
  deriving DecidableEq, Repr

def Stage.inside : Stage → Bool
  | .critical => true
  | .post => true
  | _ => false

inductive Pc where
  | off
  | unlinkOldSem
  | createMemorySem
  | createSegment (memory : ℕ)
  | resizeSegment (memory segment : ℕ)
  | mapCreated (memory segment : ℕ)
  | initArray (memory segment : ℕ)
  | openMemorySem
  | openFileSem (memory : ℕ)
  | createFileSem (memory : ℕ)
  | reopenFileSem (memory : ℕ)
  | openSegment (memory file : ℕ)
  | mapSegment (h : Handles)
  | openFile (h : Handles)
  | mapFile (h : Handles)
  | working (w : Work) (stage : Stage)
  | unlinkSegment
  | unlinkMemorySem
  | unlinkFileSem
  | ended
  deriving DecidableEq, Repr

/-- The result of a system call is negative where it fails. For the critical
section of a removal this is that the array is empty, and for the start of a
write that there is no memory. -/
inductive Event where
  | run (result : ℤ)
  | leave
  | kill
  deriving DecidableEq, Repr

/-- The start of the producer: `main`, `init_semaphore`, `init_shared_memory`
and `init_shared_array`. -/
def startProducer (pc : Pc) (k : Names) (result : ℤ) : Option (Pc × Names) :=
  match pc with
  | .unlinkOldSem => some (.createMemorySem, if result < 0 then k else { k with memorySem := none })
  | .createMemorySem =>
    if result < 0 then some (.ended, k)
    else match k.memorySem with
      | some memory => some (.createSegment memory, k)
      | none => some (.createSegment k.nextSem, { k.newSem with memorySem := some k.nextSem })
  | .createSegment memory =>
    if result < 0 then some (.ended, k)
    else match k.segment with
      | some segment => some (.resizeSegment memory segment, k)
      | none => some (.resizeSegment memory k.nextSegment,
          { k with segment := some k.nextSegment, nextSegment := k.nextSegment+1 })
  | .resizeSegment memory segment =>
    some (if result < 0 then .ended else .mapCreated memory segment, k)
  | .mapCreated memory segment =>
    some (if result < 0 then .ended else .initArray memory segment, k)
  | .initArray memory segment =>
    some (if result < 0 then .ended else .working (.adding memory segment) .ready, k)
  | _ => none

/-- The start of a consumer: `init_semaphore_shared_memory`,
`init_semaphore_file`, `init_shared_memory` and `init_shared_file`. -/
def startConsumer (pc : Pc) (k : Names) (result : ℤ) : Option (Pc × Names) :=
  match pc with
  | .openMemorySem =>
    match k.memorySem with
    | some memory => some (if result < 0 then .ended else .openFileSem memory, k)
    | none => some (.ended, k)
  | .openFileSem memory =>
    match k.fileSem with
    | some file => some (if result < 0 then .createFileSem memory else .openSegment memory file, k)
    | none => some (.createFileSem memory, k)
  | .createFileSem memory =>
    match k.fileSem with
    | some _ => some (.reopenFileSem memory, k)
    | none =>
      if result < 0 then some (.ended, k)
      else some (.openSegment memory k.nextSem, { k.newSem with fileSem := some k.nextSem })
  | .reopenFileSem memory =>
    match k.fileSem with
    | some file => some (if result < 0 then .ended else .openSegment memory file, k)
    | none => some (.ended, k)
  | .openSegment memory file =>
    match k.segment with
    | some segment => some (if result < 0 then .ended else .mapSegment ⟨memory, file, segment⟩, k)
    | none => some (.ended, k)
  | .mapSegment h => some (if result < 0 then .ended else .openFile h, k)
  | .openFile h => some (if result < 0 then .ended else .mapFile h, k)
  | .mapFile h => some (if result < 0 then .ended else .working (.removing h) .ready, k)
  | _ => none

/-- `cleanup_shared_memory` and `cleanup_semaphore` of the producer, and
`cleanup_semaphore` of a consumer. -/
def cleanup (pc : Pc) (k : Names) (result : ℤ) : Option (Pc × Names) :=
  match pc with
  | .unlinkSegment => some (.unlinkMemorySem, if result < 0 then k else { k with segment := none })
  | .unlinkMemorySem => some (.ended, if result < 0 then k else { k with memorySem := none })
  | .unlinkFileSem => some (.ended, if result < 0 then k else { k with fileSem := none })
  | _ => none

def Work.failed : Work → Pc
  | .adding _ _ => .unlinkSegment
  | .removing _ => .unlinkFileSem
  | .writing h => .working (.removing h) .ready

def Work.completed : Work → Pc
  | .adding memory segment => .working (.adding memory segment) .ready
  | .removing h => .working (.writing h) .ready
  | .writing h => .working (.removing h) .ready

/-- Only a write can fail before its wait, and only a removal inside. -/
def operate (w : Work) (stage : Stage) (k : Names) (result : ℤ) : Option (Pc × Names) :=
  match stage with
  | .ready =>
    match w with
    | .writing _ => some (if result < 0 then w.failed else .working w .wait, k)
    | _ => some (.working w .wait, k)
  | .wait =>
    if result < 0 then some (w.failed, k)
    else if k.values w.sem = 0 then none
    else some (.working w .critical, k.setValue w.sem (k.values w.sem-1))
  | .critical =>
    match w with
    | .removing _ => some (if result < 0 then w.failed else .working w .post, k)
    | _ => some (.working w .post, k)
  | .post => some (w.completed, k.setValue w.sem (k.values w.sem+1))

def act {ι : Type} (role : ι → Role) (i : ι) (e : Event) (pc : Pc) (k : Names) :
    Option (Pc × Names) :=
  match e with
  | .run result =>
    match pc with
    | .off => some (match role i with
        | .producer => .unlinkOldSem
        | .consumer => .openMemorySem, k)
    | .working w stage => operate w stage k result
    | .unlinkSegment | .unlinkMemorySem | .unlinkFileSem => cleanup pc k result
    | .unlinkOldSem | .createMemorySem | .createSegment _ | .resizeSegment _ _ | .mapCreated _ _
    | .initArray _ _ => startProducer pc k result
    | _ => startConsumer pc k result
  | .leave =>
    match pc with
    | .working (.adding _ _) .ready => some (.unlinkSegment, k)
    | .working (.removing _) .ready => some (.unlinkFileSem, k)
    | _ => none
  | .kill =>
    match pc with
    | .off | .ended => none
    | _ => some (.ended, k)

abbrev Processes (ι : Type) := Sharing.System ι Pc Names

def nothing {ι : Type} : Processes ι where
  procs _ := .off
  shared := { memorySem := none, fileSem := none, values := fun _ => 0, nextSem := 0,
              segment := none, nextSegment := 0 }

def Pc.inside : Pc → Option Object
  | .working w stage => if stage.inside then some w.object else none
  | _ => none

def Pc.key : Pc → Option ℕ
  | .working w stage => if stage.inside then some w.sem else none
  | _ => none

/-- The semaphore under which a process works on an object, from the time it
has mapped it until it leaves its main loop. -/
def Pc.uses : Pc → Object → Option ℕ
  | .initArray memory segment, o => if o = .array segment then some memory else none
  | .openFile h, o => if o = .array h.segment then some h.memory else none
  | .mapFile h, o => if o = .array h.segment then some h.memory else none
  | .working (.adding memory segment) _, o => if o = .array segment then some memory else none
  | .working (.removing h) _, o | .working (.writing h) _, o =>
    if o = .array h.segment then some h.memory else if o = .logFile then some h.file else none
  | _, _ => none

def Pc.mapping : Pc → Event → Option (Object × ℕ)
  | .mapCreated memory segment, .run result =>
    if result < 0 then none else some (.array segment, memory)
  | .mapSegment h, .run result => if result < 0 then none else some (.array h.segment, h.memory)
  | .mapFile h, .run result => if result < 0 then none else some (.logFile, h.file)
  | _, _ => none

/-- A process that maps an object finds it mapped only by processes that have
opened the same semaphore. -/
def MapsAlike {ι : Type} (a : ι × Event) (s : Processes ι) : Prop :=
  ∀ m ∈ (s.procs a.1).mapping a.2, ∀ j, (s.procs j).uses m.1 = none ∨
    (s.procs j).uses m.1 = some m.2

def Pc.sems : Pc → List ℕ
  | .createSegment memory | .resizeSegment memory _ | .mapCreated memory _ | .initArray memory _
  | .openFileSem memory | .createFileSem memory | .reopenFileSem memory
  | .working (.adding memory _) _ => [memory]
  | .openSegment memory file => [memory, file]
  | .mapSegment h | .openFile h | .mapFile h | .working (.removing h) _
  | .working (.writing h) _ => [h.memory, h.file]
  | _ => []

theorem inside_uses {pc : Pc} {o : Object} (h : pc.inside = some o) :
    ∃ sem, pc.key = some sem ∧ pc.uses o = some sem := by
  unfold Pc.inside at h
  split at h
  · rename_i w stage
    split at h
    · rename_i hin
      cases h
      refine ⟨w.sem, if_pos hin, ?_⟩
      cases w <;> simp [Pc.uses, Work.object, Work.sem]
    · cases h
  · cases h

theorem key_mem {pc : Pc} {sem : ℕ} (h : pc.key = some sem) : sem ∈ pc.sems := by
  unfold Pc.key at h
  split at h
  · rename_i w stage
    split at h
    · cases h
      cases w <;> simp [Pc.sems, Work.sem]
    · cases h
  · cases h

inductive SemStep (pc : Pc) (k : Names) (pc' : Pc) (k' : Names) : Prop where
  | none : k'.values = k.values → pc'.key = pc.key ∨ pc'.key = none → SemStep pc k pc' k'
  | wait (sem : ℕ) : k.values sem ≠ 0 → pc'.key = some sem →
      k'.values = Function.update k.values sem (k.values sem-1) → SemStep pc k pc' k'
  | post (sem : ℕ) : pc.key = some sem → pc'.key = Option.none →
      k'.values = Function.update k.values sem (k.values sem+1) → SemStep pc k pc' k'
  | new : pc'.key = Option.none → k'.values = Function.update k.values k.nextSem 1 →
      SemStep pc k pc' k'

structure Names.Sound (k : Names) : Prop where
  memory : ∀ sem ∈ k.memorySem, sem < k.nextSem
  file : ∀ sem ∈ k.fileSem, sem < k.nextSem

def Pc.Sound (pc : Pc) (k : Names) : Prop := ∀ sem ∈ pc.sems, sem < k.nextSem

structure StepSpec (pc : Pc) (e : Event) (k : Names) (pc' : Pc) (k' : Names) : Prop where
  names : k'.Sound
  opened : pc'.Sound k'
  grows : k.nextSem ≤ k'.nextSem
  sem : SemStep pc k pc' k'
  uses : ∀ o sem, pc'.uses o = some sem → pc.uses o = some sem ∨ pc.mapping e = some (o, sem)

section Specs
variable {pc pc' : Pc} {e : Event} {k k' : Names} {result : ℤ}

theorem pc_sound_ended (k : Names) : Pc.ended.Sound k := by
  intro sem hmem
  cases hmem

/-- A step to a place outside the main loop where nothing is mapped. -/
theorem spec_outside (hk : k'.Sound) (hpc : pc'.Sound k') (hgrows : k.nextSem ≤ k'.nextSem)
    (hvalues : k'.values = k.values ∨ k'.values = Function.update k.values k.nextSem 1)
    (hkey : pc'.key = none) (huses : ∀ o, pc'.uses o = none) : StepSpec pc e k pc' k' := by
  refine ⟨hk, hpc, hgrows, ?_, ?_⟩
  · rcases hvalues with hsame | hnew
    · exact .none hsame (.inr hkey)
    · exact .new hkey hnew
  · intro o sem hsem
    rw [huses o] at hsem
    cases hsem

theorem spec_ended (hk : k.Sound) : StepSpec pc e k .ended k :=
  spec_outside hk (pc_sound_ended k) le_rfl (.inl rfl) rfl fun _ => rfl

/-- A step that leaves the names alone and opens nothing. -/
theorem spec_same (hk : k.Sound) (hpc : pc.Sound k) (hsems : ∀ sem ∈ pc'.sems, sem ∈ pc.sems)
    (hkey : pc'.key = pc.key ∨ pc'.key = none)
    (huses : ∀ o sem, pc'.uses o = some sem →
      pc.uses o = some sem ∨ pc.mapping e = some (o, sem)) : StepSpec pc e k pc' k :=
  ⟨hk, fun sem hmem => hpc sem (hsems sem hmem), le_rfl, .none rfl hkey, huses⟩

theorem used_alone {o o' : Object} {sem sem' : ℕ}
    (h : (if o = o' then some sem' else none) = some sem) : (o', sem') = (o, sem) := by
  split at h
  · rename_i ho
    rw [ho, Option.some.inj h]
  · cases h

/-- A step that maps the first object of its process. -/
theorem spec_maps {o : Object} {sem : ℕ} (hk : k.Sound) (hpc : pc.Sound k)
    (hsems : ∀ sem ∈ pc'.sems, sem ∈ pc.sems) (hkey : pc'.key = pc.key ∨ pc'.key = none)
    (huses : ∀ o', pc'.uses o' = if o' = o then some sem else none)
    (hmaps : pc.mapping e = some (o, sem)) : StepSpec pc e k pc' k := by
  refine spec_same hk hpc hsems hkey fun o' sem' hsem => Or.inr ?_
  rw [huses o'] at hsem
  rw [hmaps]
  exact congrArg some (used_alone hsem)

theorem create_memory_sem_spec (hk : k.Sound)
    (h : startProducer .createMemorySem k result = some (pc', k')) :
    StepSpec .createMemorySem (.run result) k pc' k' := by
  unfold startProducer at h
  dsimp only at h
  split at h
  · cases h
    exact spec_ended hk
  · split at h
    · rename_i memory hmemory
      cases h
      exact spec_outside hk (by simpa [Pc.Sound, Pc.sems] using hk.memory memory hmemory) le_rfl
        (.inl rfl) rfl fun _ => rfl
    · cases h
      refine spec_outside ⟨by simp [Names.newSem], ?_⟩ (by simp [Pc.Sound, Pc.sems, Names.newSem])
        (Nat.le_succ _) (.inr rfl) rfl fun _ => rfl
      exact fun sem hmem => (hk.file sem hmem).trans (Nat.lt_succ_self _)

theorem create_segment_spec {memory : ℕ} (hk : k.Sound)
    (hpc : (Pc.createSegment memory).Sound k)
    (h : startProducer (.createSegment memory) k result = some (pc', k')) :
    StepSpec (.createSegment memory) (.run result) k pc' k' := by
  unfold startProducer at h
  dsimp only at h
  split at h
  · cases h
    exact spec_ended hk
  · split at h
    · cases h
      exact spec_same hk hpc (fun _ hmem => hmem) (.inr rfl) (by simp [Pc.uses])
    · cases h
      exact spec_outside ⟨hk.memory, hk.file⟩ hpc le_rfl (.inl rfl) rfl fun _ => rfl

theorem start_producer_spec (hk : k.Sound) (hpc : pc.Sound k)
    (h : startProducer pc k result = some (pc', k')) : StepSpec pc (.run result) k pc' k' := by
  cases pc with
  | unlinkOldSem =>
    cases h
    split
    · exact spec_outside hk (by simp [Pc.Sound, Pc.sems]) le_rfl (.inl rfl) rfl fun _ => rfl
    · exact spec_outside ⟨by simp, hk.file⟩ (by simp [Pc.Sound, Pc.sems]) le_rfl (.inl rfl) rfl
        fun _ => rfl
  | createMemorySem => exact create_memory_sem_spec hk h
  | createSegment memory => exact create_segment_spec hk hpc h
  | resizeSegment memory segment =>
    cases h
    split
    · exact spec_ended hk
    · exact spec_same hk hpc (fun _ hmem => hmem) (.inr rfl) (by simp [Pc.uses])
  | mapCreated memory segment =>
    cases h
    split
    · exact spec_ended hk
    · rename_i hok
      exact spec_maps hk hpc (fun _ hmem => hmem) (.inr rfl) (fun _ => rfl) (if_neg hok)
  | initArray memory segment =>
    cases h
    split
    · exact spec_ended hk
    · exact spec_same hk hpc (fun _ hmem => hmem) (.inr rfl) (fun _ _ hsem => .inl hsem)
  | _ => cases h

theorem open_memory_sem_spec (hk : k.Sound)
    (h : startConsumer .openMemorySem k result = some (pc', k')) :
    StepSpec .openMemorySem (.run result) k pc' k' := by
  unfold startConsumer at h
  dsimp only at h
  split at h
  · rename_i memory hmemory
    cases h
    split
    · exact spec_ended hk
    · exact spec_outside hk (by simpa [Pc.Sound, Pc.sems] using hk.memory memory hmemory) le_rfl
        (.inl rfl) rfl fun _ => rfl
  · cases h
    exact spec_ended hk

/-- The semaphores that the consumer has found exist. -/
theorem handles_sound {memory file : ℕ} (hmemory : (Pc.reopenFileSem memory).Sound k)
    (hfile : file < k.nextSem) : (Pc.openSegment memory file).Sound k := by
  have hlt : memory < k.nextSem := hmemory memory (by simp [Pc.sems])
  simp [Pc.Sound, Pc.sems, hlt, hfile]

theorem open_file_sem_spec {memory : ℕ} (hk : k.Sound) (hpc : (Pc.openFileSem memory).Sound k)
    (h : startConsumer (.openFileSem memory) k result = some (pc', k')) :
    StepSpec (.openFileSem memory) (.run result) k pc' k' := by
  unfold startConsumer at h
  dsimp only at h
  split at h
  · rename_i file hfile
    cases h
    split
    · exact spec_outside hk hpc le_rfl (.inl rfl) rfl fun _ => rfl
    · exact spec_outside hk (handles_sound hpc (hk.file file hfile)) le_rfl (.inl rfl) rfl
        fun _ => rfl
  · cases h
    exact spec_outside hk hpc le_rfl (.inl rfl) rfl fun _ => rfl

theorem create_file_sem_spec {memory : ℕ} (hk : k.Sound)
    (hpc : (Pc.createFileSem memory).Sound k)
    (h : startConsumer (.createFileSem memory) k result = some (pc', k')) :
    StepSpec (.createFileSem memory) (.run result) k pc' k' := by
  have hmemory : memory < k.nextSem := hpc memory (by simp [Pc.sems])
  unfold startConsumer at h
  dsimp only at h
  split at h
  · cases h
    exact spec_outside hk hpc le_rfl (.inl rfl) rfl fun _ => rfl
  · split at h
    · cases h
      exact spec_ended hk
    · cases h
      refine spec_outside ⟨?_, by simp [Names.newSem]⟩ ?_ (Nat.le_succ _) (.inr rfl) rfl
        fun _ => rfl
      · exact fun sem hmem => (hk.memory sem hmem).trans (Nat.lt_succ_self _)
      · simp [Pc.Sound, Pc.sems, Names.newSem, hmemory.le]

theorem reopen_file_sem_spec {memory : ℕ} (hk : k.Sound)
    (hpc : (Pc.reopenFileSem memory).Sound k)
    (h : startConsumer (.reopenFileSem memory) k result = some (pc', k')) :
    StepSpec (.reopenFileSem memory) (.run result) k pc' k' := by
  unfold startConsumer at h
  dsimp only at h
  split at h
  · rename_i file hfile
    cases h
    split
    · exact spec_ended hk
    · exact spec_outside hk (handles_sound hpc (hk.file file hfile)) le_rfl (.inl rfl) rfl
        fun _ => rfl
  · cases h
    exact spec_ended hk

/-- With the file mapped, the consumer uses it beside the array. -/
theorem map_file_spec {handles : Handles} (hk : k.Sound) (hpc : (Pc.mapFile handles).Sound k)
    (h : startConsumer (.mapFile handles) k result = some (pc', k')) :
    StepSpec (.mapFile handles) (.run result) k pc' k' := by
  cases h
  split
  · exact spec_ended hk
  · rename_i hok
    refine spec_same hk hpc (fun _ hmem => hmem) (.inr rfl) ?_
    intro o sem hsem
    have huses : (if o = .array handles.segment then some handles.memory
        else if o = .logFile then some handles.file else none) = some sem := hsem
    by_cases ho : o = .array handles.segment
    · rw [if_pos ho] at huses
      exact .inl ((if_pos ho).trans huses)
    · right
      rw [if_neg ho] at huses
      rw [Pc.mapping, if_neg hok]
      exact congrArg some (used_alone huses)

theorem start_consumer_spec (hk : k.Sound) (hpc : pc.Sound k)
    (h : startConsumer pc k result = some (pc', k')) : StepSpec pc (.run result) k pc' k' := by
  cases pc with
  | openMemorySem => exact open_memory_sem_spec hk h
  | openFileSem memory => exact open_file_sem_spec hk hpc h
  | createFileSem memory => exact create_file_sem_spec hk hpc h
  | reopenFileSem memory => exact reopen_file_sem_spec hk hpc h
  | openSegment memory file =>
    unfold startConsumer at h
    dsimp only at h
    split at h
    · cases h
      split
      · exact spec_ended hk
      · exact spec_outside hk hpc le_rfl (.inl rfl) rfl fun _ => rfl
    · cases h
      exact spec_ended hk
  | mapSegment handles =>
    cases h
    split
    · exact spec_ended hk
    · rename_i hok
      exact spec_maps hk hpc (fun _ hmem => hmem) (.inr rfl) (fun _ => rfl) (if_neg hok)
  | openFile handles =>
    cases h
    split
    · exact spec_ended hk
    · exact spec_same hk hpc (fun _ hmem => hmem) (.inr rfl) (fun _ _ hsem => .inl hsem)
  | mapFile handles => exact map_file_spec hk hpc h
  | _ => cases h

theorem cleanup_spec (hk : k.Sound) (h : cleanup pc k result = some (pc', k')) :
    StepSpec pc (.run result) k pc' k' := by
  cases pc with
  | unlinkSegment =>
    cases h
    split
    · exact spec_outside hk (by simp [Pc.Sound, Pc.sems]) le_rfl (.inl rfl) rfl fun _ => rfl
    · exact spec_outside ⟨hk.memory, hk.file⟩ (by simp [Pc.Sound, Pc.sems]) le_rfl (.inl rfl) rfl
        fun _ => rfl
  | unlinkMemorySem =>
    cases h
    split
    · exact spec_ended hk
    · exact spec_outside ⟨by simp, hk.file⟩ (pc_sound_ended _) le_rfl (.inl rfl) rfl fun _ => rfl
  | unlinkFileSem =>
    cases h
    split
    · exact spec_ended hk
    · exact spec_outside ⟨hk.memory, by simp⟩ (pc_sound_ended _) le_rfl (.inl rfl) rfl fun _ => rfl
  | _ => cases h

/-- Where the operations go on, nothing new is opened or mapped. -/
theorem failed_spec (w : Work) (stage : Stage) : w.failed.key = none ∧
    (∀ sem ∈ w.failed.sems, sem ∈ (Pc.working w stage).sems) ∧
      ∀ o sem, w.failed.uses o = some sem → (Pc.working w stage).uses o = some sem := by
  cases w with
  | adding memory segment =>
    exact ⟨rfl, by simp [Work.failed, Pc.sems], by simp [Work.failed, Pc.uses]⟩
  | removing handles =>
    exact ⟨rfl, by simp [Work.failed, Pc.sems], by simp [Work.failed, Pc.uses]⟩
  | writing handles => exact ⟨rfl, fun _ hmem => hmem, fun _ _ hsem => hsem⟩

theorem completed_spec (w : Work) (stage : Stage) : w.completed.key = none ∧
    (∀ sem ∈ w.completed.sems, sem ∈ (Pc.working w stage).sems) ∧
      ∀ o sem, w.completed.uses o = some sem → (Pc.working w stage).uses o = some sem := by
  cases w <;> exact ⟨rfl, fun _ hmem => hmem, fun _ _ hsem => hsem⟩

theorem working_sems (w : Work) (stage stage' : Stage) :
    (Pc.working w stage).sems = (Pc.working w stage').sems := by
  cases w <;> rfl

theorem working_uses (w : Work) (stage stage' : Stage) :
    (Pc.working w stage).uses = (Pc.working w stage').uses := by
  funext o
  cases w <;> rfl

theorem spec_working {w : Work} {stage : Stage} (hk : k.Sound) (hpc : (Pc.working w stage).Sound k)
    (stage' : Stage) (hin : stage'.inside = stage.inside ∨ stage'.inside = false) :
    StepSpec (.working w stage) e k (.working w stage') k := by
  apply spec_same hk hpc
  · rw [working_sems w stage' stage]
    exact fun _ hmem => hmem
  · rw [Pc.key, Pc.key]
    rcases hin with hsame | hout
    · rw [hsame]
      exact .inl rfl
    · rw [hout]
      exact .inr rfl
  · rw [working_uses w stage' stage]
    exact fun _ _ hsem => .inl hsem

theorem spec_failed {w : Work} {stage : Stage} (hk : k.Sound) (hpc : (Pc.working w stage).Sound k) :
    StepSpec (.working w stage) e k w.failed k := by
  obtain ⟨hkey, hsems, huses⟩ := failed_spec w stage
  exact spec_same hk hpc hsems (.inr hkey) fun o sem hsem => .inl (huses o sem hsem)

theorem operate_spec {w : Work} {stage : Stage} (hk : k.Sound) (hpc : (Pc.working w stage).Sound k)
    (h : operate w stage k result = some (pc', k')) :
    StepSpec (.working w stage) (.run result) k pc' k' := by
  cases stage with
  | ready =>
    cases w with
    | writing handles =>
      cases h
      split
      · exact spec_failed hk hpc
      · exact spec_working hk hpc .wait (.inl rfl)
    | _ =>
      cases h
      exact spec_working hk hpc .wait (.inl rfl)
  | wait =>
    unfold operate at h
    dsimp only at h
    split at h
    · cases h
      exact spec_failed hk hpc
    · split at h
      · cases h
      · rename_i hpos
        cases h
        refine ⟨⟨hk.memory, hk.file⟩, ?_, le_rfl, .wait w.sem hpos rfl rfl, ?_⟩
        · rw [Pc.Sound, working_sems w .critical .wait]
          exact hpc
        · rw [working_uses w .critical .wait]
          exact fun _ _ hsem => .inl hsem
  | critical =>
    cases w with
    | removing handles =>
      cases h
      split
      · exact spec_failed hk hpc
      · exact spec_working hk hpc .post (.inl rfl)
    | _ =>
      cases h
      exact spec_working hk hpc .post (.inl rfl)
  | post =>
    cases h
    obtain ⟨hkey, hsems, huses⟩ := completed_spec w .post
    exact ⟨⟨hk.memory, hk.file⟩, fun sem hmem => hpc sem (hsems sem hmem), le_rfl,
      .post w.sem rfl hkey rfl, fun o sem hsem => .inl (huses o sem hsem)⟩

theorem act_spec {ι : Type} {role : ι → Role} {i : ι} (hk : k.Sound) (hpc : pc.Sound k)
    (h : act role i e pc k = some (pc', k')) : StepSpec pc e k pc' k' := by
  cases e with
  | run result =>
    cases pc with
    | off =>
      cases h
      cases role i with
      | producer =>
        exact spec_outside hk (by simp [Pc.Sound, Pc.sems]) le_rfl (.inl rfl) rfl fun _ => rfl
      | consumer =>
        exact spec_outside hk (by simp [Pc.Sound, Pc.sems]) le_rfl (.inl rfl) rfl fun _ => rfl
    | working w stage => exact operate_spec hk hpc h
    | unlinkSegment => exact cleanup_spec hk h
    | unlinkMemorySem => exact cleanup_spec hk h
    | unlinkFileSem => exact cleanup_spec hk h
    | unlinkOldSem => exact start_producer_spec hk hpc h
    | createMemorySem => exact start_producer_spec hk hpc h
    | createSegment memory => exact start_producer_spec hk hpc h
    | resizeSegment memory segment => exact start_producer_spec hk hpc h
    | mapCreated memory segment => exact start_producer_spec hk hpc h
    | initArray memory segment => exact start_producer_spec hk hpc h
    | _ => exact start_consumer_spec hk hpc h
  | leave =>
    unfold act at h
    dsimp only at h
    split at h
    · cases h
      exact spec_outside hk (by simp [Pc.Sound, Pc.sems]) le_rfl (.inl rfl) rfl fun _ => rfl
    · cases h
      exact spec_outside hk (by simp [Pc.Sound, Pc.sems]) le_rfl (.inl rfl) rfl fun _ => rfl
    · cases h
  | kill =>
    unfold act at h
    dsimp only at h
    split at h
    · cases h
    · cases h
    · cases h
      exact spec_ended hk

end Specs

section Runs
variable {ι : Type}

structure LifeInv (s : Processes ι) : Prop where
  names : s.shared.Sound
  opened : ∀ i, (s.procs i).Sound s.shared
  guards : Guards s.shared.values fun i => (s.procs i).key
  alike : ∀ i j o sem sem', (s.procs i).uses o = some sem → (s.procs j).uses o = some sem' →
    sem = sem'

theorem nothing_inv : LifeInv (nothing : Processes ι) := by
  refine ⟨⟨by simp [nothing], by simp [nothing]⟩, ?_, ⟨alone_of_empty fun _ => rfl, ?_, ?_⟩, ?_⟩
  · intro i sem hmem
    cases hmem
  · intro i k hk
    cases hk
  · exact fun _ => Nat.zero_le _
  · intro i j o sem sem' hsem
    cases hsem

variable [DecidableEq ι]

theorem guards_step {s : Processes ι} (hi : LifeInv s) (i : ι) {pc : Pc} {k : Names}
    (h : SemStep (s.procs i) s.shared pc k) :
    Guards k.values fun j => (Function.update s.procs i pc j).key := by
  cases h with
  | none hvalues hkey =>
    rw [hvalues]
    rcases hkey with hsame | hout
    · rw [Sharing.keys_keep Pc.key hsame]
      exact hi.guards
    · rw [Sharing.keys_update Pc.key, hout]
      exact guards_leave hi.guards i
  | wait sem hpos hkey hvalues =>
    rw [Sharing.keys_update Pc.key, hvalues, hkey]
    exact guards_wait hi.guards i sem hpos
  | post sem hheld hkey hvalues =>
    rw [Sharing.keys_update Pc.key, hvalues, hkey]
    exact guards_post hi.guards i sem hheld
  | new hkey hvalues =>
    rw [Sharing.keys_update Pc.key, hvalues, hkey]
    apply guards_set (guards_leave hi.guards i)
    -- the new semaphore is none of those that have been opened
    intro j hj
    by_cases hji : j = i
    · rw [hji, Function.update_self] at hj
      cases hj
    · rw [Function.update_of_ne hji] at hj
      exact lt_irrefl _ (hi.opened j _ (key_mem hj))

theorem step_inv {role : ι → Role} (a : ι × Event) (s t : Processes ι) (hi : LifeInv s)
    (hmaps : MapsAlike a s) (h : Sharing.step (act role) a s = some t) : LifeInv t := by
  obtain ⟨pc, k, hact, rfl⟩ := Sharing.step_next _ h
  have hspec := act_spec hi.names (hi.opened a.1) hact
  have hnew : ∀ j o sem sem', pc.uses o = some sem → (s.procs j).uses o = some sem' →
      sem = sem' := by
    intro j o sem sem' hsem hsem'
    rcases hspec.uses o sem hsem with hold | hmapped
    · exact hi.alike a.1 j o sem sem' hold hsem'
    · rcases hmaps (o, sem) hmapped j with hnone | hsame
      · rw [hsem'] at hnone
        cases hnone
      · rw [hsem'] at hsame
        exact (Option.some.inj hsame).symm
  refine ⟨hspec.names, ?_, guards_step hi a.1 hspec.sem, ?_⟩
  · apply (Function.forall_update_iff s.procs fun _ q => q.Sound k).mpr
    refine ⟨hspec.opened, fun i _ sem hmem => ?_⟩
    exact (hi.opened i sem hmem).trans_le hspec.grows
  · apply Sharing.pairs_update fun (_ : ι) (q : Pc) (_ : ι) (q' : Pc) => ∀ o sem sem',
      q.uses o = some sem → q'.uses o = some sem' → sem = sem'
    · intro _ q _ q' halike o sem sem' hsem hsem'
      exact (halike o sem' sem hsem' hsem).symm
    · intro o sem sem' hsem hsem'
      rw [hsem] at hsem'
      exact Option.some.inj hsem'
    · intro j _
      exact hnew j
    · exact hi.alike

/-- Where every process that maps an object finds it mapped under the same
semaphore only, no two processes are inside critical sections on the same
object. -/
theorem sections_exclusive (role : ι → Role) (s : Processes ι)
    (h : Runs.ReachableAlong (Sharing.step (act role)) MapsAlike nothing s) :
    ∀ i j o, (s.procs i).inside = some o → (s.procs j).inside = some o → i = j := by
  have hi := Runs.reachable_along_invariant _ LifeInv nothing_inv step_inv h
  intro i j o hin hin'
  obtain ⟨sem, hkey, huses⟩ := inside_uses hin
  obtain ⟨sem', hkey', huses'⟩ := inside_uses hin'
  have hsame : sem = sem' := hi.alike i j o sem sem' huses huses'
  rw [← hsame] at hkey'
  exact hi.guards.alone i j sem hkey hkey'

end Runs

instance {n : ℕ} (a : Fin n × Event) (s : Processes (Fin n)) : Decidable (MapsAlike a s) :=
  inferInstanceAs (Decidable (∀ m ∈ (s.procs a.1).mapping a.2, _))

def firstProduces {n : ℕ} (i : Fin n) : Role := if i.val = 0 then .producer else .consumer

def runs {n : ℕ} (i : Fin n) (count : ℕ) : List (Fin n × Event) := List.replicate count (i, .run 0)

def consumerWrites : List (Fin 3 × Event) :=
  [runs 0 7, runs 0 4, runs 1 8, runs 2 7, runs 1 4, runs 1 2].flatten

theorem consumer_writes_run : (Runs.exec (Sharing.step (act firstProduces)) consumerWrites
    nothing).isSome = true := by
  decide +kernel

def consumerWriting : Processes (Fin 3) :=
  (Runs.exec (Sharing.step (act firstProduces)) consumerWrites nothing).get consumer_writes_run

theorem one_consumer_writes : (consumerWriting.procs 1).inside = some .logFile ∧
    ∀ j, (consumerWriting.procs j).inside = some .logFile → j = 1 := by
  have hin : (consumerWriting.procs 1).inside = some .logFile := by decide +kernel
  have halong : Runs.Along (Sharing.step (act firstProduces)) MapsAlike consumerWrites nothing := by
    decide +kernel
  refine ⟨hin, fun j hj => ?_⟩
  exact sections_exclusive firstProduces consumerWriting
    (Runs.reachable_along_get consumer_writes_run halong) j 1 .logFile hj hin

/-- While the second consumer writes, the first one leaves and removes the
name of the semaphore; a third one starts and creates it again. -/
def semaphoreReplaced : List (Fin 4 × Event) :=
  [runs 0 7, runs 0 4, runs 0 4, runs 1 8, runs 2 7, runs 2 4, runs 2 2, [(1, .leave)], runs 1 1,
    runs 3 8, runs 3 4, runs 3 2].flatten

theorem semaphore_replaced_run : (Runs.exec (Sharing.step (act firstProduces)) semaphoreReplaced
    nothing).isSome = true := by
  decide +kernel

def semaphoreReplacedEnd : Processes (Fin 4) :=
  (Runs.exec (Sharing.step (act firstProduces)) semaphoreReplaced nothing).get
    semaphore_replaced_run

theorem two_consumers_write : ¬ ∀ s : Processes (Fin 4),
    Runs.Reachable (Sharing.step (act firstProduces)) nothing s →
      ∀ i j o, (s.procs i).inside = some o → (s.procs j).inside = some o → i = j := by
  intro h
  have hsame := h semaphoreReplacedEnd (Runs.reachable_get semaphore_replaced_run) 2 3 .logFile
    (by decide +kernel) (by decide +kernel)
  exact absurd hsame (by decide)

end ProgSistema.SharedArray.Lifetimes
