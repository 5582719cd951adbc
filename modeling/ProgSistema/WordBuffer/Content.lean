import ProgSistema.Lib.Joining
import ProgSistema.WordBuffer.Census

/-!
# The text in the buffer

A worker in the critical section writes a separator and a word behind the
text, if both leave room for a terminator, and then passes the turn on. So the
words stand in the order of the turns, whichever way the workers, and the
interrupts that only read, are interleaved.
-/

set_option autoImplicit false

namespace ProgSistema.WordBuffer
open CRuntime ArrayPrefix Joining Runs Semaphore

def writtenText (written : List (ℕ × Bytes)) : Bytes := joined 32 (written.map Prod.snd)

structure Logged (words : List Bytes) (d : SharedData) (written : List (ℕ × Bytes)) : Prop where
  count : d.wordCount = toInt written.length
  entries : ∀ j entry, written[j]? = some entry → entry.1 = j % numProcesses ∧ entry.2 ∈ words

structure Settled (words : List Bytes) (d : SharedData) (written : List (ℕ × Bytes)) : Prop
    extends Logged words d written where
  text : contents d.buffer d.currentPos = writtenText written
  turn : d.turn = written.length % numProcesses

/-- The positions from which a worker passes the turn on, and the one in which
it leaves with the turn. -/
def Pc.hasTurn : Pc → Bool
  | .chooseWord | .checkSpace _ | .putSpace _ | .bumpPos _ | .copyWord _ | .addLength _
  | .countWord _ | .passTurn | .postMutex true => true
  | _ => false

def Pc.word : Pc → Option Bytes
  | .checkSpace word | .putSpace word | .bumpPos word | .copyWord word | .addLength word
  | .countWord word => some word
  | _ => none

def Pc.pending (words : List Bytes) (pc : Pc) (d : SharedData) (written : List (ℕ × Bytes)) :
    Prop :=
  match pc with
  | .putSpace word => Settled words d written ∧ d.currentPos+word.length+1 < sharedMemSize ∧
      0 < d.currentPos
  | .bumpPos word => Settled words d written ∧ d.currentPos+word.length+1 < sharedMemSize ∧
      0 < d.currentPos ∧ d.buffer d.currentPos = 32
  | .copyWord word => Logged words d written ∧ d.turn = written.length % numProcesses ∧
      d.currentPos+word.length < sharedMemSize ∧
      contents d.buffer d.currentPos++word = appendWord 32 (writtenText written) word
  | .addLength word => Logged words d written ∧ d.turn = written.length % numProcesses ∧
      d.currentPos+word.length < sharedMemSize ∧
      contents d.buffer (d.currentPos+word.length) = appendWord 32 (writtenText written) word
  | .countWord word => Logged words d written ∧ d.turn = written.length % numProcesses ∧
      contents d.buffer d.currentPos = appendWord 32 (writtenText written) word
  | .passTurn => Logged words d written ∧
      contents d.buffer d.currentPos = writtenText written ∧
      (d.turn+1) % numProcesses = written.length % numProcesses
  | _ => Settled words d written

structure Pc.Knows (words : List Bytes) (id : ℕ) (pc : Pc) (d : SharedData)
    (written : List (ℕ × Bytes)) : Prop where
  pending : pc.inside ≠ none → pc.pending words d written
  turn : pc.hasTurn = true → d.turn = id
  word : ∀ word, pc.word = some word → word ∈ words

def Pc.record (id : ℕ) (pc : Pc) (written : List (ℕ × Bytes)) : List (ℕ × Bytes) :=
  match pc with
  | .countWord word => written++[(id, word)]
  | _ => written

section Text
variable {words : List Bytes} {id rand : ℕ} {d d' : SharedData} {pc pc' : Pc}
  {written : List (ℕ × Bytes)}

theorem random_word_mem {word : Bytes} (h : getRandomWord words rand = some word) :
    word ∈ words := List.mem_of_getElem? h

theorem random_word_some (hwords : words ≠ []) (rand : ℕ) : getRandomWord words rand ≠ none := by
  unfold getRandomWord
  rw [Ne, List.getElem?_eq_none_iff, not_le]
  exact Nat.mod_lt _ (List.length_pos_iff.mpr hwords)

theorem store_fits {pos : ℕ} {b : Bytes} (h : pos+b.length ≤ sharedMemSize) :
    d.store pos b = .ok { d with buffer := write d.buffer pos b } := if_pos h

theorem written_text_concat (word : Bytes) :
    writtenText (written++[(id, word)]) = appendWord 32 (writtenText written) word := by
  rw [writtenText, List.map_append, List.map_singleton, joined_concat]
  rfl

theorem Settled.text_ne (h : Settled words d written) (hpos : 0 < d.currentPos) :
    writtenText written ≠ [] := by
  rw [← h.text]
  apply List.length_pos_iff.mp
  rw [contents_length]
  exact hpos

theorem logged_count_word {word : Bytes} (hlog : Logged words d written) (hword : word ∈ words)
    (hid : id = written.length % numProcesses) :
    Logged words { d with wordCount := toInt (d.wordCount+1) } (written++[(id, word)]) := by
  constructor
  · show toInt (d.wordCount+1) = _
    rw [hlog.count, List.length_append, List.length_singleton, Nat.cast_add, Nat.cast_one]
    unfold toInt
    rw [Int.bmod_add_bmod]
  · intro j entry hj
    rw [List.getElem?_append] at hj
    split at hj
    · exact hlog.entries j entry hj
    · rename_i hle
      obtain ⟨hlt, hentry⟩ := List.getElem?_eq_some_iff.mp hj
      rw [List.length_singleton] at hlt
      have hlast : j = written.length := by omega
      rw [List.getElem_singleton] at hentry
      rw [← hentry, hlast]
      exact ⟨hid, hword⟩

structure CriticalSpec (words : List Bytes) (id : ℕ) (written : List (ℕ × Bytes)) (pc pc' : Pc)
    (d' : SharedData) : Prop where
  alive : pc' ≠ .crashed
  bound : d'.currentPos < sharedMemSize
  knows : pc'.Knows words id d' (pc.record id written)

theorem test_turn_spec (hk : Pc.testTurn.Knows words id d written)
    (hpos : d.currentPos < sharedMemSize)
    (h : criticalSection words id rand d .testTurn = some (pc', d')) :
    CriticalSpec words id written .testTurn pc' d' := by
  have hs : Settled words d written := hk.pending (by simp [Pc.inside])
  cases h
  split
  · exact ⟨by simp, hpos, fun _ => hs, by simp [Pc.hasTurn], by simp [Pc.word]⟩
  · rename_i hturn
    exact ⟨by simp, hpos, fun _ => hs, fun _ => not_not.mp hturn, by simp [Pc.word]⟩

theorem choose_word_spec (hwords : words ≠ []) (hk : Pc.chooseWord.Knows words id d written)
    (hpos : d.currentPos < sharedMemSize)
    (h : criticalSection words id rand d .chooseWord = some (pc', d')) :
    CriticalSpec words id written .chooseWord pc' d' := by
  have hs : Settled words d written := hk.pending (by simp [Pc.inside])
  simp only [criticalSection] at h
  split at h
  · rename_i hnone
    exact absurd hnone (random_word_some hwords rand)
  · rename_i word hword
    cases h
    refine ⟨by simp, hpos, fun _ => hs, fun _ => hk.turn rfl, ?_⟩
    intro word' hword'
    cases hword'
    exact random_word_mem hword

/-- The first word begins the text. -/
theorem first_word_pending {word : Bytes} (hs : Settled words d written)
    (hzero : d.currentPos = 0) (hroom : d.currentPos+word.length < sharedMemSize) :
    (Pc.copyWord word).pending words d written := by
  have htext := hs.text
  rw [hzero] at htext
  refine ⟨hs.toLogged, hs.turn, hroom, ?_⟩
  rw [← htext, hzero]
  rfl

theorem check_space_spec {word : Bytes} (hk : (Pc.checkSpace word).Knows words id d written)
    (hpos : d.currentPos < sharedMemSize)
    (h : criticalSection words id rand d (.checkSpace word) = some (pc', d')) :
    CriticalSpec words id written (.checkSpace word) pc' d' := by
  have hs : Settled words d written := hk.pending (by simp [Pc.inside])
  have hturn := hk.turn rfl
  simp only [criticalSection] at h
  split at h
  · cases h
    exact ⟨by simp, hpos, fun _ => hs, fun _ => hturn, by simp [Pc.word]⟩
  · rename_i hroom
    cases h
    split
    · rename_i hsome
      exact ⟨by simp, hpos, fun _ => ⟨hs, by omega, hsome⟩, fun _ => hturn, hk.word⟩
    · exact ⟨by simp, hpos, fun _ => first_word_pending hs (by omega) (by omega),
        fun _ => hturn, hk.word⟩

theorem put_space_spec {word : Bytes} (hk : (Pc.putSpace word).Knows words id d written)
    (hpos : d.currentPos < sharedMemSize)
    (h : criticalSection words id rand d (.putSpace word) = some (pc', d')) :
    CriticalSpec words id written (.putSpace word) pc' d' := by
  obtain ⟨hs, hroom, hsome⟩ := hk.pending (by simp [Pc.inside])
  have hfits : d.currentPos+[(32 : UInt8)].length ≤ sharedMemSize := by
    rw [List.length_singleton]
    omega
  simp only [criticalSection, store_fits hfits] at h
  cases h
  refine ⟨by simp, hpos, fun _ => ⟨⟨⟨hs.count, hs.entries⟩, ?_, hs.turn⟩, hroom, hsome, ?_⟩,
    fun _ => hk.turn rfl, fun w hw => hk.word w hw⟩
  · show contents (write d.buffer d.currentPos [32]) d.currentPos = writtenText written
    rw [← hs.text]
    exact contents_write_before _ _ le_rfl
  · simp [write]

theorem bump_pos_spec {word : Bytes} (hk : (Pc.bumpPos word).Knows words id d written)
    (h : criticalSection words id rand d (.bumpPos word) = some (pc', d')) :
    CriticalSpec words id written (.bumpPos word) pc' d' := by
  obtain ⟨hs, hroom, hsome, hspace⟩ := hk.pending (by simp [Pc.inside])
  cases h
  refine ⟨by simp, ?_, fun _ => ⟨⟨hs.count, hs.entries⟩, hs.turn, ?_, ?_⟩, fun _ => hk.turn rfl,
    fun w hw => hk.word w hw⟩
  · show d.currentPos+1 < sharedMemSize
    omega
  · show d.currentPos+1+word.length < sharedMemSize
    omega
  · show contents d.buffer (d.currentPos+1)++word = appendWord 32 (writtenText written) word
    obtain ⟨c, text, htext⟩ := List.exists_cons_of_ne_nil (hs.text_ne hsome)
    rw [contents_succ, hspace, hs.text, htext, List.append_assoc]
    rfl

theorem copy_word_spec {word : Bytes} (hk : (Pc.copyWord word).Knows words id d written)
    (hpos : d.currentPos < sharedMemSize)
    (h : criticalSection words id rand d (.copyWord word) = some (pc', d')) :
    CriticalSpec words id written (.copyWord word) pc' d' := by
  obtain ⟨hlog, hturn, hroom, htext⟩ := hk.pending (by simp [Pc.inside])
  simp only [criticalSection, store_fits hroom.le] at h
  cases h
  refine ⟨by simp, hpos, fun _ => ⟨⟨hlog.count, hlog.entries⟩, hturn, hroom, ?_⟩,
    fun _ => hk.turn rfl, fun w hw => hk.word w hw⟩
  show contents (write d.buffer d.currentPos word) (d.currentPos+word.length) = _
  rw [contents_write]
  exact htext

theorem count_word_spec {word : Bytes} (hk : (Pc.countWord word).Knows words id d written)
    (hpos : d.currentPos < sharedMemSize)
    (h : criticalSection words id rand d (.countWord word) = some (pc', d')) :
    CriticalSpec words id written (.countWord word) pc' d' := by
  obtain ⟨hlog, hturn, htext⟩ := hk.pending (by simp [Pc.inside])
  have hid : id = written.length % numProcesses := (hk.turn rfl).symm.trans hturn
  cases h
  refine ⟨by simp, hpos, fun _ => ⟨?_, ?_, ?_⟩, fun _ => hk.turn rfl, by simp [Pc.word]⟩
  · exact logged_count_word hlog (hk.word word rfl) hid
  · show contents d.buffer d.currentPos = _
    rw [htext, Pc.record, written_text_concat]
  · show (d.turn+1) % numProcesses = _
    rw [hturn, Pc.record, List.length_append, List.length_singleton, Nat.mod_add_mod]

theorem critical_spec (hwords : words ≠ []) (hk : pc.Knows words id d written)
    (hpos : d.currentPos < sharedMemSize)
    (h : criticalSection words id rand d pc = some (pc', d')) :
    CriticalSpec words id written pc pc' d' := by
  cases pc with
  | testTurn => exact test_turn_spec hk hpos h
  | chooseWord => exact choose_word_spec hwords hk hpos h
  | checkSpace word => exact check_space_spec hk hpos h
  | putSpace word => exact put_space_spec hk hpos h
  | bumpPos word => exact bump_pos_spec hk h
  | copyWord word => exact copy_word_spec hk hpos h
  | addLength word =>
    obtain ⟨hlog, hturn, hroom, htext⟩ := hk.pending (by simp [Pc.inside])
    cases h
    exact ⟨by simp, hroom, fun _ => ⟨⟨hlog.count, hlog.entries⟩, hturn, htext⟩,
      fun _ => hk.turn rfl, fun w hw => hk.word w hw⟩
  | countWord word => exact count_word_spec hk hpos h
  | passTurn =>
    obtain ⟨hlog, htext, hnext⟩ := hk.pending (by simp [Pc.inside])
    cases h
    exact ⟨by simp, hpos, fun _ => ⟨⟨hlog.count, hlog.entries⟩, htext, hnext⟩, by simp [Pc.hasTurn],
      by simp [Pc.word]⟩
  | _ => cases h

end Text

def Process.Informed (words : List Bytes) (p : ProcessId) (q : Process) (k : Shared) : Prop :=
  ∀ id, p = .worker id → ¬ q.gone → q.pc.Knows words id k.data k.written

def Process.running (q : Process) : Prop := q.pc ≠ .crashed ∧ q.handler ≠ some .crashed

structure Inv (words : List Bytes) (s : Processes) : Prop where
  guards : Guards (fun _ => s.shared.mutexSem) fun p => (s.procs p).pc.inside
  bound : s.shared.data.currentPos < sharedMemSize
  settled : (∀ p, (s.procs p).pc.inside = none) → Settled words s.shared.data s.shared.written
  informed : ∀ p, (s.procs p).Informed words p s.shared
  running : ∀ p, (s.procs p).running

theorem Pc.Knows.outside {words : List Bytes} {id : ℕ} {pc : Pc} (h : pc.inside = none)
    (d : SharedData) (written : List (ℕ × Bytes)) : pc.Knows words id d written := by
  refine ⟨fun hin => absurd h hin, ?_, ?_⟩
  · intro hturn
    cases pc <;> first
      | (cases hturn; done)
      | cases h
  · intro word hword
    cases pc <;> first
      | (cases hword; done)
      | cases h

section Step
variable {words : List Bytes} {s : Processes} {p : ProcessId} {q : Process} {k : Shared}

/-- A step that leaves the shared memory alone and neither takes nor posts the
mutex. -/
theorem same_inv (hi : Inv words s) (hin : q.pc.inside = (s.procs p).pc.inside)
    (hdata : k.data = s.shared.data) (hwritten : k.written = s.shared.written)
    (hmutex : k.mutexSem = s.shared.mutexSem) (hinformed : q.Informed words p s.shared)
    (hrunning : q.running) : Inv words { procs := Function.update s.procs p q, shared := k } := by
  have hkeys : (fun i => (Function.update s.procs p q i).pc.inside) =
      fun i => (s.procs i).pc.inside := Sharing.keys_keep (fun r : Process => r.pc.inside) hin
  constructor
  · show Guards (fun _ => k.mutexSem) fun i => (Function.update s.procs p q i).pc.inside
    rw [hkeys, hmutex]
    exact hi.guards
  · exact hdata ▸ hi.bound
  · intro hnone
    show Settled words k.data k.written
    rw [hdata, hwritten]
    exact hi.settled fun i => (congrFun hkeys i).symm.trans (hnone i)
  · apply (Function.forall_update_iff s.procs fun i r => r.Informed words i k).mpr
    unfold Process.Informed
    rw [hdata, hwritten]
    exact ⟨hinformed, fun i _ => hi.informed i⟩
  · exact (Function.forall_update_iff s.procs fun _ r => r.running).mpr
      ⟨hrunning, fun i _ => hi.running i⟩

/-- A process outside the critical section knows nothing. -/
theorem informed_outside (h : q.pc.inside = none) (k : Shared) : q.Informed words p k :=
  fun _ _ _ => Pc.Knows.outside h _ _

/-- While a process is in the critical section, the others know nothing. -/
theorem informed_beside (hi : Inv words s) (hin : (s.procs p).pc.inside = some ()) (k : Shared)
    (i : ProcessId) (hne : i ≠ p) : (s.procs i).Informed words i k := by
  apply informed_outside
  cases hin' : (s.procs i).pc.inside with
  | none => rfl
  | some u => exact absurd (hi.guards.alone i p u hin' hin) hne

theorem wait_inv {id : ℕ} (hi : Inv words s) (hpos : s.shared.mutexSem ≠ 0) :
    Inv words { procs := Function.update s.procs (.worker id) ⟨.testTurn, none⟩,
                shared := { s.shared with mutexSem := s.shared.mutexSem-1 } } := by
  have hnone : ∀ p, (s.procs p).pc.inside = none := by
    intro p
    cases hin : (s.procs p).pc.inside with
    | none => rfl
    | some u => exact absurd (hi.guards.taken p u hin) hpos
  have hs := hi.settled hnone
  constructor
  · show Guards (fun _ => s.shared.mutexSem-1) fun i =>
      (Function.update s.procs (.worker id) ⟨.testTurn, none⟩ i).pc.inside
    rw [Sharing.keys_update fun r : Process => r.pc.inside]
    exact guards_wait_one hi.guards _ hpos
  · exact hi.bound
  · intro _
    exact hs
  · apply (Function.forall_update_iff s.procs fun i r =>
      r.Informed words i { s.shared with mutexSem := s.shared.mutexSem-1 }).mpr
    refine ⟨?_, fun i _ => hi.informed i⟩
    intro _ _ _
    exact ⟨fun _ => hs, by simp [Pc.hasTurn], by simp [Pc.word]⟩
  · exact (Function.forall_update_iff s.procs fun _ r => r.running).mpr
      ⟨⟨by simp, by simp⟩, fun i _ => hi.running i⟩

theorem post_inv {id : ℕ} {leave : Bool} (hi : Inv words s)
    (hpc : s.procs (.worker id) = ⟨.postMutex leave, none⟩) :
    Inv words { procs := Function.update s.procs (.worker id) ⟨.postTurn leave, none⟩,
                shared := { s.shared with mutexSem := s.shared.mutexSem+1 } } := by
  have hin : (s.procs (.worker id)).pc.inside = some () := by
    rw [hpc]
    rfl
  have hs : Settled words s.shared.data s.shared.written := by
    have hk := hi.informed (.worker id) id rfl
    rw [hpc] at hk
    exact (hk (by simp [Process.gone])).pending (by simp [Pc.inside])
  constructor
  · show Guards (fun _ => s.shared.mutexSem+1) fun i =>
      (Function.update s.procs (.worker id) ⟨.postTurn leave, none⟩ i).pc.inside
    rw [Sharing.keys_update fun r : Process => r.pc.inside]
    exact guards_post_one hi.guards hin
  · exact hi.bound
  · intro _
    exact hs
  · apply (Function.forall_update_iff s.procs fun i r =>
      r.Informed words i { s.shared with mutexSem := s.shared.mutexSem+1 }).mpr
    exact ⟨informed_outside rfl _, informed_beside hi hin _⟩
  · exact (Function.forall_update_iff s.procs fun _ r => r.running).mpr
      ⟨⟨by simp, by simp⟩, fun i _ => hi.running i⟩

theorem critical_inv {id rand : ℕ} {pc pc' : Pc} {d : SharedData} (hi : Inv words s)
    (hwords : words ≠ []) (hpc : s.procs (.worker id) = ⟨pc, none⟩)
    (h : criticalSection words id rand s.shared.data pc = some (pc', d)) :
    Inv words { procs := Function.update s.procs (.worker id) ⟨pc', none⟩,
                shared := { s.shared with data := d, written := pc.record id s.shared.written } } := by
  obtain ⟨hin, hnext⟩ := critical_next h
  have hin' : (s.procs (.worker id)).pc.inside = some () := by
    rw [hpc]
    exact hin
  have hgone : ¬ Process.gone ⟨pc, none⟩ := by
    rintro (hexit | hexit)
    · rw [show pc = .exited from hexit] at hin
      cases hin
    · cases hexit
  have hk := hi.informed (.worker id) id rfl
  rw [hpc] at hk
  obtain ⟨hcrash, hbound, hknows⟩ := critical_spec hwords (hk hgone) hi.bound h
  have hin'' : pc'.inside = some () := hnext.resolve_right hcrash
  have hkeys : (fun i => (Function.update s.procs (.worker id) ⟨pc', none⟩ i).pc.inside) =
      fun i => (s.procs i).pc.inside :=
    Sharing.keys_keep (fun r : Process => r.pc.inside) (hin''.trans hin'.symm)
  constructor
  · show Guards (fun _ => s.shared.mutexSem) fun i =>
      (Function.update s.procs (.worker id) ⟨pc', none⟩ i).pc.inside
    rw [hkeys]
    exact hi.guards
  · exact hbound
  · intro hnone
    have hout := hnone (.worker id)
    rw [show _ = (s.procs (.worker id)).pc.inside from congrFun hkeys (.worker id), hin'] at hout
    cases hout
  · apply (Function.forall_update_iff s.procs fun i r => r.Informed words i
      { s.shared with data := d, written := pc.record id s.shared.written }).mpr
    refine ⟨?_, informed_beside hi hin' _⟩
    intro id' hid' _
    cases hid'
    exact hknows
  · exact (Function.forall_update_iff s.procs fun _ r => r.running).mpr
      ⟨⟨hcrash, by simp⟩, fun i _ => hi.running i⟩

/-- The parent terminates the text when all workers have exited. -/
theorem terminate_inv {d : SharedData} (hi : Inv words s) (hc : Census words s)
    (hpc : s.procs .parent = ⟨.terminate, none⟩)
    (h : s.shared.data.store s.shared.data.currentPos [0] = .ok d) :
    Inv words { procs := Function.update s.procs .parent ⟨.printed, none⟩,
                shared := { s.shared with data := d } } := by
  have hall := (hc.placed .parent).waited (by rw [hpc]; rfl)
  rw [store_fits (by rw [List.length_singleton]; exact hi.bound)] at h
  cases h
  have hkeys : (fun i => (Function.update s.procs .parent ⟨.printed, none⟩ i).pc.inside) =
      fun i => (s.procs i).pc.inside :=
    Sharing.keys_keep (fun r : Process => r.pc.inside) (by rw [hpc]; rfl)
  constructor
  · show Guards (fun _ => s.shared.mutexSem) fun i =>
      (Function.update s.procs .parent ⟨.printed, none⟩ i).pc.inside
    rw [hkeys]
    exact hi.guards
  · exact hi.bound
  · intro hnone
    have hs := hi.settled fun i => (congrFun hkeys i).symm.trans (hnone i)
    refine ⟨⟨hs.count, hs.entries⟩, ?_, hs.turn⟩
    rw [← hs.text]
    exact contents_write_before _ _ le_rfl
  · apply (Function.forall_update_iff s.procs fun i r => r.Informed words i { s.shared with
      data := { s.shared.data with
        buffer := write s.shared.data.buffer s.shared.data.currentPos [0] } }).mpr
    refine ⟨informed_outside rfl _, ?_⟩
    intro i _ id hid hgone
    cases hid
    rcases all_gone hc hall id with hunborn | hgone'
    · exact Pc.Knows.outside (by rw [hunborn]; rfl) _ _
    · exact absurd hgone' hgone
  · exact (Function.forall_update_iff s.procs fun _ r => r.running).mpr
      ⟨⟨by simp, by simp⟩, fun i _ => hi.running i⟩

theorem handler_inv {h h' : Handler} (hi : Inv words s) (hh : (s.procs p).handler = some h)
    (hact : sigintHandler p s.shared h = some (h', k)) :
    Inv words { procs := Function.update s.procs p { s.procs p with handler := some h' },
                shared := k } := by
  have hinformed : h ≠ .exited → ({ s.procs p with handler := some h' } : Process).Informed words p
      s.shared := by
    intro hne id hid hgone
    apply hi.informed p id hid
    rintro (hpc | hexit)
    · exact hgone (Or.inl hpc)
    · rw [hh] at hexit
      exact hne (Option.some.inj hexit)
  have hpc := (hi.running p).1
  have hbound := hi.bound
  cases h with
  | test =>
    cases hact
    exact same_inv hi rfl rfl rfl rfl (hinformed (by simp)) ⟨hpc, by split <;> simp⟩
  | copy =>
    cases hact
    refine same_inv hi rfl rfl rfl rfl (hinformed (by simp)) ⟨hpc, ?_⟩
    rw [if_pos hbound.le]
    simp
  | terminate =>
    cases hact
    refine same_inv hi rfl rfl rfl rfl (hinformed (by simp)) ⟨hpc, ?_⟩
    rw [if_pos hbound]
    simp
  | exit =>
    cases hact
    refine same_inv hi rfl ?_ ?_ ?_ (hinformed (by simp)) ⟨hpc, by simp⟩ <;> cases p <;> rfl
  | _ => cases hact

theorem worker_inv {id rand : ℕ} {pc : Pc} {next : Pc × Shared} (hi : Inv words s)
    (hc : Census words s) (hpc : s.procs (.worker id) = ⟨pc, none⟩)
    (h : processWorker words id rand s.shared pc = some next) :
    Inv words { procs := Function.update s.procs (.worker id) ⟨next.1, none⟩,
                shared := next.2 } := by
  have hborn := (hc.placed (.worker id)).born id rfl
  rw [hpc] at hborn
  have hid := worker_forked hborn h
  have hquiet : ∀ {pc' : Pc} {k : Shared}, pc.inside = none → pc'.inside = none →
      pc' ≠ .crashed → k.data = s.shared.data → k.written = s.shared.written →
      k.mutexSem = s.shared.mutexSem →
      Inv words { procs := Function.update s.procs (.worker id) ⟨pc', none⟩, shared := k } := by
    intro pc' k hout hout' hcrash hdata hwritten hmutex
    refine same_inv hi ?_ hdata hwritten hmutex (informed_outside hout' _) ⟨hcrash, by simp⟩
    rw [hpc]
    exact hout'.trans hout.symm
  cases pc with
  | unborn =>
    simp only [processWorker, if_pos hid] at h
    cases h
    exact hquiet rfl rfl (by simp) rfl rfl rfl
  | waitTurn =>
    simp only [processWorker] at h
    split at h
    · cases h
    · cases h
      exact hquiet rfl rfl (by simp) rfl rfl rfl
  | waitMutex =>
    simp only [processWorker] at h
    split at h
    · cases h
    · rename_i hpos
      cases h
      exact wait_inv hi hpos
  | postMutex leave =>
    cases h
    exact post_inv hi hpc
  | postTurn leave =>
    cases h
    exact hquiet rfl (by cases leave <;> rfl) (by cases leave <;> simp) rfl rfl rfl
  | left =>
    cases h
    exact hquiet rfl rfl (by simp) rfl rfl rfl
  | _ =>
    simp only [processWorker, Option.map_eq_some_iff] at h
    obtain ⟨⟨pc', d⟩, hcrit, rfl⟩ := h
    exact critical_inv hi (hc.loaded (by omega)) hpc hcrit

theorem main_inv {pc : Pc} {next : Pc × Shared} (hi : Inv words s) (hc : Census words s)
    (hpc : s.procs .parent = ⟨pc, none⟩) (h : mainStep s.shared pc = some next) :
    Inv words { procs := Function.update s.procs .parent ⟨next.1, none⟩, shared := next.2 } := by
  have hquiet : ∀ {pc' : Pc} {k : Shared}, pc.inside = none → pc'.inside = none →
      pc' ≠ .crashed → k.data = s.shared.data → k.written = s.shared.written →
      k.mutexSem = s.shared.mutexSem →
      Inv words { procs := Function.update s.procs .parent ⟨pc', none⟩, shared := k } := by
    intro pc' k hout hout' hcrash hdata hwritten hmutex
    refine same_inv hi ?_ hdata hwritten hmutex (informed_outside hout' _) ⟨hcrash, by simp⟩
    rw [hpc]
    exact hout'.trans hout.symm
  cases pc with
  | fork i =>
    cases h
    exact hquiet rfl (by split <;> rfl) (by split <;> simp) rfl rfl rfl
  | wait i =>
    simp only [mainStep] at h
    split at h
    · cases h
      exact hquiet rfl (by split <;> rfl) (by split <;> simp) rfl rfl rfl
    · cases h
  | finalTest =>
    cases h
    exact hquiet rfl (by split <;> rfl) (by split <;> simp) rfl rfl rfl
  | terminate =>
    simp only [mainStep] at h
    split at h
    · rename_i hfault
      rw [store_fits (by rw [List.length_singleton]; exact hi.bound)] at hfault
      cases hfault
    · rename_i d hstore
      cases h
      exact terminate_inv hi hc hpc hstore
  | _ => cases h

theorem act_inv {e : Event} (hi : Inv words s) (hc : Census words s)
    (h : act words p e (s.procs p) s.shared = some (q, k)) :
    Inv words { procs := Function.update s.procs p q, shared := k } := by
  cases hq : s.procs p with
  | mk pc handler =>
    rw [hq] at h
    cases e with
    | run rand =>
      cases handler with
      | some hd =>
        obtain ⟨⟨h', k'⟩, hnext, heq⟩ := Option.map_eq_some_iff.mp h
        cases heq
        have hinv := handler_inv hi (by rw [hq]) hnext
        rw [hq] at hinv
        exact hinv
      | none =>
        obtain ⟨next, hnext, heq⟩ := Option.map_eq_some_iff.mp h
        cases heq
        cases p with
        | parent => exact main_inv hi hc hq hnext
        | worker id => exact worker_inv hi hc hq hnext
    | forkFails =>
      cases handler with
      | some hd => cases h
      | none =>
        cases pc with
        | fork i =>
          cases h
          refine same_inv hi ?_ rfl rfl rfl (informed_outside rfl _) ⟨by simp, by simp⟩
          rw [hq]
          rfl
        | _ => cases h
    | sigint =>
      cases handler with
      | some hd => cases h
      | none =>
        simp only [act] at h
        split at h
        · rename_i halive
          cases h
          have hrunning := hi.running p
          have hinformed := hi.informed p
          rw [hq] at hrunning hinformed
          refine same_inv hi (by rw [hq]) rfl rfl rfl ?_ ⟨hrunning.1, by simp⟩
          intro id hid hgone
          apply hinformed id hid
          rintro (hexit | hexit)
          · exact hgone (Or.inl hexit)
          · cases hexit
        · cases h

end Step

theorem started_inv (words : List Bytes) : Inv words (started words) where
  guards := by
    have hnone : ∀ p, ((started words).procs p).pc.inside = none := by
      intro p
      cases p with
      | parent => by_cases hwords : words = [] <;> simp [started, hwords, Pc.inside]
      | worker id => rfl
    refine ⟨alone_of_empty hnone, ?_, fun _ => le_rfl⟩
    intro p u hin
    rw [hnone p] at hin
    cases hin
  bound := by
    show 0 < sharedMemSize
    decide
  settled _ := by
    refine ⟨⟨?_, ?_⟩, rfl, rfl⟩
    · show 0 = toInt 0
      decide
    · intro j entry hj
      cases hj
  informed p := by
    intro id hid _
    cases hid
    exact Pc.Knows.outside rfl _ _
  running p := by
    cases p with
    | parent => by_cases hwords : words = [] <;> simp [started, hwords, Process.running]
    | worker id => exact ⟨by simp [started], by simp [started]⟩

theorem reachable_inv {words : List Bytes} {s : Processes}
    (h : Reachable (Sharing.step (act words)) (started words) s) : Census words s ∧ Inv words s := by
  apply reachable_invariant _ (fun s => Census words s ∧ Inv words s)
    ⟨started_census words, started_inv words⟩ _ h
  intro a s t ⟨hc, hi⟩ hstep
  refine ⟨census_step hc hstep, ?_⟩
  obtain ⟨q, k, hact, rfl⟩ := Sharing.step_next _ hstep
  exact act_inv hi hc hact

/-- The position never leaves the buffer, nothing is written or copied beyond
its end, and while nobody holds the mutex the buffer has the words written, in
the order of the turns. Empty words at the start, which only a file with zero
bytes has, leave no separator. -/
theorem words_in_turn (file : Option Bytes) (s : Processes)
    (h : Reachable (Sharing.step (act (loadWordsFromFile file)))
      (started (loadWordsFromFile file)) s) :
    s.shared.data.currentPos ≤ sharedMemSize-1 ∧
    (∀ p, (s.procs p).pc ≠ .crashed ∧ (s.procs p).handler ≠ some .crashed) ∧
    ((∀ p, (s.procs p).pc.inside = none) →
      (∀ k entry, s.shared.written[k]? = some entry →
        entry.1 = k % numProcesses ∧ entry.2 ∈ loadWordsFromFile file) ∧
      s.shared.data.wordCount = toInt s.shared.written.length ∧
      contents s.shared.data.buffer s.shared.data.currentPos =
        [32].intercalate ((s.shared.written.map Prod.snd).dropWhile List.isEmpty) ∧
      ((∀ f, file = some f → 0 ∉ f) →
        s.shared.data.wordCount = s.shared.written.length ∧
        contents s.shared.data.buffer s.shared.data.currentPos =
          [32].intercalate (s.shared.written.map Prod.snd))) := by
  obtain ⟨-, hi⟩ := reachable_inv h
  refine ⟨by have := hi.bound; omega, hi.running, fun hnone => ?_⟩
  have hs := hi.settled hnone
  refine ⟨hs.entries, hs.count, ?_, fun hfile => ?_⟩
  · rw [hs.text, writtenText, joined_intercalate]
  · have hwords : ∀ word ∈ s.shared.written.map Prod.snd, word ≠ [] := by
      intro word hword
      obtain ⟨entry, hentry, rfl⟩ := List.mem_map.mp hword
      obtain ⟨j, hj⟩ := List.getElem?_of_mem hentry
      exact word_nonempty hfile (hs.entries j entry hj).2
    have hlength : s.shared.written.length ≤ s.shared.data.currentPos := by
      have hle := length_le_joined 32 hwords
      rw [List.length_map, ← writtenText, ← hs.text, contents_length] at hle
      exact hle
    have hbound := hi.bound
    unfold sharedMemSize at hbound
    refine ⟨?_, ?_⟩
    · rw [hs.count, to_int_of_lt _ (by omega)]
    · rw [hs.text, writtenText, joined_of_nonempty 32 hwords]

def workerSteps (id rand n : ℕ) : List (ProcessId × Event) :=
  List.replicate n (.worker id, .run rand)

def twoForks : List (ProcessId × Event) := List.replicate 2 (.parent, .run 0)

/-- What holds outside the critical section holds of the workers not forked. -/
theorem forall_of_two {words : List Bytes} {s : Processes} {R : Process → Prop}
    (hout : ∀ q : Process, q.pc.inside = none → R q) (hc : Census words s)
    (hforked : s.shared.forked = 2) (hparent : R (s.procs .parent))
    (hfirst : R (s.procs (.worker 0))) (hsecond : R (s.procs (.worker 1))) :
    ∀ p, R (s.procs p) := by
  rintro (_ | _ | _ | id)
  · exact hparent
  · exact hfirst
  · exact hsecond
  · apply hout
    rcases (hc.placed (.worker (id+1+1))).born (id+1+1) rfl with hunborn | hlt
    · rw [hunborn]
      rfl
    · omega

def twoWords : List Bytes := loadWordsFromFile (some (text "mare  sole\n"))

def twoTurns : List (ProcessId × Event) :=
  twoForks++workerSteps 0 0 12++workerSteps 1 1 14

theorem two_turns_run :
    (exec (Sharing.step (act twoWords)) twoTurns (started twoWords)).isSome = true := by
  decide +kernel

def twoTurnsEnd : Processes :=
  (exec (Sharing.step (act twoWords)) twoTurns (started twoWords)).get two_turns_run

theorem two_turns_text : contents twoTurnsEnd.shared.data.buffer 9 = text "mare sole" ∧
    twoTurnsEnd.shared.data.wordCount = 2 := by
  have hreach : Reachable (Sharing.step (act twoWords)) (started twoWords) twoTurnsEnd :=
    reachable_get two_turns_run
  have hwritten : twoTurnsEnd.shared.written = [(0, text "mare"), (1, text "sole")] := by
    decide +kernel
  have hpos : twoTurnsEnd.shared.data.currentPos = 9 := by decide +kernel
  have hnone : ∀ p, (twoTurnsEnd.procs p).pc.inside = none :=
    forall_of_two (fun _ h => h) (reachable_inv hreach).1
      (by decide +kernel) (by decide +kernel) (by decide +kernel) (by decide +kernel)
  obtain ⟨-, -, hfree⟩ := words_in_turn (some (text "mare  sole\n")) twoTurnsEnd hreach
  obtain ⟨-, -, -, htext⟩ := hfree hnone
  obtain ⟨hcount, hbuffer⟩ := htext (by rintro f ⟨⟩; decide)
  rw [hwritten] at hcount hbuffer
  rw [hpos] at hbuffer
  exact ⟨hbuffer, hcount⟩

def JoinedWords (words : List Bytes) (d : SharedData) : Prop :=
  ∃ ws : List Bytes, (∀ w ∈ ws, w ∈ words) ∧ (ws.length : ℤ) = d.wordCount ∧
    contents d.buffer d.currentPos = [32].intercalate ws

/-- The first word of this file begins with a zero byte, so that the string
copied from it is empty. -/
def emptyWords : List Bytes := loadWordsFromFile (some [0, 32, 97])

def emptyFirst : List (ProcessId × Event) :=
  twoForks++workerSteps 0 0 12++workerSteps 1 1 12

def oneWord : List Bytes := loadWordsFromFile (some [97])

def interruptedInside : List (ProcessId × Event) :=
  twoForks++workerSteps 0 0 12++workerSteps 1 0 8++[(.worker 1, .sigint)]++workerSteps 1 0 4

theorem empty_first_run :
    (exec (Sharing.step (act emptyWords)) emptyFirst (started emptyWords)).isSome = true := by
  decide +kernel

theorem interrupted_inside_run :
    (exec (Sharing.step (act oneWord)) interruptedInside (started oneWord)).isSome = true := by
  decide +kernel

def emptyFirstEnd : Processes :=
  (exec (Sharing.step (act emptyWords)) emptyFirst (started emptyWords)).get empty_first_run

def interruptedInsideEnd : Processes :=
  (exec (Sharing.step (act oneWord)) interruptedInside (started oneWord)).get
    interrupted_inside_run

theorem text_of_other_words :
    (¬ ∀ s, Reachable (Sharing.step (act emptyWords)) (started emptyWords) s →
      (∀ p, (s.procs p).gone ∨ (s.procs p).pc.inside = none) →
        JoinedWords emptyWords s.shared.data) ∧
    ¬ ∀ s, Reachable (Sharing.step (act oneWord)) (started oneWord) s →
      (∀ p, (s.procs p).gone ∨ (s.procs p).pc.inside = none) →
        JoinedWords oneWord s.shared.data := by
  have hout : ∀ q : Process, q.pc.inside = none → q.gone ∨ q.pc.inside = none :=
    fun _ => Or.inr
  constructor
  · intro hclaim
    have hreach : Reachable (Sharing.step (act emptyWords)) (started emptyWords) emptyFirstEnd :=
      reachable_get empty_first_run
    obtain ⟨ws, -, hcount, htext⟩ := hclaim emptyFirstEnd hreach
      (forall_of_two hout (reachable_inv hreach).1 (by decide +kernel) (Or.inr (by decide +kernel))
        (Or.inr (by decide +kernel)) (Or.inr (by decide +kernel)))
    have htwo : emptyFirstEnd.shared.data.wordCount = 2 := by decide +kernel
    have hbuffer : contents emptyFirstEnd.shared.data.buffer
        emptyFirstEnd.shared.data.currentPos = [97] := by decide +kernel
    rw [htwo] at hcount
    rw [hbuffer] at htext
    obtain ⟨v, w, rfl⟩ := List.length_eq_two.mp (Int.ofNat.inj hcount)
    have hlength := congrArg List.length htext
    simp only [List.intercalate_cons_cons, List.intercalate_singleton, List.length_append,
      List.length_singleton] at hlength
    have hv : v = [] := List.length_eq_zero_iff.mp (by omega)
    have hw : w = [] := List.length_eq_zero_iff.mp (by omega)
    rw [hv, hw] at htext
    exact absurd htext (by decide)
  · intro hclaim
    have hreach : Reachable (Sharing.step (act oneWord)) (started oneWord) interruptedInsideEnd :=
      reachable_get interrupted_inside_run
    obtain ⟨ws, hwords, hcount, htext⟩ := hclaim interruptedInsideEnd hreach
      (forall_of_two hout (reachable_inv hreach).1 (by decide +kernel) (Or.inr (by decide +kernel))
        (Or.inr (by decide +kernel)) (Or.inl (Or.inr (by decide +kernel))))
    have hone : interruptedInsideEnd.shared.data.wordCount = 1 := by decide +kernel
    have hbuffer : contents interruptedInsideEnd.shared.data.buffer
        interruptedInsideEnd.shared.data.currentPos = [97, 32] := by decide +kernel
    have hword : oneWord = [[97]] := by decide
    rw [hone] at hcount
    rw [hbuffer] at htext
    obtain ⟨w, rfl⟩ := List.length_eq_one_iff.mp (Int.ofNat.inj hcount)
    have hw := hwords w (by simp)
    rw [hword, List.mem_singleton] at hw
    rw [hw] at htext
    exact absurd htext (by decide)

end ProgSistema.WordBuffer
