import ProgSistema.Lib.OffsetLog
import ProgSistema.SharedArray.Model

/-!
# The log of the removed records

Both consumers append the records that they have removed to a mapped file,
one at a time under a semaphore of its own. The log is begun again when the
next record does not fit.
-/

set_option autoImplicit false

namespace ProgSistema.SharedArray
open CRuntime

def fileSize : ℕ := 4096

def twoDigits (n : ℕ) : Bytes := [UInt8.ofNat (48+n/10), UInt8.ofNat (48+n%10)]

def generateRecord (rand : ℕ) (hour : Fin 24) (minute : Fin 60) (second : Fin 61) : Record where
  timeStamp := twoDigits hour++text ":"++twoDigits minute++text ":"++twoDigits second
  number := (rand : ℤ) % 10000

def encode (record : Record) : Bytes :=
  text "|"++record.timeStamp++text "|"++printInt record.number++text "|\n"

def writeLine (record : Record) : Except Fault Bytes :=
  if (encode record).length < 64 then .ok (encode record) else .error .outOfBounds

def initSharedFile (f : MappedFile) : MappedFile :=
  if f.size = 0 then ⟨fun _ => 0, fileSize⟩ else f

theorem encode_length (rand : ℕ) (hour : Fin 24) (minute : Fin 60) (second : Fin 61) :
    (encode (generateRecord rand hour minute second)).length ≤ 16 := by
  have hnumber : (printInt ((rand : ℤ) % 10000)).length ≤ 4 := by
    unfold printInt
    rw [if_neg (by omega)]
    exact decimal_length (by decide) (by omega)
  have hbar : (text "|").length = 1 := by decide
  have hcolon : (text ":").length = 1 := by decide
  have hend : (text "|\n").length = 2 := by decide
  unfold encode generateRecord twoDigits
  simp only [List.length_append, List.length_cons, List.length_nil, hbar, hcolon, hend]
  omega

namespace Writers

inductive Pc where
  | idle
  | semWait (record : Record)
  | critical (record : Record)
  | semPost
  | crashed
  deriving DecidableEq, Repr

inductive Event where
  | write (rand : ℕ) (hour : Fin 24) (minute : Fin 60) (second : Fin 61)
  | wait (interrupted : Bool)
  | work
  | post
  deriving DecidableEq, Repr

/-- The semaphore and the file. The records written since the last reset and
the places of all copies, with their lengths, only record. -/
structure Shared where
  sem : ℕ
  file : MappedFile
  written : List Record
  copies : List (ℤ × ℕ)

def writeToSharedFile (record : Record) (k : Shared) : Pc × Shared :=
  match k.file.append (encode record) with
  | .error _ => (.crashed, k)
  | .ok file =>
    let len := (encode record).length
    (.semPost, { k with file := file,
                        written := if k.file.full len then [record] else k.written++[record],
                        copies := k.copies++[((k.file.place len).1, len)] })

def act {ι : Type} (_ : ι) : Event → Pc → Shared → Option (Pc × Shared)
  | .write rand hour minute second, .idle, k =>
    let record := generateRecord rand hour minute second
    match writeLine record with
    | .error _ => some (.crashed, k)
    | .ok _ => some (.semWait record, k)
  | .wait interrupted, .semWait record, k =>
    if interrupted then some (.idle, k)
    else if k.sem = 0 then none
    else some (.critical record, { k with sem := k.sem-1 })
  | .work, .critical record, k => some (writeToSharedFile record k)
  | .post, .semPost, k => some (.idle, { k with sem := k.sem+1 })
  | _, _, _ => none

abbrev Consumers (ι : Type) := Sharing.System ι Pc Shared

def created {ι : Type} (bytes : ℕ → UInt8) : Consumers ι where
  procs _ := .idle
  shared := { sem := 1, file := initSharedFile ⟨bytes, 0⟩, written := [], copies := [] }

def Pc.Produced : Pc → Prop
  | .semWait record => (encode record).length ≤ 16
  | .critical record => (encode record).length ≤ 16
  | _ => True

structure Logged (k : Shared) : Prop where
  size : k.file.size = fileSize
  log : k.file.LogOf (k.written.flatMap encode)
  copies : ∀ w ∈ k.copies, 4 ≤ w.1 ∧ w.1+w.2 < fileSize

theorem write_spec {k : Shared} (hk : Logged k) (record : Record)
    (hlen : (encode record).length ≤ 16) :
    (writeToSharedFile record k).1 = .semPost ∧ Logged (writeToSharedFile record k).2 := by
  obtain ⟨file, hok, hsize, hlog, hlow, hhigh⟩ := MappedFile.append_spec hk.log
    (encode record) (by rw [hk.size]; decide) (by rw [hk.size]; unfold fileSize; omega)
  unfold writeToSharedFile
  rw [hok]
  refine ⟨rfl, ⟨hsize.trans hk.size, ?_, ?_⟩⟩
  · show file.LogOf ((if k.file.full (encode record).length then [record]
      else k.written++[record]).flatMap encode)
    split at hlog
    · rename_i hfull
      rw [if_pos hfull, List.flatMap_singleton]
      exact hlog
    · rename_i hroom
      rw [if_neg hroom, List.flatMap_append, List.flatMap_singleton]
      exact hlog
  · show ∀ w ∈ k.copies++[((k.file.place (encode record).length).1, (encode record).length)],
      4 ≤ w.1 ∧ w.1+w.2 < fileSize
    intro w hw
    rcases List.mem_append.mp hw with hw | hw
    · exact hk.copies w hw
    · rw [List.mem_singleton.mp hw]
      rw [hk.size] at hhigh
      exact ⟨hlow, hhigh⟩

theorem act_logged {ι : Type} {i : ι} {e : Event} {pc pc' : Pc} {k k' : Shared} (hk : Logged k)
    (hpc : pc.Produced) (h : act i e pc k = some (pc', k')) :
    Logged k' ∧ pc'.Produced ∧ pc' ≠ .crashed := by
  have hsem : ∀ sem, Logged { k with sem := sem } := fun _ => ⟨hk.size, hk.log, hk.copies⟩
  unfold act at h
  split at h
  · rename_i rand hour minute second
    have hlen := encode_length rand hour minute second
    have hline : writeLine (generateRecord rand hour minute second) = .ok _ := if_pos (by omega)
    dsimp only at h
    rw [hline] at h
    cases h
    exact ⟨hk, hlen, by simp⟩
  · rename_i interrupted record
    split at h
    · cases h
      exact ⟨hk, trivial, by simp⟩
    · split at h
      · cases h
      · cases h
        exact ⟨hsem _, hpc, by simp⟩
  · rename_i record
    obtain ⟨hnext, hlogged⟩ := write_spec hk record hpc
    rw [Option.some.inj h] at hnext hlogged
    rw [show pc' = .semPost from hnext]
    exact ⟨hlogged, trivial, by simp⟩
  · cases h
    exact ⟨hsem _, trivial, by simp⟩
  · cases h

structure LogInv {ι : Type} (s : Consumers ι) : Prop where
  logged : Logged s.shared
  produced : ∀ i, (s.procs i).Produced
  running : ∀ i, s.procs i ≠ .crashed

theorem created_inv {ι : Type} (bytes : ℕ → UInt8) : LogInv (created bytes : Consumers ι) := by
  have hfile : (created bytes : Consumers ι).shared.file = ⟨fun _ => 0, fileSize⟩ := rfl
  have hoffset : MappedFile.offset ⟨fun _ => 0, fileSize⟩ = 0 := by decide
  refine ⟨⟨?_, ?_, ?_⟩, fun _ => trivial, fun _ => by simp [created]⟩
  · rw [hfile]
  · rw [hfile]
    refine ⟨hoffset.ge, ?_, ?_⟩
    · rw [hoffset]
      decide
    · rw [hoffset]
      rfl
  · intro w hw
    cases hw

theorem step_inv {ι : Type} [DecidableEq ι] (a : ι × Event) (s t : Consumers ι) (hi : LogInv s)
    (h : Sharing.step act a s = some t) : LogInv t := by
  obtain ⟨pc, k, hact, rfl⟩ := Sharing.step_next _ h
  obtain ⟨hlogged, hproduced, hrunning⟩ := act_logged hi.logged (hi.produced a.1) hact
  refine ⟨hlogged, ?_, ?_⟩
  · exact (Function.forall_update_iff s.procs fun _ q => q.Produced).mpr
      ⟨hproduced, fun i _ => hi.produced i⟩
  · exact (Function.forall_update_iff s.procs fun _ q => q ≠ .crashed).mpr
      ⟨hrunning, fun i _ => hi.running i⟩

/-- Every copy lies behind the offset and inside the file, and the log consists
of the lines of the records written since the last reset. -/
theorem log_of_written {ι : Type} [DecidableEq ι] (bytes : ℕ → UInt8) (s : Consumers ι)
    (h : Runs.Reachable (Sharing.step act) (created bytes) s) :
    (∀ w ∈ s.shared.copies, 4 ≤ w.1 ∧ w.1+w.2 < fileSize) ∧
      0 ≤ s.shared.file.offset ∧ 4+s.shared.file.offset < fileSize ∧
      s.shared.file.slice 4 s.shared.file.offset.toNat = s.shared.written.flatMap encode ∧
      ∀ i, s.procs i ≠ .crashed := by
  have hi := Runs.reachable_invariant _ LogInv (created_inv bytes) step_inv h
  obtain ⟨hlow, hhigh, hcontent⟩ := hi.logged.log
  rw [hi.logged.size] at hhigh
  exact ⟨hi.logged.copies, hlow, hhigh, hcontent, hi.running⟩

def twoWrites : List (Fin 2 × Event) :=
  [(0, .write 12345 10 0 7), (1, .write 42 10 0 8), (0, .wait false), (0, .work), (0, .post),
    (1, .wait false), (1, .work), (1, .post)]

theorem two_writes_run : (Runs.exec (Sharing.step act) twoWrites
    (created fun _ => 0)).isSome = true := by
  decide +kernel

def twoWritesEnd : Consumers (Fin 2) :=
  (Runs.exec (Sharing.step act) twoWrites (created fun _ => 0)).get two_writes_run

theorem two_writes_log : twoWritesEnd.shared.file.slice 4 30 =
    text "|10:00:07|2345|\n|10:00:08|42|\n" ∧
      ∀ w ∈ twoWritesEnd.shared.copies, 4 ≤ w.1 ∧ w.1+w.2 < fileSize := by
  obtain ⟨hcopies, -, -, hlog, -⟩ := log_of_written (fun _ => 0) twoWritesEnd
    (Runs.reachable_get two_writes_run)
  have hoffset : twoWritesEnd.shared.file.offset.toNat = 30 := by decide +kernel
  have hwritten : twoWritesEnd.shared.written.flatMap encode =
      text "|10:00:07|2345|\n|10:00:08|42|\n" := by decide +kernel
  rw [hoffset, hwritten] at hlog
  exact ⟨hlog, hcopies⟩

end Writers

end ProgSistema.SharedArray
