import ProgSistema.FileDaemon.Model
import ProgSistema.Lib.Sharing

/-!
# The PID file

Every instance of the daemon creates the PID file exclusively before its main
loop and removes it on the way out. An instance moves from one system call to
the next; the result of the call is part of the step, and an instance may be
killed between any two of them.
-/

set_option autoImplicit false

namespace ProgSistema.FileDaemon
open CRuntime

structure PidDirectory where
  entry : Option ℕ
  content : ℕ → Bytes
  nextFile : ℕ

/-- `create_pid_file` opens, writes and closes the file, and unlinks it after
an incomplete write. -/
inductive Pc where
  | off
  | preparing
  | openPidFile
  | writePid (file : ℕ)
  | closePidFile (file : ℕ) (complete : Bool)
  | unlinkPidFile
  | installHandlers
  | registerCleanup
  | mainLoop
  | exiting
  | cleanupDaemon
  | ended
  | killed
  deriving DecidableEq, Repr

/-- `cleanup` tells whether `atexit` has been called; `refused` only records
that the file existed at the start. -/
structure Instance where
  pc : Pc
  cleanup : Bool
  refused : Bool
  deriving DecidableEq, Repr

inductive Event where
  | run (result : ℤ)
  | kill
  deriving DecidableEq, Repr

def pidString (pid : ℕ) : Bytes := snprintf 16 (text (toString pid++"\n"))

/-- The system call fails when its result is negative. -/
def PidDirectory.unlink (d : PidDirectory) (result : ℤ) : PidDirectory :=
  if result < 0 then d else { d with entry := none }

def openExclusive (p : Instance) (d : PidDirectory) (result : ℤ) : Instance × PidDirectory :=
  match d.entry with
  | some _ => ({ p with pc := .exiting, refused := true }, d)
  | none =>
    if result < 0 then ({ p with pc := .exiting }, d)
    else ({ p with pc := .writePid d.nextFile },
      { entry := some d.nextFile, content := Function.update d.content d.nextFile [],
        nextFile := d.nextFile+1 })

def runInstance (pid : Bytes) (p : Instance) (d : PidDirectory) (result : ℤ) :
    Option (Instance × PidDirectory) :=
  match p.pc with
  | .off => some ({ p with pc := .preparing }, d)
  | .preparing => some ({ p with pc := if result < 0 then .exiting else .openPidFile }, d)
  | .openPidFile => some (openExclusive p d result)
  | .writePid file =>
    some ({ p with pc := .closePidFile file (decide (result = pid.length)) },
      { d with content :=
          Function.update d.content file (d.content file++pid.take result.toNat) })
  | .closePidFile _ complete =>
    some ({ p with pc := if complete then .installHandlers else .unlinkPidFile }, d)
  | .unlinkPidFile => some ({ p with pc := .exiting }, d.unlink result)
  | .installHandlers => some ({ p with pc := .registerCleanup }, d)
  | .registerCleanup => some ({ p with pc := .mainLoop, cleanup := true }, d)
  | .mainLoop => some ({ p with pc := .exiting }, d)
  | .exiting => some ({ p with pc := if p.cleanup then .cleanupDaemon else .ended }, d)
  | .cleanupDaemon => some ({ p with pc := .ended }, d.unlink result)
  | .ended => none
  | .killed => none

def act {ι : Type} (pid : ι → ℕ) (i : ι) : Event → Instance → PidDirectory →
    Option (Instance × PidDirectory)
  | .run result, p, d => runInstance (pidString (pid i)) p d result
  | .kill, p, d =>
    match p.pc with
    | .off => none
    | .ended => none
    | .killed => none
    | _ => some ({ p with pc := .killed }, d)

abbrev Daemons (ι : Type) := Sharing.System ι Instance PidDirectory

/-- No instance has started; the PID file may be there or not. -/
def notStarted {ι : Type} (d : PidDirectory) : Daemons ι where
  procs _ := { pc := .off, cleanup := false, refused := false }
  shared := d

def PidDirectory.holds (d : PidDirectory) (pid : Bytes) : Prop :=
  ∃ file, d.entry = some file ∧ d.content file = pid

def Instance.owns (p : Instance) : Bool :=
  match p.pc with
  | .off | .preparing | .openPidFile | .ended | .killed => false
  | .exiting => p.cleanup
  | _ => true

def Instance.knows (pid : Bytes) (p : Instance) (d : PidDirectory) : Prop :=
  match p.pc with
  | .off | .preparing | .openPidFile => p.cleanup = false ∧ p.refused = false
  | .writePid file =>
    (d.entry = some file ∧ d.content file = []) ∧ p.cleanup = false ∧ p.refused = false
  | .closePidFile file complete =>
    (d.entry = some file ∧ (complete = true → d.content file = pid)) ∧
      p.cleanup = false ∧ p.refused = false
  | .unlinkPidFile => d.entry ≠ none ∧ p.cleanup = false ∧ p.refused = false
  | .installHandlers | .registerCleanup => d.holds pid ∧ p.cleanup = false ∧ p.refused = false
  | .mainLoop | .cleanupDaemon => d.holds pid ∧ p.refused = false
  | .exiting => p.cleanup = true → d.holds pid ∧ p.refused = false
  | .ended | .killed => True

section Local
variable {pid : Bytes} {p p' : Instance} {d d' : PidDirectory} {result : ℤ}

theorem holds_entry (h : d.holds pid) : d.entry ≠ none := by
  obtain ⟨file, hentry, -⟩ := h
  simp [hentry]

theorem owner_entry (hk : p.knows pid d) (hown : p.owns = true) : d.entry ≠ none := by
  unfold Instance.knows at hk
  unfold Instance.owns at hown
  cases hpc : p.pc with (rw [hpc] at hk hown; dsimp only at hk hown)
  | off | preparing | openPidFile | ended | killed => cases hown
  | writePid | closePidFile =>
    rw [hk.1.1]
    simp
  | unlinkPidFile => exact hk.1
  | installHandlers | registerCleanup | mainLoop | cleanupDaemon => exact holds_entry hk.1
  | exiting => exact holds_entry (hk hown).1

theorem outsider_knows (hk : p.knows pid d) (hout : p.owns = false) (d' : PidDirectory) :
    p.knows pid d' := by
  unfold Instance.knows at hk ⊢
  unfold Instance.owns at hout
  cases hpc : p.pc with (rw [hpc] at hk hout; dsimp only at hk hout ⊢)
  | off | preparing | openPidFile => exact hk
  | exiting =>
    intro hcleanup
    rw [hout] at hcleanup
    cases hcleanup
  | _ => cases hout

theorem open_exclusive_cases (h : openExclusive p d result = (p', d')) :
    (d.entry ≠ none ∧ p' = { p with pc := .exiting, refused := true } ∧ d' = d) ∨
      (d.entry = none ∧ p' = { p with pc := .exiting } ∧ d' = d) ∨
      d.entry = none ∧ p' = { p with pc := .writePid d.nextFile } ∧
        d' = { entry := some d.nextFile, content := Function.update d.content d.nextFile [],
               nextFile := d.nextFile+1 } := by
  unfold openExclusive at h
  cases hentry : d.entry with
  | some file =>
    rw [hentry] at h
    obtain ⟨rfl, rfl⟩ := Prod.mk.inj h
    exact .inl ⟨by simp, rfl, rfl⟩
  | none =>
    rw [hentry] at h
    dsimp only at h
    by_cases hresult : result < 0
    · rw [if_pos hresult] at h
      obtain ⟨rfl, rfl⟩ := Prod.mk.inj h
      exact .inr (.inl ⟨rfl, rfl, rfl⟩)
    · rw [if_neg hresult] at h
      obtain ⟨rfl, rfl⟩ := Prod.mk.inj h
      exact .inr (.inr ⟨rfl, rfl, rfl⟩)

/-- The file just created holds the text after a complete write. -/
theorem write_complete (file : ℕ) (hempty : d.content file = []) (hresult : result = pid.length) :
    Function.update d.content file (d.content file++pid.take result.toNat) file = pid := by
  rw [Function.update_self, hempty, hresult, Int.toNat_natCast, List.take_length, List.nil_append]

theorem run_knows (hk : p.knows pid d) (h : runInstance pid p d result = some (p', d')) :
    p'.knows pid d' := by
  unfold Instance.knows at hk
  unfold runInstance at h
  cases hpc : p.pc with (rw [hpc] at hk h; dsimp only at hk h)
  | off =>
    cases h
    exact hk
  | preparing =>
    cases h
    by_cases hresult : result < 0
    · rw [if_pos hresult]
      show p.cleanup = true → _
      simp [hk.1]
    · rw [if_neg hresult]
      exact hk
  | openPidFile =>
    rcases open_exclusive_cases (Option.some.inj h) with ⟨-, rfl, rfl⟩ | ⟨-, rfl, rfl⟩ | ⟨-, rfl, rfl⟩
    · show p.cleanup = true → _
      simp [hk.1]
    · show p.cleanup = true → _
      simp [hk.1]
    · exact ⟨⟨rfl, Function.update_self _ _ _⟩, hk⟩
  | writePid file =>
    cases h
    refine ⟨⟨hk.1.1, fun hcomplete => ?_⟩, hk.2⟩
    exact write_complete file hk.1.2 (by simpa using hcomplete)
  | closePidFile file complete =>
    cases h
    cases complete with
    | true => exact ⟨⟨file, hk.1.1, hk.1.2 rfl⟩, hk.2⟩
    | false =>
      show d.entry ≠ none ∧ _
      exact ⟨by rw [hk.1.1]; simp, hk.2⟩
  | unlinkPidFile =>
    cases h
    show p.cleanup = true → _
    simp [hk.2.1]
  | installHandlers =>
    cases h
    exact hk
  | registerCleanup =>
    cases h
    exact ⟨hk.1, hk.2.2⟩
  | mainLoop =>
    cases h
    exact fun _ => hk
  | exiting =>
    cases h
    by_cases hcleanup : p.cleanup = true
    · rw [if_pos hcleanup]
      exact hk hcleanup
    · rw [if_neg hcleanup]
      trivial
  | cleanupDaemon =>
    cases h
    trivial
  | ended | killed => cases h

theorem run_gains (hk : p.knows pid d) (h : runInstance pid p d result = some (p', d'))
    (hown : p'.owns = true) : p.owns = true ∨ d.entry = none := by
  unfold Instance.knows at hk
  unfold runInstance at h
  rw [Instance.owns]
  cases hpc : p.pc with (rw [hpc] at hk h; dsimp only at hk h ⊢)
  | off =>
    cases h
    cases hown
  | preparing =>
    cases h
    by_cases hresult : result < 0
    · rw [if_pos hresult] at hown
      rw [show p.cleanup = true from hown] at hk
      cases hk.1
    · rw [if_neg hresult] at hown
      cases hown
  | openPidFile =>
    rcases open_exclusive_cases (Option.some.inj h) with ⟨-, rfl, -⟩ | ⟨hentry, -, -⟩ | ⟨hentry, -, -⟩
    · rw [show p.cleanup = true from hown] at hk
      cases hk.1
    · exact .inr hentry
    · exact .inr hentry
  | exiting =>
    cases h
    by_cases hcleanup : p.cleanup = true
    · exact .inl hcleanup
    · rw [if_neg hcleanup] at hown
      cases hown
  | ended | killed => cases h
  | _ => exact .inl rfl

theorem run_writes (h : runInstance pid p d result = some (p', d')) :
    d' = d ∨ p.owns = true ∨ d.entry = none := by
  unfold runInstance at h
  rw [Instance.owns]
  cases hpc : p.pc with (rw [hpc] at h; dsimp only at h ⊢)
  | off | preparing | exiting =>
    cases h
    exact .inl rfl
  | openPidFile =>
    rcases open_exclusive_cases (Option.some.inj h) with ⟨-, -, rfl⟩ | ⟨hentry, -, -⟩ | ⟨hentry, -, -⟩
    · exact .inl rfl
    · exact .inr (.inr hentry)
    · exact .inr (.inr hentry)
  | ended | killed => cases h
  | _ => exact .inr (.inl rfl)

/-- A refused instance never gets to the calls that change the PID file. -/
theorem refused_leaves (hk : p.knows pid d) (hrefused : p.refused = true)
    (h : runInstance pid p d result = some (p', d')) : d' = d := by
  unfold Instance.knows at hk
  unfold runInstance at h
  rw [hrefused] at hk
  cases hpc : p.pc with (rw [hpc] at hk h; dsimp only at hk h)
  | openPidFile => cases hk.2
  | writePid => cases hk.2.2
  | unlinkPidFile => cases hk.2.2
  | cleanupDaemon => cases hk.2
  | ended | killed => cases h
  | _ =>
    cases h
    rfl

end Local

section Interleaving
variable {ι : Type} {pid : ι → ℕ}

theorem act_cases {i : ι} {e : Event} {p p' : Instance} {d d' : PidDirectory}
    (h : act pid i e p d = some (p', d')) :
    (∃ result, runInstance (pidString (pid i)) p d result = some (p', d')) ∨
      p' = { p with pc := .killed } ∧ d' = d := by
  cases e with
  | run result => exact .inl ⟨result, h⟩
  | kill =>
    right
    unfold act at h
    dsimp only at h
    split at h
    · cases h
    · cases h
    · cases h
    · obtain ⟨rfl, rfl⟩ := Prod.mk.inj (Option.some.inj h)
      exact ⟨rfl, rfl⟩

theorem pid_file_exclusive (pid : ι → ℕ) : Sharing.Exclusive (act pid)
    (fun i p d => p.knows (pidString (pid i)) d) (fun p => p.owns = true)
    (fun d => d.entry = none) where
  taken i p d hk hown := owner_entry hk hown
  outside i p d d' hk hout := outsider_knows hk (Bool.eq_false_iff.mpr hout) d'
  keeps i e p d p' d' hk h := by
    rcases act_cases h with ⟨result, hrun⟩ | ⟨rfl, rfl⟩
    · exact run_knows hk hrun
    · trivial
  gains i e p d p' d' hk h hown := by
    rcases act_cases h with ⟨result, hrun⟩ | ⟨rfl, rfl⟩
    · exact run_gains hk hrun hown
    · cases hown
  writes i e p d p' d' _ h := by
    rcases act_cases h with ⟨result, hrun⟩ | ⟨rfl, rfl⟩
    · exact run_writes hrun
    · exact .inl rfl

theorem reachable_knows (pid : ι → ℕ) [DecidableEq ι] {d : PidDirectory} {s : Daemons ι}
    (h : Runs.Reachable (Sharing.step (act pid)) (notStarted d) s) :
    Sharing.Inv (fun i p d => p.knows (pidString (pid i)) d) (fun p => p.owns = true) s := by
  apply Runs.reachable_invariant (Sharing.step (act pid)) _ _ _ h
  · constructor
    · intro i
      exact ⟨rfl, rfl⟩
    · intro i j hi
      cases hi
  · intro a s t hi hstep
    exact Sharing.step_inv (pid_file_exclusive pid) hi hstep

theorem main_loop_owns {p : Instance} (h : p.pc = .mainLoop) : p.owns = true := by
  rw [Instance.owns, h]

/-- At most one instance is in its main loop, and the PID file holds its
identifier. From the creation of the file to its removal nothing that the
others do changes the file, and an instance that was refused never does. -/
theorem one_running_instance {ι : Type} [DecidableEq ι] (pid : ι → ℕ) (d : PidDirectory)
    (s : Daemons ι) (h : Runs.Reachable (Sharing.step (act pid)) (notStarted d) s) :
    (∀ i j, (s.procs i).pc = .mainLoop → (s.procs j).pc = .mainLoop → i = j) ∧
      (∀ i, (s.procs i).pc = .mainLoop → s.shared.holds (pidString (pid i))) ∧
      (∀ i as t, (s.procs i).owns = true → (∀ a ∈ as, a.1 ≠ i) →
        Runs.exec (Sharing.step (act pid)) as s = some t →
        t.shared = s.shared ∧ t.procs i = s.procs i) ∧
      ∀ j e t, (s.procs j).refused = true → Sharing.step (act pid) (j, e) s = some t →
        t.shared = s.shared := by
  have hi := reachable_knows pid h
  refine ⟨fun i j hpi hpj => ?_, fun i hpi => ?_, fun i as t hown hothers hrun => ?_,
    fun j e t hrefused hstep => ?_⟩
  · exact hi.unique i j (main_loop_owns hpi) (main_loop_owns hpj)
  · have hknows := hi.fits i
    unfold Instance.knows at hknows
    rw [hpi] at hknows
    exact hknows.1
  · exact Sharing.others_keep_run (pid_file_exclusive pid) as hi hown hothers hrun
  · obtain ⟨⟨p', d'⟩, hact, rfl⟩ := Option.map_eq_some_iff.mp hstep
    rcases act_cases hact with ⟨result, hrun⟩ | ⟨-, hsame⟩
    · exact refused_leaves (hi.fits j) hrefused hrun
    · exact hsame

def twoStarts : List (ℕ × Event) :=
  [(0, .run 0), (0, .run 0), (0, .run 3), (1, .run 0), (0, .run 4), (0, .run 0), (1, .run 0),
    (0, .run 0), (0, .run 0), (1, .run (-1))]

theorem two_starts_run : (Runs.exec (Sharing.step (act fun i => 100+i)) twoStarts
    (notStarted ⟨none, fun _ => [], 0⟩)).isSome = true := by
  decide

def twoStarted : Daemons ℕ := (Runs.exec (Sharing.step (act fun i => 100+i)) twoStarts
  (notStarted ⟨none, fun _ => [], 0⟩)).get two_starts_run

theorem second_refused : twoStarted.shared.holds (pidString 100) ∧
    (twoStarted.procs 1).refused = true ∧ (twoStarted.procs 1).pc ≠ .mainLoop := by
  have hreach : Runs.Reachable (Sharing.step (act fun i => 100+i))
      (notStarted ⟨none, fun _ => [], 0⟩) twoStarted :=
    Runs.reachable_get two_starts_run
  obtain ⟨hunique, hholds, -, -⟩ := one_running_instance (fun i => 100+i) _ twoStarted hreach
  have hloop : (twoStarted.procs 0).pc = .mainLoop := by decide
  refine ⟨hholds 0 hloop, by decide, fun h => ?_⟩
  cases hunique 1 0 h hloop

end Interleaving

end ProgSistema.FileDaemon
