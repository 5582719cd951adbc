import ProgSistema.Lib.CRuntime
import ProgSistema.Lib.Sharing

/-!
# The lock file

An instance looks for a running one through the identifier in the lock file,
becomes a daemon and takes an advisory lock on the file before its loop. Every
way out after that goes through `remove_lockfile`, which removes the path
whoever holds the lock. An instance moves from one system call to the next
with the result of the call, and may be killed between any two of them.
-/

set_option autoImplicit false

namespace ProgSistema.DirectoryDaemon
open CRuntime

/-- The file that the path names, if any, and for every file its contents and
the instance that holds its lock. -/
structure LockDirectory (ι : Type) where
  entry : Option ℕ
  content : ℕ → Bytes
  holder : ℕ → Option ι
  nextFile : ℕ

inductive Pc where
  | off
  | fopenLockfile
  | fscanf (file : ℕ)
  | processExists (pid : ℤ)
  | daemonize
  | openLockfile
  | flock (fd : ℕ)
  | ftruncate (fd : ℕ)
  | writePid (fd : ℕ)
  | closeFailed (fd : ℕ)
  | mainLoop (lockfd : ℕ)
  | closeLockfd (lockfd : ℕ)
  | unlinkLockfile
  | ended
  | killed
  deriving DecidableEq, Repr

inductive Event where
  | run (result : ℤ)
  | kill
  deriving DecidableEq, Repr

def pidString (pid : ℕ) : Bytes := text (toString pid++"\n")

section Files
variable {ι : Type} {d : LockDirectory ι}

def LockDirectory.openOrCreate (d : LockDirectory ι) : ℕ × LockDirectory ι :=
  match d.entry with
  | some file => (file, d)
  | none =>
    (d.nextFile, { entry := some d.nextFile, content := Function.update d.content d.nextFile [],
                   holder := Function.update d.holder d.nextFile none, nextFile := d.nextFile+1 })

def LockDirectory.write (fd : ℕ) (b : Bytes) (d : LockDirectory ι) : LockDirectory ι :=
  { d with content := Function.update d.content fd b }

theorem open_or_create_entry (d : LockDirectory ι) :
    d.openOrCreate.2.entry = some d.openOrCreate.1 := by
  unfold LockDirectory.openOrCreate
  cases h : d.entry with
  | some file => exact h
  | none => rfl

theorem open_or_create_existing (file : ℕ) (h : d.entry = some file) :
    d.openOrCreate = (file, d) := by
  rw [LockDirectory.openOrCreate, h]

end Files

section
variable {ι : Type} [DecidableEq ι]

/-- Closing the last descriptor of a file drops the lock taken through it. -/
def LockDirectory.close (i : ι) (fd : ℕ) (d : LockDirectory ι) : LockDirectory ι :=
  if d.holder fd = some i then { d with holder := Function.update d.holder fd none } else d

def runInstance (i : ι) (pid : Bytes) (pc : Pc) (d : LockDirectory ι) (result : ℤ) :
    Option (Pc × LockDirectory ι) :=
  match pc with
  | .off => some (if result < 0 then .ended else .fopenLockfile, d)
  | .fopenLockfile =>
    match d.entry with
    | none => some (.daemonize, d)
    | some file => some (if result < 0 then .daemonize else .fscanf file, d)
  | .fscanf file =>
    match scanInteger (d.content file) with
    | none => some (.daemonize, d)
    | some (value, _) => some (.processExists (toInt value), d)
  | .processExists _ => some (if result = 0 then .ended else .daemonize, d)
  | .daemonize => some (if result < 0 then .ended else .openLockfile, d)
  | .openLockfile =>
    if result < 0 then some (.unlinkLockfile, d)
    else some (.flock d.openOrCreate.1, d.openOrCreate.2)
  | .flock fd =>
    if result < 0 ∨ d.holder fd ≠ none then some (.closeFailed fd, d)
    else some (.ftruncate fd, { d with holder := Function.update d.holder fd (some i) })
  | .ftruncate fd =>
    if result < 0 then some (.closeFailed fd, d) else some (.writePid fd, d.write fd [])
  | .writePid fd =>
    some (if result = pid.length then .mainLoop fd else .closeFailed fd,
      d.write fd (d.content fd++pid.take result.toNat))
  | .closeFailed fd => some (.unlinkLockfile, d.close i fd)
  | .mainLoop lockfd => some (.closeLockfd lockfd, d)
  | .closeLockfd lockfd => some (.unlinkLockfile, d.close i lockfd)
  | .unlinkLockfile => some (.ended, if result < 0 then d else { d with entry := none })
  | .ended => none
  | .killed => none

def Pc.fd : Pc → Option ℕ
  | .flock fd | .ftruncate fd | .writePid fd | .closeFailed fd => some fd
  | .mainLoop fd | .closeLockfd fd => some fd
  | _ => none

def Pc.alive : Pc → Bool
  | .off | .ended | .killed => false
  | _ => true

def killInstance (i : ι) (pc : Pc) (d : LockDirectory ι) : Option (Pc × LockDirectory ι) :=
  if pc.alive then
    some (.killed, match pc.fd with
      | some fd => d.close i fd
      | none => d)
  else none

def act (pid : ι → ℕ) (i : ι) (e : Event) (pc : Pc) (d : LockDirectory ι) :
    Option (Pc × LockDirectory ι) :=
  match e with
  | .run result => runInstance i (pidString (pid i)) pc d result
  | .kill => killInstance i pc d

abbrev Daemons (ι : Type) := Sharing.System ι Pc (LockDirectory ι)

/-- No instance has started; the lock file may be there or not, with any
contents. -/
def notStarted (present : Bool) (content : Bytes) : Daemons ι where
  procs _ := .off
  shared := { entry := if present then some 0 else none, content := fun _ => content,
              holder := fun _ => none, nextFile := 1 }

end

section Knowledge
variable {ι : Type} {i j : ι} {pid other : Bytes} {q : Pc} {d : LockDirectory ι}

/-- The file whose lock an instance asks for, or holds until its loop ends. -/
def Pc.engaged : Pc → Option ℕ
  | .flock fd | .ftruncate fd | .writePid fd | .mainLoop fd => some fd
  | _ => none

def Pc.locked : Pc → Bool
  | .ftruncate _ | .writePid _ | .mainLoop _ => true
  | _ => false

/-- The path is removed only while no other instance is engaged with the file
that it names. -/
def RemovesAlone (a : ι × Event) (s : Daemons ι) : Prop :=
  match a.2 with
  | .run result => 0 ≤ result → s.procs a.1 = .unlinkLockfile →
      ∀ j, j ≠ a.1 → (s.procs j).engaged = none ∨ (s.procs j).engaged ≠ s.shared.entry
  | .kill => True

instance [DecidableEq ι] [Fintype ι] : (a : ι × Event) → (s : Daemons ι) →
    Decidable (RemovesAlone a s)
  | (i, .run result), s => inferInstanceAs (Decidable (0 ≤ result →
      s.procs i = .unlinkLockfile → ∀ j, j ≠ i →
        (s.procs j).engaged = none ∨ (s.procs j).engaged ≠ s.shared.entry))
  | (_, .kill), _ => isTrue trivial

def Pc.knows (i : ι) (pid : Bytes) (pc : Pc) (d : LockDirectory ι) : Prop :=
  match pc with
  | .flock fd => d.entry = some fd
  | .ftruncate fd => d.entry = some fd ∧ d.holder fd = some i
  | .writePid fd => (d.entry = some fd ∧ d.holder fd = some i) ∧ d.content fd = []
  | .mainLoop fd => (d.entry = some fd ∧ d.holder fd = some i) ∧ d.content fd = pid
  | _ => True

theorem lock_knows (fd : ℕ) (hfree : d.holder fd = none) (hq : q.knows j other d) :
    q.knows j other { d with holder := Function.update d.holder fd (some i) } := by
  have hkeep : ∀ f, d.holder f = some j →
      Function.update d.holder fd (some i) f = some j := by
    intro f hf
    have hne : f ≠ fd := by
      intro heq
      rw [heq, hfree] at hf
      cases hf
    rw [Function.update_of_ne hne, hf]
  unfold Pc.knows at hq ⊢
  cases q with
  | ftruncate f => exact ⟨hq.1, hkeep f hq.2⟩
  | writePid f | mainLoop f => exact ⟨⟨hq.1.1, hkeep f hq.1.2⟩, hq.2⟩
  | flock f => exact hq
  | _ => trivial

theorem write_knows (hij : j ≠ i) (fd : ℕ) (b : Bytes) (hheld : d.holder fd = some i)
    (hq : q.knows j other d) : q.knows j other (d.write fd b) := by
  have hkeep : ∀ f, d.holder f = some j → (d.write fd b).content f = d.content f := by
    intro f hf
    have hne : f ≠ fd := by
      intro heq
      rw [heq, hheld] at hf
      exact hij (Option.some.inj hf).symm
    exact Function.update_of_ne hne _ _
  unfold Pc.knows at hq ⊢
  cases q with
  | writePid f | mainLoop f => exact ⟨hq.1, by rw [hkeep f hq.1.2, hq.2]⟩
  | ftruncate f | flock f => exact hq
  | _ => trivial

theorem knows_engaged (hq : q.knows j other d) {fd : ℕ} (h : q.engaged = some fd) :
    d.entry = some fd := by
  unfold Pc.knows at hq
  unfold Pc.engaged at h
  cases q with
  | flock | ftruncate =>
    cases h
    first | exact hq | exact hq.1
  | writePid | mainLoop =>
    cases h
    exact hq.1.1
  | _ => cases h

theorem knows_of_not_engaged (h : q.engaged = none) (d : LockDirectory ι) : q.knows j other d := by
  unfold Pc.engaged at h
  cases q with
  | flock | ftruncate | writePid | mainLoop => cases h
  | _ => trivial

theorem locked_holder (hk : q.knows i pid d) (h : q.locked = true) :
    ∃ fd, d.entry = some fd ∧ d.holder fd = some i := by
  unfold Pc.knows at hk
  unfold Pc.locked at h
  cases q with
  | ftruncate fd => exact ⟨fd, hk⟩
  | writePid fd | mainLoop fd => exact ⟨fd, hk.1⟩
  | _ => cases h

end Knowledge

section
variable {ι : Type} [DecidableEq ι]

section Local
variable {i j : ι} {pid other : Bytes} {pc pc' q : Pc} {d d' : LockDirectory ι} {result : ℤ}

inductive Changes (i : ι) (pc : Pc) (result : ℤ) (d : LockDirectory ι) : LockDirectory ι → Prop
  | same : Changes i pc result d d
  | create (hnone : d.entry = none) : Changes i pc result d d.openOrCreate.2
  | lock (fd : ℕ) (hfree : d.holder fd = none) :
      Changes i pc result d { d with holder := Function.update d.holder fd (some i) }
  | write (fd : ℕ) (b : Bytes) (hheld : d.holder fd = some i) : Changes i pc result d (d.write fd b)
  | close (fd : ℕ) : Changes i pc result d (d.close i fd)
  | unlink (hpc : pc = .unlinkLockfile) (hresult : 0 ≤ result) :
      Changes i pc result d { d with entry := none }

theorem run_changes (hk : pc.knows i pid d)
    (h : runInstance i pid pc d result = some (pc', d')) : Changes i pc result d d' := by
  unfold runInstance at h
  cases pc with
  | off | processExists | daemonize | mainLoop =>
    cases h
    exact .same
  | fopenLockfile =>
    dsimp only at h
    split at h <;> (cases h; exact .same)
  | fscanf file =>
    dsimp only at h
    split at h <;> (cases h; exact .same)
  | openLockfile =>
    dsimp only at h
    by_cases hresult : result < 0
    · rw [if_pos hresult] at h
      cases h
      exact .same
    · rw [if_neg hresult] at h
      cases h
      cases hentry : d.entry with
      | some file =>
        rw [open_or_create_existing file hentry]
        exact .same
      | none => exact .create hentry
  | flock fd =>
    dsimp only at h
    by_cases hfail : result < 0 ∨ d.holder fd ≠ none
    · rw [if_pos hfail] at h
      cases h
      exact .same
    · rw [if_neg hfail] at h
      cases h
      exact .lock fd (not_not.mp (not_or.mp hfail).2)
  | ftruncate fd =>
    dsimp only at h
    by_cases hresult : result < 0
    · rw [if_pos hresult] at h
      cases h
      exact .same
    · rw [if_neg hresult] at h
      cases h
      exact .write fd [] hk.2
  | writePid fd =>
    cases h
    exact .write fd _ hk.1.2
  | closeFailed fd | closeLockfd fd =>
    cases h
    exact .close fd
  | unlinkLockfile =>
    cases h
    by_cases hresult : result < 0
    · rw [if_pos hresult]
      exact .same
    · rw [if_neg hresult]
      exact .unlink rfl (not_lt.mp hresult)
  | ended | killed => cases h

theorem close_other (hij : j ≠ i) (fd fd' : ℕ) (h : d.holder fd' = some j) :
    (d.close i fd).holder fd' = some j := by
  unfold LockDirectory.close
  by_cases hheld : d.holder fd = some i
  · have hne : fd' ≠ fd := by
      intro heq
      rw [heq, hheld] at h
      exact hij (Option.some.inj h).symm
    rw [if_pos hheld]
    show Function.update d.holder fd none fd' = some j
    rw [Function.update_of_ne hne, h]
  · rw [if_neg hheld, h]

@[simp] theorem close_entry (d : LockDirectory ι) (fd : ℕ) : (d.close i fd).entry = d.entry := by
  unfold LockDirectory.close
  split <;> rfl

@[simp] theorem close_content (d : LockDirectory ι) (fd : ℕ) :
    (d.close i fd).content = d.content := by
  unfold LockDirectory.close
  split <;> rfl

theorem run_knows (hk : pc.knows i pid d)
    (h : runInstance i pid pc d result = some (pc', d')) : pc'.knows i pid d' := by
  unfold runInstance at h
  cases pc with
  | off =>
    cases h
    split <;> trivial
  | processExists =>
    cases h
    split <;> trivial
  | daemonize =>
    cases h
    split <;> trivial
  | fopenLockfile =>
    dsimp only at h
    split at h
    · cases h
      trivial
    · cases h
      split <;> trivial
  | fscanf file =>
    dsimp only at h
    split at h <;> (cases h; trivial)
  | openLockfile =>
    dsimp only at h
    split at h
    · cases h
      trivial
    · cases h
      exact open_or_create_entry d
  | flock fd =>
    dsimp only at h
    split at h
    · cases h
      trivial
    · cases h
      exact ⟨hk, Function.update_self _ _ _⟩
  | ftruncate fd =>
    dsimp only at h
    split at h
    · cases h
      trivial
    · cases h
      exact ⟨hk, Function.update_self _ _ _⟩
  | writePid fd =>
    cases h
    by_cases hcomplete : result = pid.length
    · rw [if_pos hcomplete]
      refine ⟨hk.1, ?_⟩
      show Function.update d.content fd _ fd = pid
      rw [Function.update_self, hk.2, hcomplete, Int.toNat_natCast, List.take_length,
        List.nil_append]
    · rw [if_neg hcomplete]
      trivial
  | closeFailed | mainLoop | closeLockfd | unlinkLockfile =>
    cases h
    trivial
  | ended | killed => cases h

theorem close_knows (hij : j ≠ i) (fd : ℕ) (hq : q.knows j other d) :
    q.knows j other (d.close i fd) := by
  unfold Pc.knows at hq ⊢
  cases q with
  | flock f => simpa using hq
  | ftruncate f => exact ⟨by simpa using hq.1, close_other hij fd f hq.2⟩
  | writePid f | mainLoop f =>
    exact ⟨⟨by simpa using hq.1.1, close_other hij fd f hq.1.2⟩, by simpa using hq.2⟩
  | _ => trivial

/-- What another instance knows survives a change, unless the path is removed
while it is engaged. -/
theorem changes_knows (hij : j ≠ i) (hc : Changes i pc result d d') (hq : q.knows j other d)
    (halone : pc = .unlinkLockfile → 0 ≤ result → q.engaged = none) : q.knows j other d' := by
  cases hc with
  | same => exact hq
  | create hnone =>
    apply knows_of_not_engaged
    by_contra hne
    obtain ⟨fd, hfd⟩ := Option.ne_none_iff_exists'.mp hne
    rw [knows_engaged hq hfd] at hnone
    cases hnone
  | lock fd hfree => exact lock_knows fd hfree hq
  | write fd b hheld => exact write_knows hij fd b hheld hq
  | close fd => exact close_knows hij fd hq
  | unlink hpc hresult => exact knows_of_not_engaged (halone hpc hresult) _

theorem kill_cases (result : ℤ) (h : killInstance i pc d = some (pc', d')) :
    pc' = .killed ∧ Changes i pc result d d' := by
  unfold killInstance at h
  by_cases halive : pc.alive = true
  · rw [if_pos halive] at h
    cases h
    refine ⟨rfl, ?_⟩
    cases pc.fd with
    | none => exact .same
    | some fd => exact .close fd
  · rw [if_neg halive] at h
    cases h

end Local

section Interleaving
variable {pid : ι → ℕ}

theorem step_knows {a : ι × Event} {s t : Daemons ι}
    (hi : ∀ i, (s.procs i).knows i (pidString (pid i)) s.shared) (halone : RemovesAlone a s)
    (h : Sharing.step (act pid) a s = some t) :
    ∀ i, (t.procs i).knows i (pidString (pid i)) t.shared := by
  obtain ⟨k, e⟩ := a
  apply Sharing.knowledge_step (fun i pc d => pc.knows i (pidString (pid i)) d) h
  · intro pc' d' hact
    cases e with
    | run result => exact run_knows (hi k) hact
    | kill =>
      rw [(kill_cases 0 hact).1]
      trivial
  · intro pc' d' i hik hact
    cases e with
    | run result =>
      apply changes_knows hik (run_changes (hi k) hact) (hi i)
      intro hpc hresult
      rcases halone hresult hpc i hik with hnone | hother
      · exact hnone
      · by_contra hne
        obtain ⟨fd, hfd⟩ := Option.ne_none_iff_exists'.mp hne
        exact hother (by rw [hfd, knows_engaged (hi i) hfd])
    | kill =>
      apply changes_knows hik (kill_cases (-1) hact).2 (hi i)
      intro _ hresult
      omega

theorem reachable_knows {present : Bool} {content : Bytes} {s : Daemons ι}
    (h : Runs.ReachableAlong (Sharing.step (act pid)) RemovesAlone
      (notStarted present content) s) :
    ∀ i, (s.procs i).knows i (pidString (pid i)) s.shared := by
  apply Runs.reachable_along_invariant (Sharing.step (act pid)) _ _ _ h
  · intro i
    trivial
  · intro a s t hi halone hstep
    exact step_knows hi halone hstep

/-- As long as the path is only removed while no other instance is engaged
with the file it names, at most one instance is in its loop. The path names
the file that this instance has locked and that holds its identifier, and no
other instance gets its lock. -/
theorem one_monitoring_instance {ι : Type} [DecidableEq ι] (pid : ι → ℕ) (present : Bool)
    (content : Bytes) (s : Daemons ι)
    (h : Runs.ReachableAlong (Sharing.step (act pid)) RemovesAlone
      (notStarted present content) s) :
    (∀ i j f g, s.procs i = .mainLoop f → s.procs j = .mainLoop g → i = j) ∧
      (∀ i f, s.procs i = .mainLoop f →
        s.shared.entry = some f ∧ s.shared.content f = pidString (pid i)) ∧
      ∀ i j f, s.procs i = .mainLoop f → j ≠ i → (s.procs j).locked = false := by
  have hi := reachable_knows h
  have hlone : ∀ i j, (s.procs i).locked = true → (s.procs j).locked = true → i = j := by
    intro i j hli hlj
    obtain ⟨f, hentry, hholder⟩ := locked_holder (hi i) hli
    obtain ⟨g, hentry', hholder'⟩ := locked_holder (hi j) hlj
    rw [hentry] at hentry'
    cases hentry'
    rw [hholder] at hholder'
    exact Option.some.inj hholder'
  refine ⟨fun i j f g hpi hpj => ?_, fun i f hpi => ?_, fun i j f hpi hji => ?_⟩
  · exact hlone i j (by rw [hpi]; rfl) (by rw [hpj]; rfl)
  · have hk := hi i
    rw [hpi] at hk
    exact ⟨hk.1.1, hk.2⟩
  · by_contra hne
    exact hji (hlone j i (by simpa using hne) (by rw [hpi]; rfl))

def oneAfterAnother : List (Fin 3 × Event) :=
  [(2, .run 0), (2, .run 0), (2, .run 0), (2, .run 3), (2, .run 0), (2, .run 0), (2, .run 4),
    (2, .run 0), (2, .run 0), (2, .run 0), (0, .run 0), (0, .run 0), (0, .run 0), (0, .run 3),
    (0, .run 0), (0, .run 0), (0, .run 4), (1, .run 0), (1, .run 0), (1, .run 0), (1, .run 0)]

def daemonPid {n : ℕ} (i : Fin n) : ℕ := 200+i

theorem one_after_another_run : (Runs.exec (Sharing.step (act daemonPid)) oneAfterAnother
    (notStarted false [])).isSome = true := by
  decide

def thirdRefused : Daemons (Fin 3) :=
  (Runs.exec (Sharing.step (act daemonPid)) oneAfterAnother (notStarted false [])).get
    one_after_another_run

theorem third_refused : thirdRefused.shared.content 2 = pidString 200 ∧
    ∀ j, j ≠ 0 → (thirdRefused.procs j).locked = false := by
  have hreach : Runs.ReachableAlong (Sharing.step (act daemonPid)) RemovesAlone
      (notStarted false []) thirdRefused :=
    Runs.reachable_along_get one_after_another_run (by decide)
  have hloop : thirdRefused.procs 0 = .mainLoop 2 := by decide
  obtain ⟨-, hfile, halone⟩ := one_monitoring_instance daemonPid false [] thirdRefused hreach
  exact ⟨(hfile 0 2 hloop).2, fun j hj => halone 0 j 2 hloop hj⟩

/-- Instance 1 looks for a running one before instance 0 has created the file,
is refused the lock and removes the path; instance 2 then starts as if alone. -/
def refusedStart : List (Fin 3 × Event) :=
  [(0, .run 0), (0, .run 0), (1, .run 0), (1, .run 0), (0, .run 0), (0, .run 3), (0, .run 0),
    (0, .run 0), (0, .run 4), (1, .run 0), (1, .run 3), (1, .run (-1)), (1, .run 0), (1, .run 0),
    (2, .run 0), (2, .run 0), (2, .run 0), (2, .run 3), (2, .run 0), (2, .run 0), (2, .run 4)]

theorem refused_start_run : (Runs.exec (Sharing.step (act daemonPid)) refusedStart
    (notStarted false [])).isSome = true := by
  decide

theorem refused_start_unlocks : ¬ ∀ s : Daemons (Fin 3),
    Runs.Reachable (Sharing.step (act daemonPid)) (notStarted false []) s →
      ∀ i j f g, s.procs i = .mainLoop f → s.procs j = .mainLoop g → i = j := by
  intro hclaim
  have heq := hclaim _ (Runs.reachable_get refused_start_run) 0 2 1 2 (by decide) (by decide)
  exact absurd heq (by decide)

end Interleaving
end
end ProgSistema.DirectoryDaemon
