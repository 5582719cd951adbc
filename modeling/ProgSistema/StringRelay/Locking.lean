import ProgSistema.StringRelay.Model

/-!
# The record lock

A process that has been granted the lock is alone until it gives the lock back
or ends. A process that has not been granted it does not wait for it, and goes
on as if it had.
-/

set_option autoImplicit false

namespace ProgSistema.StringRelay

/-- Where a process asks for the lock, it has opened the file, nobody else holds
the lock and the call does not fail. -/
def LockGranted {ι : Type*} (a : ι × Event) (s : Relay ι) : Prop :=
  (s.procs a.1).pc = .lockMem → a.2 ≠ .fail ∧
    (a.2 = .run → (s.procs a.1).opened = true ∧ (s.shared = none ∨ s.shared = some a.1))

instance decidableLockGranted {ι : Type*} [DecidableEq ι] (a : ι × Event) (s : Relay ι) :
    Decidable (LockGranted a s) :=
  inferInstanceAs (Decidable (_ → _))

def Holds {ι : Type*} (i : ι) (p : Process) (lock : Lock ι) : Prop :=
  p.pc.inside = true → lock = some i

theorem holders_apart {ι : Type*} {s : Relay ι} (hs : ∀ i, Holds i (s.procs i) s.shared) :
    Apart s := by
  intro i j hi hj
  exact Option.some.inj ((hs i hi).symm.trans (hs j hj))

theorem started_holds {ι : Type*} (i : ι) : Holds i ((started : Relay ι).procs i) started.shared :=
  (nomatch ·)

theorem set_lock_free {ι : Type*} {i : ι} {lock : Lock ι}
    (h : lock = none ∨ lock = some i) : setLock i lock = some i := by
  rcases h with rfl | rfl
  · rfl
  · rfl

section
variable {ι : Type*} [DecidableEq ι] {program : ι → Program} {i j : ι} {e : Event}
  {p p' q : Process} {lock lock' : Lock ι}

inductive Effect (i : ι) (p p' : Process) (lock : Lock ι) : Lock ι → Prop
  | keeps (hinside : p'.pc.inside = true → p.pc.inside = true) : Effect i p p' lock lock
  | takes (hfree : lock = none ∨ lock = some i) : Effect i p p' lock (some i)
  | releases (hout : p'.pc.inside = false) : Effect i p p' lock (release i lock)

/-- The lock of one process is not released by another one. -/
theorem release_others (hj : j ≠ i) (h : lock = some j) : release i lock = some j := by
  rw [release, h, if_neg fun heq => hj (Option.some.inj heq)]

theorem run_effect (hlock : p.pc = .lockMem → p.opened = true ∧ (lock = none ∨ lock = some i))
    (h : act program i .run p lock = some (p', lock')) : Effect i p p' lock lock' := by
  obtain ⟨pc, opened, attached⟩ := p
  cases pc with
  | lockMem =>
    obtain ⟨hopened, hfree⟩ := hlock rfl
    obtain rfl : opened = true := hopened
    simp only [act, set_lock_free hfree] at h
    cases h
    exact .takes hfree
  | openLockFile | socket | close =>
    cases h
    exact .keeps (nomatch ·)
  | attachMem | connect | recv | send | detachMem =>
    cases h
    exact .keeps fun _ => rfl
  | store | load =>
    cases attached <;> cases h
    · exact .releases rfl
    · exact .keeps fun _ => rfl
  | unlockMem =>
    cases opened <;> cases h
    · exact .keeps (nomatch ·)
    · exact .releases rfl
  | ended => cases h

theorem fail_effect (hlock : p.pc ≠ .lockMem)
    (h : act program i .fail p lock = some (p', lock')) : Effect i p p' lock lock' := by
  obtain ⟨pc, opened, attached⟩ := p
  cases pc with
  | lockMem => exact absurd rfl hlock
  | openLockFile | unlockMem | close =>
    cases h
    exact .keeps (nomatch ·)
  | attachMem | detachMem =>
    cases h
    exact .keeps fun _ => rfl
  | socket | connect | recv | send =>
    cases h
    exact .releases rfl
  | store | load | ended => cases h

theorem act_effect (hfail : p.pc = .lockMem → e ≠ .fail)
    (hrun : p.pc = .lockMem → e = .run → p.opened = true ∧ (lock = none ∨ lock = some i))
    (h : act program i e p lock = some (p', lock')) : Effect i p p' lock lock' := by
  cases e with
  | run => exact run_effect (fun hpc => hrun hpc rfl) h
  | fail => exact fail_effect (fun hpc => hfail hpc rfl) h
  | closed =>
    simp only [act] at h
    split at h
    · rename_i hpc
      cases h
      exact .keeps fun _ => by rw [hpc]; rfl
    · cases h
  | kill =>
    simp only [act] at h
    split at h <;> cases h
    exact .releases rfl

theorem effect_self (hp : Holds i p lock) (he : Effect i p p' lock lock') : Holds i p' lock' := by
  cases he with
  | keeps hinside => exact fun h => hp (hinside h)
  | takes => exact fun _ => rfl
  | releases hout =>
    intro h
    rw [hout] at h
    cases h

theorem effect_others (hq : Holds j q lock) (hj : j ≠ i) (he : Effect i p p' lock lock') :
    Holds j q lock' := by
  intro h
  have hheld := hq h
  cases he with
  | keeps => exact hheld
  | takes hfree =>
    rw [hheld] at hfree
    rcases hfree with hnone | hown
    · cases hnone
    · exact absurd (Option.some.inj hown) hj
  | releases => exact release_others hj hheld

theorem step_holds (a : ι × Event) (s t : Relay ι) (hs : ∀ i, Holds i (s.procs i) s.shared)
    (hok : LockGranted a s) (h : Sharing.step (act program) a s = some t) :
    ∀ i, Holds i (t.procs i) t.shared := by
  have heffect : ∀ p' lock', act program a.1 a.2 (s.procs a.1) s.shared = some (p', lock') →
      Effect a.1 (s.procs a.1) p' s.shared lock' := fun p' lock' hact =>
    act_effect (fun hpc => (hok hpc).1) (fun hpc => (hok hpc).2) hact
  apply Sharing.knowledge_step Holds h
  · intro p' lock' hact
    exact effect_self (hs a.1) (heffect p' lock' hact)
  · intro p' lock' j hj hact
    exact effect_others (hs j) hj (heffect p' lock' hact)

/-- The processes are apart in every run where each request for the lock is
granted. -/
theorem relay_apart {s : Relay ι}
    (h : Runs.ReachableAlong (Sharing.step (act program)) LockGranted started s) : Apart s :=
  holders_apart (Runs.reachable_along_invariant _ (fun s => ∀ i, Holds i (s.procs i) s.shared)
    started_holds step_holds h)

end

def p2Inside : List (Program × Event) := List.replicate 4 (.p2, .run)

def p2Leaves : List (Program × Event) := List.replicate 5 (.p2, .run)

def p3Inside : List (Program × Event) := List.replicate 3 (.p3, .run)

theorem one_after_other_apart : Apart
    ((Runs.exec (Sharing.step (act id)) (p2Inside++p2Leaves++p3Inside) started).get
      (by decide +kernel)) :=
  relay_apart (Runs.reachable_along_get _ (by decide +kernel))

/-- The lock is not granted to `P3`, which goes on. -/
theorem refused_lock_inside :
    ¬ ∀ s : Relay Program, Runs.Reachable (Sharing.step (act id)) started s → Apart s := by
  intro hall
  have hapart := hall ((Runs.exec (Sharing.step (act id)) (p2Inside++p3Inside) started).get
    (by decide +kernel)) (Runs.reachable_get _)
  exact absurd (hapart .p2 .p3 (by decide +kernel) (by decide +kernel)) (by decide)

end ProgSistema.StringRelay
