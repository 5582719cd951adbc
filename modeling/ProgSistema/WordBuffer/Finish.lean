import ProgSistema.WordBuffer.Content

/-!
# Who can finish

The worker that first finds the buffer full leaves without passing the turn
on, unlike a worker that has no word to write. The turn then stays with it:
the other workers neither write nor leave, and the parent waits for ever.
-/

set_option autoImplicit false

namespace ProgSistema.WordBuffer
open Runs

def Pc.leaving : Pc → Bool
  | .postMutex leave | .postTurn leave => leave
  | .left | .exited => true
  | _ => false

def Pc.outOfLoop : Pc → Bool
  | .left | .exited => true
  | _ => false

def NoSignal (a : ProcessId × Event) (_ : Processes) : Prop := a.2 ≠ .sigint

instance (a : ProcessId × Event) (s : Processes) : Decidable (NoSignal a s) :=
  inferInstanceAs (Decidable (a.2 ≠ .sigint))

/-- Some continuation ends with all workers out of their loops and the final
content printed. -/
def CanFinish (words : List Bytes) (s : Processes) : Prop :=
  ∃ t, ReachableAlong (Sharing.step (act words)) NoSignal s t ∧
    (∀ id < numProcesses, (t.procs (.worker id)).pc.outOfLoop = true) ∧
    (t.procs .parent).pc = .printed

def AlwaysFinishes (words : List Bytes) : Prop :=
  ∀ s, ReachableAlong (Sharing.step (act words)) NoSignal (started words) s → CanFinish words s

structure LeaverInv (words : List Bytes) (s : Processes) : Prop where
  census : Census words s
  inv : Inv words s
  quiet : ∀ p, (s.procs p).handler = none
  turn : ∀ id, (s.procs (.worker id)).pc.leaving = true → s.shared.data.turn = id

section Act
variable {words : List Bytes} {id rand : ℕ} {pc pc' : Pc} {k : Shared}

structure TurnKept (pc pc' : Pc) (k k' : Shared) : Prop where
  kept : k'.data.turn = k.data.turn ∧ k'.written = k.written ∨
    pc.hasTurn = true ∧ pc.leaving = false ∧ pc'.leaving = false
  begins : pc'.leaving = true → pc.leaving = true ∨ pc.hasTurn = true
  stays : pc.leaving = true → pc'.leaving = true

theorem critical_turn {d : SharedData} (hwords : words ≠ [])
    (h : criticalSection words id rand k.data pc = some (pc', d)) :
    TurnKept pc pc' k { k with data := d, written := pc.record id k.written } := by
  cases pc with
  | testTurn =>
    cases h
    refine ⟨Or.inl ⟨rfl, rfl⟩, ?_, Bool.false_ne_true.elim⟩
    intro hleaving
    split at hleaving <;> cases hleaving
  | chooseWord =>
    simp only [criticalSection] at h
    split at h
    · rename_i hnone
      exact absurd hnone (random_word_some hwords rand)
    · cases h
      exact ⟨Or.inl ⟨rfl, rfl⟩, Bool.false_ne_true.elim, Bool.false_ne_true.elim⟩
  | checkSpace word =>
    simp only [criticalSection] at h
    split at h <;> cases h <;> exact ⟨Or.inl ⟨rfl, rfl⟩, fun _ => Or.inr rfl, Bool.false_ne_true.elim⟩
  | putSpace | copyWord =>
    simp only [criticalSection, SharedData.store] at h
    split at h
    · cases h
      exact ⟨Or.inl ⟨rfl, rfl⟩, Bool.false_ne_true.elim, Bool.false_ne_true.elim⟩
    · rename_i hstore
      split at hstore
      · cases hstore
        cases h
        exact ⟨Or.inl ⟨rfl, rfl⟩, Bool.false_ne_true.elim, Bool.false_ne_true.elim⟩
      · cases hstore
  | bumpPos | addLength =>
    cases h
    exact ⟨Or.inl ⟨rfl, rfl⟩, Bool.false_ne_true.elim, Bool.false_ne_true.elim⟩
  | countWord | passTurn =>
    cases h
    exact ⟨Or.inr ⟨rfl, rfl, rfl⟩, Bool.false_ne_true.elim, Bool.false_ne_true.elim⟩
  | _ => cases h

theorem worker_turn {next : Pc × Shared} (hwords : words ≠ [])
    (h : processWorker words id rand k pc = some next) : TurnKept pc next.1 k next.2 := by
  cases pc with
  | unborn | waitTurn | waitMutex =>
    simp only [processWorker] at h
    split at h <;> cases h
    exact ⟨Or.inl ⟨rfl, rfl⟩, Bool.false_ne_true.elim, Bool.false_ne_true.elim⟩
  | postMutex leave =>
    cases h
    exact ⟨Or.inl ⟨rfl, rfl⟩, Or.inl, fun h => h⟩
  | postTurn leave =>
    cases h
    refine ⟨Or.inl ⟨rfl, rfl⟩, ?_, ?_⟩ <;> cases leave
    · exact Bool.false_ne_true.elim
    · exact fun _ => Or.inl rfl
    · exact Bool.false_ne_true.elim
    · exact fun _ => rfl
  | left =>
    cases h
    exact ⟨Or.inl ⟨rfl, rfl⟩, fun _ => Or.inl rfl, fun _ => rfl⟩
  | _ =>
    simp only [processWorker, Option.map_eq_some_iff] at h
    obtain ⟨⟨pc', d⟩, hcrit, rfl⟩ := h
    exact critical_turn hwords hcrit

theorem main_turn {next : Pc × Shared} (h : mainStep k pc = some next) :
    next.2.data.turn = k.data.turn ∧ next.2.written = k.written := by
  cases pc with
  | fork | finalTest =>
    cases h
    exact ⟨rfl, rfl⟩
  | wait =>
    simp only [mainStep] at h
    split at h <;> cases h
    exact ⟨rfl, rfl⟩
  | terminate =>
    simp only [mainStep, SharedData.store] at h
    split at h
    · cases h
      exact ⟨rfl, rfl⟩
    · rename_i hstore
      split at hstore
      · cases hstore
        cases h
        exact ⟨rfl, rfl⟩
      · cases hstore
  | _ => cases h

end Act

section Step
variable {words : List Bytes} {s t : Processes}

/-- A step other than an interrupt is one of a worker, or of the parent, which
leaves the turn and the record alone. -/
theorem quiet_cases {p : ProcessId} {e : Event} {q : Process} {k : Shared}
    (hplaced : (s.procs p).Placed words p s.shared) (hquiet : (s.procs p).handler = none)
    (he : e ≠ .sigint) (h : act words p e (s.procs p) s.shared = some (q, k)) :
    q.handler = none ∧ ((∃ id rand, p = .worker id ∧
      processWorker words id rand s.shared (s.procs p).pc = some (q.pc, k)) ∨
      p = .parent ∧ k.data.turn = s.shared.data.turn ∧ k.written = s.shared.written) := by
  cases hq : s.procs p with
  | mk pc handler =>
    rw [hq] at h hquiet hplaced
    cases hquiet
    cases e with
    | run rand =>
      obtain ⟨next, hnext, heq⟩ := Option.map_eq_some_iff.mp h
      cases heq
      refine ⟨rfl, ?_⟩
      cases p with
      | parent => exact Or.inr ⟨rfl, main_turn hnext⟩
      | worker id => exact Or.inl ⟨id, rand, rfl, hnext⟩
    | forkFails =>
      cases pc with
      | fork i =>
        cases h
        have hparent : p = .parent := (hplaced.program.resolve_left (by simp)).mp rfl
        exact ⟨rfl, Or.inr ⟨hparent, rfl, rfl⟩⟩
      | _ => cases h
    | sigint => exact absurd rfl he

def LeaverStays (s t : Processes) : Prop :=
  ∀ id, (s.procs (.worker id)).pc.leaving = true →
    (t.procs (.worker id)).pc.leaving = true ∧ t.shared.written = s.shared.written

theorem leaver_step {a : ProcessId × Event} (hl : LeaverInv words s) (ha : NoSignal a s)
    (h : Sharing.step (act words) a s = some t) : LeaverInv words t ∧ LeaverStays s t := by
  have hcensus := census_step hl.census h
  obtain ⟨p, e⟩ := a
  obtain ⟨q, k, hact, rfl⟩ := Sharing.step_next _ h
  have hinv := act_inv hl.inv hl.census hact
  obtain ⟨hnone, hcases⟩ := quiet_cases (hl.census.placed p) (hl.quiet p) ha hact
  have hquiet : ∀ i, (Function.update s.procs p q i).handler = none :=
    (Function.forall_update_iff s.procs fun _ r => r.handler = none).mpr
      ⟨hnone, fun i _ => hl.quiet i⟩
  rcases hcases with ⟨id, rand, rfl, hworker⟩ | ⟨rfl, hturn, hwritten⟩
  · have hgone : ¬ (s.procs (.worker id)).gone := (act_recorded (hl.census.placed _) hact).here
    have hmine : (s.procs (.worker id)).pc.hasTurn = true → s.shared.data.turn = id :=
      (hl.inv.informed (.worker id) id rfl hgone).turn
    have hid := worker_forked ((hl.census.placed (.worker id)).born id rfl) hworker
    obtain ⟨hkept, hbegins, hstays⟩ := worker_turn (hl.census.loaded (by omega)) hworker
    -- a worker that writes or passes the turn on has it, so that nobody is leaving
    have hsame : ∀ id', (s.procs (.worker id')).pc.leaving = true →
        k.data.turn = s.shared.data.turn ∧ k.written = s.shared.written := by
      intro id' hleaving
      rcases hkept with hkept | ⟨hturn, hstay, -⟩
      · exact hkept
      · rw [(hl.turn id' hleaving).symm.trans (hmine hturn), hstay] at hleaving
        cases hleaving
    refine ⟨⟨hcensus, hinv, hquiet, ?_⟩, ?_⟩
    · intro id' hleaving
      by_cases heq : id' = id
      · rw [heq] at hleaving ⊢
        have hnew : q.pc.leaving = true := by
          rwa [show q = _ from (Function.update_self _ q s.procs).symm]
        rcases hkept with ⟨hturn, -⟩ | ⟨-, -, hstay⟩
        · exact hturn.trans ((hbegins hnew).elim (hl.turn id) hmine)
        · rw [hstay] at hnew
          cases hnew
      · have hne : ProcessId.worker id' ≠ .worker id := by simpa using heq
        have hold : (s.procs (.worker id')).pc.leaving = true := by
          rwa [← Function.update_of_ne hne q s.procs]
        exact (hsame id' hold).1.trans (hl.turn id' hold)
    · intro id' hleaving
      refine ⟨?_, (hsame id' hleaving).2⟩
      by_cases heq : id' = id
      · show (Function.update s.procs (.worker id) q (.worker id')).pc.leaving = true
        rw [heq, Function.update_self]
        exact hstays (heq ▸ hleaving)
      · show (Function.update s.procs (.worker id) q (.worker id')).pc.leaving = true
        have hne : ProcessId.worker id' ≠ .worker id := by simpa using heq
        rw [Function.update_of_ne hne]
        exact hleaving
  · have hother : ∀ id, Function.update s.procs .parent q (.worker id) = s.procs (.worker id) :=
      fun id => Function.update_of_ne (by simp) _ _
    constructor
    · refine ⟨hcensus, hinv, hquiet, ?_⟩
      intro id hleaving
      apply hturn.trans (hl.turn id _)
      rw [← hother id]
      exact hleaving
    · intro id hleaving
      show (Function.update s.procs .parent q (.worker id)).pc.leaving = true ∧ _
      rw [hother id]
      exact ⟨hleaving, hwritten⟩

theorem reachable_leaver_inv
    (h : ReachableAlong (Sharing.step (act words)) NoSignal (started words) s) :
    LeaverInv words s := by
  apply reachable_along_invariant _ (LeaverInv words) _ _ h
  · refine ⟨started_census words, started_inv words, ?_, ?_⟩
    · intro p
      cases p <;> rfl
    · intro id hleaving
      cases hleaving
  · intro a s t hl ha hstep
    exact (leaver_step hl ha hstep).1

/-- Whatever happens after a worker has begun to leave, nobody writes. -/
theorem leaver_continues {id : ℕ} (hl : LeaverInv words s)
    (hleaving : (s.procs (.worker id)).pc.leaving = true)
    (h : ReachableAlong (Sharing.step (act words)) NoSignal s t) :
    LeaverInv words t ∧ (t.procs (.worker id)).pc.leaving = true ∧
      t.shared.written = s.shared.written := by
  apply reachable_along_invariant _ (fun t => LeaverInv words t ∧
    (t.procs (.worker id)).pc.leaving = true ∧ t.shared.written = s.shared.written) _ _ h
  · exact ⟨hl, hleaving, rfl⟩
  · intro a t u ⟨hinv, hleaves, hwritten⟩ ha hstep
    obtain ⟨hnext, hstays⟩ := leaver_step hinv ha hstep
    exact ⟨hnext, (hstays id hleaves).1, (hstays id hleaves).2.trans hwritten⟩

theorem leaver_unique {id id' : ℕ} (hl : LeaverInv words s)
    (hleaving : (s.procs (.worker id)).pc.leaving = true)
    (hleaving' : (s.procs (.worker id')).pc.leaving = true) : id = id' :=
  (hl.turn id hleaving).symm.trans (hl.turn id' hleaving')

/-- Two workers never leave, so that the last `wait` does not return. -/
theorem never_printed (hl : LeaverInv words s) : (s.procs .parent).pc ≠ .printed := by
  intro hpc
  have hall := (hl.census.placed .parent).waited (by rw [hpc]; rfl)
  have honce := hl.census.once
  have hexited : ∀ id ∈ s.shared.exited, (s.procs (.worker id)).pc.leaving = true := by
    intro id hid
    rcases hl.census.exited id hid with hexit | hexit
    · rw [hexit]
      rfl
    · rw [hl.quiet] at hexit
      cases hexit
  obtain ⟨id, rest, hids⟩ : ∃ id rest, s.shared.exited = id::rest := by
    apply List.exists_cons_of_length_pos
    exact lt_of_lt_of_le (by decide) hall
  obtain ⟨id', rest', hids'⟩ : ∃ id' rest', rest = id'::rest' := by
    apply List.exists_cons_of_length_pos
    rw [hids, List.length_cons] at hall
    unfold numProcesses at hall
    omega
  rw [hids, hids'] at honce hexited
  have hsame := leaver_unique hl (hexited id (by simp)) (hexited id' (by simp))
  rw [hsame] at honce
  exact absurd List.mem_cons_self (List.nodup_cons.mp honce).1

theorem cannot_finish (hl : LeaverInv words s) : ¬ CanFinish words s := by
  rintro ⟨t, hreach, -, hprinted⟩
  have hlast : LeaverInv words t := by
    apply reachable_along_invariant _ (LeaverInv words) hl _ hreach
    intro a s t hl ha hstep
    exact (leaver_step hl ha hstep).1
  exact never_printed hlast hprinted

end Step

/-- Whatever the words, no state without interrupts has a continuation in which
all workers leave and the parent prints; once a worker has found the buffer
full, no other one writes or leaves. -/
theorem never_finishes (file : Option Bytes) :
    ¬ AlwaysFinishes (loadWordsFromFile file) ∧
    ∀ s, ReachableAlong (Sharing.step (act (loadWordsFromFile file))) NoSignal
        (started (loadWordsFromFile file)) s →
      ¬ CanFinish (loadWordsFromFile file) s ∧
      ∀ id, (s.procs (.worker id)).pc.leaving = true → ∀ t,
        ReachableAlong (Sharing.step (act (loadWordsFromFile file))) NoSignal s t →
          t.shared.written = s.shared.written ∧
          ∀ id', (t.procs (.worker id')).pc.leaving = true → id' = id := by
  have hinit : ReachableAlong (Sharing.step (act (loadWordsFromFile file))) NoSignal
      (started (loadWordsFromFile file)) (started (loadWordsFromFile file)) := ⟨[], rfl, trivial⟩
  refine ⟨fun hclaim => cannot_finish (reachable_leaver_inv hinit) (hclaim _ hinit), ?_⟩
  intro s hreach
  have hl := reachable_leaver_inv hreach
  refine ⟨cannot_finish hl, ?_⟩
  intro id hleaving t hcontinue
  obtain ⟨hlast, hleaves, hwritten⟩ := leaver_continues hl hleaving hcontinue
  exact ⟨hwritten, fun id' hleaving' => leaver_unique hlast hleaving' hleaves⟩

def longWord : List Bytes := loadWordsFromFile (some (List.replicate 99 97))

def fullBuffer : List (ProcessId × Event) :=
  List.replicate 3 (.parent, .run 0)++workerSteps 0 0 12++workerSteps 1 0 14++
    workerSteps 2 0 14++
    ((List.range 37).flatMap fun n => workerSteps (n % 3) 0 13)++workerSteps 1 0 6

theorem full_buffer_run :
    (exec (Sharing.step (act longWord)) fullBuffer (started longWord)).isSome = true := by
  decide +kernel

def fullBufferEnd : Processes :=
  (exec (Sharing.step (act longWord)) fullBuffer (started longWord)).get full_buffer_run

theorem full_buffer_reachable :
    ReachableAlong (Sharing.step (act longWord)) NoSignal (started longWord) fullBufferEnd :=
  reachable_along_get full_buffer_run (by decide +kernel)

def othersTry : List (ProcessId × Event) :=
  workerSteps 1 0 1++workerSteps 0 0 5++workerSteps 2 0 5

theorem others_try_run :
    (exec (Sharing.step (act longWord)) othersTry fullBufferEnd).isSome = true := by
  decide +kernel

def othersTried : Processes :=
  (exec (Sharing.step (act longWord)) othersTry fullBufferEnd).get others_try_run

theorem full_buffer_stuck : ¬ CanFinish longWord fullBufferEnd ∧
    othersTried.shared.written = fullBufferEnd.shared.written := by
  obtain ⟨hfinish, hleaver⟩ :=
    (never_finishes (some (List.replicate 99 97))).2 fullBufferEnd full_buffer_reachable
  exact ⟨hfinish, (hleaver 1 (by decide +kernel) othersTried
    (reachable_along_get others_try_run (by decide +kernel))).1⟩

theorem full_buffer_not_finished : ¬ AlwaysFinishes longWord := by
  intro hclaim
  exact cannot_finish (reachable_leaver_inv full_buffer_reachable)
    (hclaim fullBufferEnd full_buffer_reachable)

end ProgSistema.WordBuffer
