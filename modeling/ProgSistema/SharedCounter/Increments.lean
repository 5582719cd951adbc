import ProgSistema.Lib.Custody
import ProgSistema.SharedCounter.Model

/-!
# No increment is lost

The child inside its critical section knows how far the two totals have got.
Whoever enters finds both of them at the number of rounds counted so far.
-/

set_option autoImplicit false

namespace ProgSistema.SharedCounter
open CRuntime Runs

def Pc.inside : Pc → Bool
  | .readCounter | .writeCounter _ | .readOperationDone | .writeOperationDone _ | .copyName
  | .semPost | .failed true => true
  | .loopTest | .semWait | .ended | .failed false => false

def Pc.past : Pc → Bool
  | .copyName | .semPost | .failed true => true
  | _ => false

def Pc.round : Pc → Bool
  | .loopTest | .ended => false
  | _ => true

section
variable {ι : Type*} [Fintype ι]

def SharedData.total (data : SharedData ι) : ℤ := (∑ i, data.counted i : ℕ)

def Exact (data : SharedData ι) : Prop :=
  data.counter = toInt data.total ∧ data.operationDone = toInt data.total

def AtRest (data : SharedData ι) : Prop := data.mutex = 1 ∧ Exact data

def Stage (c : Child) (data : SharedData ι) : Prop :=
  data.mutex = 0 ∧
  match c.pc with
  | .writeCounter oldCounter => Exact data ∧ oldCounter = data.counter
  | .readOperationDone => data.counter = toInt (data.total+1) ∧ data.operationDone = toInt data.total
  | .writeOperationDone old =>
    data.counter = toInt (data.total+1) ∧ data.operationDone = toInt data.total ∧
      old = data.operationDone
  | _ => Exact data

def Kept (s : Memory ι) : Prop :=
  Custody.Kept (fun c : Child => c.pc.inside) (fun data : SharedData ι => data.mutex ≠ 0) AtRest
    Stage s

structure Rounds (children : Children ι) (i : ι) (c : Child) (data : SharedData ι) : Prop where
  counted : data.counted i = c.i+if c.pc.past then 1 else 0
  within : c.i ≤ children.iteration i
  round : c.pc.round = true → c.i < children.iteration i
  ended : c.pc = .ended → c.i = children.iteration i

structure Inv (children : Children ι) (s : Memory ι) : Prop where
  kept : Kept s
  rounds : ∀ i, Rounds children i (s.procs i) s.shared

theorem to_int_succ (x : ℤ) : toInt (toInt x+1) = toInt (x+1) := Int.bmod_add_bmod

variable [DecidableEq ι] {children : Children ι}

theorem counted_total (data : SharedData ι) (i : ι) :
    ({ data with counted := Function.update data.counted i (data.counted i+1) } :
      SharedData ι).total = data.total+1 := by
  unfold SharedData.total
  rw [Finset.sum_update_of_mem (Finset.mem_univ i), Finset.sdiff_singleton_eq_erase,
    add_right_comm, Finset.add_sum_erase _ _ (Finset.mem_univ i)]
  push_cast
  rfl

/-- A step of a child, as far as the semaphore and the totals are concerned. -/
theorem work_moves {i : ι} {c c' : Child} {data data' : SharedData ι}
    (hstage : c.pc.inside = true → Stage c data)
    (h : criticalSectionWork children i c data = some (c', data')) :
    Custody.Moves (fun c : Child => c.pc.inside) (fun data : SharedData ι => data.mutex ≠ 0)
      AtRest Stage c c' data data' := by
  unfold criticalSectionWork at h
  cases hpc : c.pc with
  | loopTest =>
    rw [hpc] at h
    cases h
    refine .outside (by rw [hpc]; rfl) ?_ (fun _ _ => id) id id
    dsimp only
    split <;> rfl
  | semWait =>
    rw [hpc] at h
    dsimp only at h
    rw [Option.ite_none_left_eq_some] at h
    obtain ⟨hfree, h⟩ := h
    cases h
    refine .enters hfree rfl fun hrest => ?_
    have hzero : data.mutex-1 = 0 := by rw [hrest.1]
    exact ⟨⟨hzero, hrest.2⟩, not_not.mpr hzero⟩
  | readCounter =>
    have hs := hstage (by rw [hpc]; rfl)
    unfold Stage at hs
    rw [hpc] at h hs
    cases h
    exact .works (by rw [hpc]; rfl) rfl ⟨hs.1, hs.2, rfl⟩ (not_not.mpr hs.1)
  | writeCounter oldCounter =>
    have hs := hstage (by rw [hpc]; rfl)
    unfold Stage at hs
    rw [hpc] at h hs
    cases h
    obtain ⟨hzero, ⟨hcounter, hoperation⟩, hold⟩ := hs
    refine .works (by rw [hpc]; rfl) rfl ⟨hzero, ?_, hoperation⟩ (not_not.mpr hzero)
    show toInt (oldCounter+1) = toInt (data.total+1)
    rw [hold, hcounter, to_int_succ]
  | readOperationDone =>
    have hs := hstage (by rw [hpc]; rfl)
    unfold Stage at hs
    rw [hpc] at h hs
    cases h
    exact .works (by rw [hpc]; rfl) rfl ⟨hs.1, hs.2.1, hs.2.2, rfl⟩ (not_not.mpr hs.1)
  | writeOperationDone old =>
    have hs := hstage (by rw [hpc]; rfl)
    unfold Stage at hs
    rw [hpc] at h hs
    cases h
    obtain ⟨hzero, hcounter, hoperation, hold⟩ := hs
    have htotal := counted_total data i
    refine .works (by rw [hpc]; rfl) rfl ⟨hzero, ?_, ?_⟩ (not_not.mpr hzero)
    · exact hcounter.trans (congrArg toInt htotal.symm)
    · refine Eq.trans ?_ (congrArg toInt htotal.symm)
      show toInt (old+1) = toInt (data.total+1)
      rw [hold, hoperation, to_int_succ]
  | copyName =>
    have hs := hstage (by rw [hpc]; rfl)
    unfold Stage at hs
    rw [hpc] at h hs
    cases h
    exact .works (by rw [hpc]; rfl) rfl ⟨hs.1, hs.2⟩ (not_not.mpr hs.1)
  | semPost =>
    have hs := hstage (by rw [hpc]; rfl)
    unfold Stage at hs
    rw [hpc] at h hs
    cases h
    refine .leaves (by rw [hpc]; rfl) rfl ⟨?_, hs.2⟩
    show data.mutex+1 = 1
    rw [hs.1]
  | ended | failed =>
    rw [hpc] at h
    cases h

theorem act_moves {i : ι} {a : Action} {c c' : Child} {data data' : SharedData ι}
    (hstage : c.pc.inside = true → Stage c data)
    (h : act children i a c data = some (c', data')) :
    Custody.Moves (fun c : Child => c.pc.inside) (fun data : SharedData ι => data.mutex ≠ 0)
      AtRest Stage c c' data data' := by
  cases a with
  | run => exact work_moves hstage h
  | fail =>
    cases hpc : c.pc with
    | semWait =>
      rw [act, hpc] at h
      cases h
      exact .outside (by rw [hpc]; rfl) rfl (fun _ _ => id) id id
    | semPost =>
      have hs := hstage (by rw [hpc]; rfl)
      unfold Stage at hs
      rw [act, hpc] at h
      rw [hpc] at hs
      cases h
      exact .works (by rw [hpc]; rfl) rfl hs (not_not.mpr hs.1)
    | loopTest | readCounter | writeCounter | readOperationDone | writeOperationDone | copyName
    | ended | failed =>
      rw [act, hpc] at h
      cases h

omit [Fintype ι] in
/-- A step counts at most one round, of the child that takes it. -/
theorem act_counted {i : ι} {a : Action} {c c' : Child} {data data' : SharedData ι}
    (h : act children i a c data = some (c', data')) :
    ∀ j, j ≠ i → data'.counted j = data.counted j := by
  intro j hj
  cases a with
  | run =>
    simp only [act, criticalSectionWork] at h
    cases hpc : c.pc with
    | semWait =>
      rw [hpc] at h
      dsimp only at h
      rw [Option.ite_none_left_eq_some] at h
      obtain ⟨-, h⟩ := h
      cases h
      rfl
    | writeOperationDone old =>
      rw [hpc] at h
      cases h
      exact Function.update_of_ne hj _ _
    | loopTest | readCounter | writeCounter | readOperationDone | copyName | semPost =>
      rw [hpc] at h
      cases h
      rfl
    | ended | failed =>
      rw [hpc] at h
      cases h
  | fail =>
    simp only [act] at h
    split at h <;> cases h <;> rfl

omit [Fintype ι] in
theorem act_rounds {i : ι} {a : Action} {c c' : Child} {data data' : SharedData ι}
    (hr : Rounds children i c data) (h : act children i a c data = some (c', data')) :
    Rounds children i c' data' := by
  obtain ⟨hcounted, hwithin, hround, hended⟩ := hr
  cases a with
  | run =>
    simp only [act, criticalSectionWork] at h
    cases hpc : c.pc with
    | loopTest =>
      rw [hpc] at h hcounted
      by_cases hlt : c.i < children.iteration i
      · rw [if_pos hlt] at h
        cases h
        exact ⟨hcounted, hwithin, fun _ => hlt, nofun⟩
      · rw [if_neg hlt] at h
        cases h
        exact ⟨hcounted, hwithin, nofun, fun _ => by dsimp only; omega⟩
    | semWait =>
      rw [hpc] at h hcounted hround
      dsimp only at h
      rw [Option.ite_none_left_eq_some] at h
      obtain ⟨-, h⟩ := h
      cases h
      exact ⟨hcounted, hwithin, hround, nofun⟩
    | readCounter | writeCounter | readOperationDone | copyName =>
      rw [hpc] at h hcounted hround
      cases h
      exact ⟨hcounted, hwithin, hround, nofun⟩
    | writeOperationDone old =>
      rw [hpc] at h hcounted hround
      cases h
      refine ⟨?_, hwithin, hround, nofun⟩
      show Function.update data.counted i (data.counted i+1) i = c.i+1
      rw [Function.update_self, hcounted]
      rfl
    | semPost =>
      rw [hpc] at h hcounted hround
      cases h
      have hlt := hround rfl
      exact ⟨hcounted, hlt, nofun, nofun⟩
    | ended | failed =>
      rw [hpc] at h
      cases h
  | fail =>
    simp only [act] at h
    cases hpc : c.pc with
    | semWait | semPost =>
      rw [hpc] at h hcounted hround
      cases h
      exact ⟨hcounted, hwithin, hround, nofun⟩
    | loopTest | readCounter | writeCounter | readOperationDone | writeOperationDone | copyName
    | ended | failed =>
      rw [hpc] at h
      cases h

omit [DecidableEq ι] in
theorem started_inv : Inv children (started : Memory ι) := by
  refine ⟨Custody.kept_outside (fun _ => rfl) ⟨rfl, ?_⟩, fun i => ⟨rfl, Nat.zero_le _, nofun, nofun⟩⟩
  have hzero : (started : Memory ι).shared.total = 0 := by
    unfold SharedData.total started
    simp
  unfold Exact
  rw [hzero]
  exact ⟨rfl, rfl⟩

theorem step_inv (a : ι × Action) (s t : Memory ι) (hi : Inv children s)
    (h : step children a s = some t) : Inv children t := by
  have hrounds := Sharing.knowledge_step (Rounds children) h
    (fun c data hact => act_rounds (hi.rounds a.1) hact) fun c data j hj hact => by
      have hold := hi.rounds j
      exact ⟨(act_counted hact j hj).trans hold.counted, hold.within, hold.round, hold.ended⟩
  obtain ⟨c, data, hact, rfl⟩ := Sharing.step_next _ h
  exact ⟨Custody.kept_step hi.kept (act_moves (hi.kept.stage a.1) hact), hrounds⟩

omit [DecidableEq ι] in
/-- Once every child has ended, the number of rounds is the one asked for. -/
theorem ended_total {s : Memory ι} (hi : Inv children s)
    (h : ∀ i, (s.procs i).pc = .ended) : s.shared.total = (∑ i, children.iteration i : ℕ) := by
  unfold SharedData.total
  refine congrArg Nat.cast (Finset.sum_congr rfl fun i _ => ?_)
  rw [(hi.rounds i).counted, (hi.rounds i).ended (h i), h i]
  rfl

omit [DecidableEq ι] in
theorem ended_exact {s : Memory ι} (hi : Inv children s) (hended : ∀ i, (s.procs i).pc = .ended) :
    s.shared.counter = toInt (∑ i, children.iteration i : ℕ) ∧
      s.shared.operationDone = toInt (∑ i, children.iteration i : ℕ) := by
  rw [← ended_total hi hended]
  exact (hi.kept.rest fun i => by rw [hended i]; rfl).2

theorem reachable_inv {s : Memory ι} (h : Reachable (step children) started s) : Inv children s :=
  reachable_invariant _ (Inv children) started_inv step_inv h

/-- In every reachable state at most one child is inside its critical section,
and whenever nobody is, both totals are the number of rounds counted. Once
every child has ended without a failure they are the number asked for. -/
theorem no_increment_lost (children : Children ι) (s : Memory ι)
    (h : Reachable (step children) started s) :
    (∀ i j, (s.procs i).pc.inside = true → (s.procs j).pc.inside = true → i = j) ∧
    (s.shared.mutex ≠ 0 → s.shared.counter = toInt s.shared.total ∧
      s.shared.operationDone = toInt s.shared.total) ∧
    ((∀ i, (s.procs i).pc = .ended) →
      s.shared.counter = toInt (∑ i, children.iteration i : ℕ) ∧
        s.shared.operationDone = toInt (∑ i, children.iteration i : ℕ)) := by
  have hi := reachable_inv h
  refine ⟨hi.kept.alone, fun hfree => ?_, ended_exact hi⟩
  exact (hi.kept.rest (Custody.kept_free hi.kept hfree)).2

/-! What a child does alone. -/

omit [Fintype ι] in
variable (children) in
def Goes (i : ι) (x y : Child × SharedData ι) : Prop :=
  Sharing.Solo (act children) (fun a _ => a = .run) i x y

omit [Fintype ι] in
theorem goes_step {i : ι} {x y z : Child × SharedData ι}
    (h : criticalSectionWork children i x.1 x.2 = some y) (hrest : Goes children i y z) :
    Goes children i x z :=
  have hok : Action.run = .run := rfl
  Sharing.solo_step hok h hrest

omit [Fintype ι] in
/-- A child inside its critical section comes to the end of its round. -/
theorem round_ends (i : ι) (c : Child) (data : SharedData ι) (hin : c.pc.inside = true)
    (hfail : c.pc ≠ .failed true) :
    ∃ data', Goes children i (c, data) (⟨.loopTest, c.i+1⟩, data') ∧ data'.mutex = data.mutex+1 := by
  obtain ⟨pc, n⟩ := c
  have hpost : ∀ data : SharedData ι, ∃ data', Goes children i (⟨.semPost, n⟩, data)
      (⟨.loopTest, n+1⟩, data') ∧ data'.mutex = data.mutex+1 := fun data =>
    ⟨_, goes_step rfl .refl, rfl⟩
  have hname : ∀ data : SharedData ι, ∃ data', Goes children i (⟨.copyName, n⟩, data)
      (⟨.loopTest, n+1⟩, data') ∧ data'.mutex = data.mutex+1 := fun data =>
    (hpost _).imp fun _ hend => ⟨goes_step rfl hend.1, hend.2⟩
  have hwrite : ∀ old (data : SharedData ι), ∃ data', Goes children i
      (⟨.writeOperationDone old, n⟩, data) (⟨.loopTest, n+1⟩, data') ∧
        data'.mutex = data.mutex+1 := fun old data =>
    (hname _).imp fun _ hend => ⟨goes_step rfl hend.1, hend.2⟩
  have hread : ∀ data : SharedData ι, ∃ data', Goes children i (⟨.readOperationDone, n⟩, data)
      (⟨.loopTest, n+1⟩, data') ∧ data'.mutex = data.mutex+1 := fun data =>
    (hwrite _ _).imp fun _ hend => ⟨goes_step rfl hend.1, hend.2⟩
  have hcounter : ∀ old (data : SharedData ι), ∃ data', Goes children i
      (⟨.writeCounter old, n⟩, data) (⟨.loopTest, n+1⟩, data') ∧
        data'.mutex = data.mutex+1 := fun old data =>
    (hread _).imp fun _ hend => ⟨goes_step rfl hend.1, hend.2⟩
  cases pc with
  | readCounter => exact (hcounter _ _).imp fun _ hend => ⟨goes_step rfl hend.1, hend.2⟩
  | writeCounter old => exact hcounter old data
  | readOperationDone => exact hread data
  | writeOperationDone old => exact hwrite old data
  | copyName => exact hname data
  | semPost => exact hpost data
  | failed taken =>
    cases taken with
    | true => exact absurd rfl hfail
    | false => cases hin
  | loopTest | semWait | ended => cases hin

omit [Fintype ι] in
/-- A child that finds the semaphore free goes through its round. -/
theorem wait_ends (i : ι) {n : ℕ} {data : SharedData ι} (hmutex : data.mutex = 1) :
    ∃ data', Goes children i (⟨.semWait, n⟩, data) (⟨.loopTest, n+1⟩, data') ∧ data'.mutex = 1 := by
  have hwait : criticalSectionWork children i ⟨.semWait, n⟩ data =
      some (⟨.readCounter, n⟩, { data with mutex := data.mutex-1 }) := if_neg (by omega)
  obtain ⟨data', hround, hmutex'⟩ := @round_ends _ _ children i ⟨.readCounter, n⟩
    { data with mutex := data.mutex-1 } rfl nofun
  refine ⟨data', goes_step hwait hround, hmutex'.trans ?_⟩
  show data.mutex-1+1 = 1
  rw [hmutex]

omit [Fintype ι] in
/-- While the semaphore is free a child goes through all the rounds it is left
with. -/
theorem rounds_end (i : ι) (rounds : ℕ) {n : ℕ} {data : SharedData ι}
    (hrounds : children.iteration i = n+rounds) (hmutex : data.mutex = 1) :
    ∃ data' n', Goes children i (⟨.loopTest, n⟩, data) (⟨.ended, n'⟩, data') ∧ data'.mutex = 1 := by
  induction rounds generalizing n data with
  | zero =>
    have hend : criticalSectionWork children i ⟨.loopTest, n⟩ data = some (⟨.ended, n⟩, data) := by
      show some ((⟨if n < children.iteration i then .semWait else .ended, n⟩ : Child), data) = _
      rw [if_neg (by omega)]
    exact ⟨data, n, goes_step hend .refl, hmutex⟩
  | succ rounds ih =>
    have henter : criticalSectionWork children i ⟨.loopTest, n⟩ data =
        some (⟨.semWait, n⟩, data) := by
      show some ((⟨if n < children.iteration i then .semWait else .ended, n⟩ : Child), data) = _
      rw [if_pos (by omega)]
    obtain ⟨data₁, hround, hfree⟩ := @wait_ends _ _ children i n data hmutex
    obtain ⟨data₂, n', hrest, hmutex₂⟩ := @ih (n+1) data₁ (by omega) hfree
    exact ⟨data₂, n', goes_step henter (hround.trans hrest), hmutex₂⟩

variable (children) in
def Continues (s t : Memory ι) : Prop :=
  ReachableAlong (step children) (fun a _ => a.2 = .run) s t

theorem continues_inv {s t : Memory ι} (hi : Inv children s) (h : Continues children s t) :
    Inv children t :=
  reachable_along_invariant _ (Inv children) hi (fun a u v hu _ hv => step_inv a u v hu hv) h

def NoFailure (s : Memory ι) : Prop := ∀ i taken, (s.procs i).pc ≠ .failed taken

/-- A child that waits or has not begun goes through its rounds while nobody is
inside. -/
theorem child_ends {s : Memory ι} (hi : Inv children s) (hfail : NoFailure s)
    (hmutex : s.shared.mutex = 1) (i : ι) :
    ∃ c data, Goes children i (s.procs i, s.shared) (c, data) ∧ c.pc = .ended ∧ data.mutex = 1 := by
  have hout : (s.procs i).pc.inside = false :=
    Custody.kept_free hi.kept (by show s.shared.mutex ≠ 0; omega) i
  have hr := hi.rounds i
  have hno := hfail i
  generalize s.procs i = c at hout hr hno ⊢
  obtain ⟨pc, n⟩ := c
  have hle : n ≤ children.iteration i := hr.within
  cases pc with
  | loopTest =>
    obtain ⟨data, n', hgoes, hend⟩ := @rounds_end _ _ children i (children.iteration i-n) n s.shared
      (by omega) hmutex
    exact ⟨_, data, hgoes, rfl, hend⟩
  | semWait =>
    have hlt : n < children.iteration i := hr.round rfl
    obtain ⟨data₁, hround, hfree⟩ := @wait_ends _ _ children i n s.shared hmutex
    obtain ⟨data, n', hrest, hend⟩ := @rounds_end _ _ children i (children.iteration i-(n+1)) (n+1)
      data₁ (by omega) hfree
    exact ⟨_, data, hround.trans hrest, rfl, hend⟩
  | ended => exact ⟨⟨.ended, n⟩, s.shared, .refl, rfl, hmutex⟩
  | failed taken => exact absurd rfl (hno taken)
  | readCounter | writeCounter | readOperationDone | writeOperationDone | copyName | semPost =>
    cases hout

omit [Fintype ι] in
theorem continues_solo {s : Memory ι} {i : ι} {c : Child} {data : SharedData ι}
    (h : Goes children i (s.procs i, s.shared) (c, data)) :
    Continues children s { procs := Function.update s.procs i c, shared := data } :=
  Sharing.solo_reachable h

/-- The semaphore comes free. -/
theorem mutex_released {s : Memory ι} (hi : Inv children s) (hfail : NoFailure s) :
    ∃ t, Continues children s t ∧ NoFailure t ∧ t.shared.mutex = 1 := by
  by_cases hin : ∃ i, (s.procs i).pc.inside = true
  · obtain ⟨i, hi'⟩ := hin
    obtain ⟨data, hgoes, hmutex⟩ := @round_ends _ _ children i (s.procs i) s.shared hi'
      (hfail i true)
    refine ⟨_, continues_solo hgoes, ?_, ?_⟩
    · refine (Function.forall_update_iff s.procs fun _ c => ∀ taken, c.pc ≠ .failed taken).mpr ?_
      exact ⟨nofun, fun j _ => hfail j⟩
    · show data.mutex = 1
      rw [hmutex, (hi.kept.stage i hi').1]
  · have hout : ∀ i, (s.procs i).pc.inside = false := fun i => by
      by_contra hne
      exact hin ⟨i, by simpa using hne⟩
    exact ⟨s, reachable_along_refl _ s, hfail, (hi.kept.rest hout).1⟩

theorem all_end (left : Finset ι) {s : Memory ι} (hi : Inv children s) (hfail : NoFailure s)
    (hmutex : s.shared.mutex = 1) (hleft : ∀ i, i ∉ left → (s.procs i).pc = .ended) :
    ∃ t, Continues children s t ∧ ∀ i, (t.procs i).pc = .ended := by
  induction left using Finset.induction_on generalizing s with
  | empty => exact ⟨s, reachable_along_refl _ s, fun i => hleft i (Finset.notMem_empty i)⟩
  | insert i left _ ih =>
    obtain ⟨c, data, hgoes, hend, hmutex'⟩ := child_ends hi hfail hmutex i
    have hcont := continues_solo hgoes
    have hfail' : NoFailure (⟨Function.update s.procs i c, data⟩ : Memory ι) := by
      refine (Function.forall_update_iff s.procs fun _ c => ∀ taken, c.pc ≠ .failed taken).mpr
        ⟨fun taken => ?_, fun j _ => hfail j⟩
      rw [hend]
      nofun
    have hleft' : ∀ j, j ∉ left → (Function.update s.procs i c j).pc = .ended := by
      intro j hj
      by_cases hji : j = i
      · rw [hji, Function.update_self]
        exact hend
      · rw [Function.update_of_ne hji]
        exact hleft j fun hmem => (Finset.mem_insert.mp hmem).elim hji hj
    obtain ⟨t, ht, hended⟩ := ih (continues_inv hi hcont) hfail' hmutex' hleft'
    exact ⟨t, reachable_along_trans hcont ht, hended⟩

/-- While no call has failed, all the children can always come to their ends,
and then no round is missing. -/
theorem children_can_end (children : Children ι) (s : Memory ι)
    (h : Reachable (step children) started s) (hfail : NoFailure s) :
    ∃ t, Continues children s t ∧ (∀ i, (t.procs i).pc = .ended) ∧
      t.shared.counter = toInt (∑ i, children.iteration i : ℕ) ∧
        t.shared.operationDone = toInt (∑ i, children.iteration i : ℕ) := by
  have hi := reachable_inv h
  obtain ⟨u, hu, hfail', hmutex⟩ := mutex_released hi hfail
  obtain ⟨t, ht, hended⟩ := all_end Finset.univ (continues_inv hi hu) hfail' hmutex fun i hnot =>
    absurd (Finset.mem_univ i) hnot
  have hcont := reachable_along_trans hu ht
  exact ⟨t, hcont, hended, ended_exact (continues_inv hi hcont) hended⟩

end

/-! The two children of `main`. One of them waits while the other one is in its
round. -/

/-- Behind the two calls of `wait` the comparison succeeds. -/
theorem figli_without_race (s : Memory (Fin 2)) (h : Reachable (step figli) started s)
    (hended : ∀ i, (s.procs i).pc = .ended) : senzaRaceCondition s.shared = true := by
  have htotals := ended_exact (reachable_inv h) hended
  have hsix : toInt (∑ i, figli.iteration i : ℕ) = 6 := by decide
  rw [hsix] at htotals
  exact decide_eq_true htotals

def oneWaits : List (Fin 2 × Action) :=
  [(0, .run), (1, .run), (0, .run), (0, .run), (0, .run)]

theorem one_waits_run : (exec (step figli) oneWaits started).isSome = true := by decide +kernel

def oneWaitsEnd : Memory (Fin 2) := (exec (step figli) oneWaits started).get one_waits_run

theorem one_waits_end : ∃ t, Continues figli oneWaitsEnd t ∧ (∀ i, (t.procs i).pc = .ended) ∧
    t.shared.counter = toInt (∑ i, figli.iteration i : ℕ) ∧
      t.shared.operationDone = toInt (∑ i, figli.iteration i : ℕ) := by
  have hfail : NoFailure oneWaitsEnd := by
    intro i taken
    have hat : ∀ i, (oneWaitsEnd.procs i).pc = if i = 0 then .readOperationDone else .semWait := by
      decide +kernel
    rw [hat i]
    split <;> nofun
  exact children_can_end figli oneWaitsEnd (reachable_get one_waits_run) hfail

def inTurn : List (Fin 2 × Action) := List.replicate 25 (0, .run)++List.replicate 25 (1, .run)

theorem in_turn_run : (exec (step figli) inTurn started).isSome = true := by decide +kernel

def inTurnEnd : Memory (Fin 2) := (exec (step figli) inTurn started).get in_turn_run

theorem in_turn_exact : inTurnEnd.shared.counter = toInt (∑ i, figli.iteration i : ℕ) ∧
    inTurnEnd.shared.operationDone = toInt (∑ i, figli.iteration i : ℕ) :=
  (no_increment_lost figli inTurnEnd (reachable_get in_turn_run)).2.2 (by decide +kernel)

end ProgSistema.SharedCounter
