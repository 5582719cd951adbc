import ProgSistema.SharedList.Instances
import ProgSistema.SharedList.Refinement
import ProgSistema.Lib.Semaphore

/-!
# Starting up

An instance that finds a segment takes it for initialised, and an instance
that found none initialises whatever the second `shm_open` gives it. Where no
start runs into the initialisation of another one, a segment is initialised
once, by its creator, before anyone else uses it, and then holds what the
completed operations left there.
-/

set_option autoImplicit false

namespace ProgSistema.SharedList
open Runs Semaphore

def Pc.settingUp : Pc → Option ℕ
  | .ftruncate seg | .mmapCreated seg | .setHead seg | .setCount seg | .setNode seg _ _
  | .semInit seg => some seg
  | _ => none

def Pc.initialising : Pc → Option ℕ
  | .setHead seg | .setCount seg | .setNode seg _ _ | .semInit seg => some seg
  | _ => none

def Pc.operating : Pc → Option ℕ
  | .semWait seg _ | .critical seg _ | .semPost seg _ _ => some seg
  | _ => none

def Pc.inside : Pc → Option ℕ
  | .critical seg _ | .semPost seg _ _ => some seg
  | _ => none

def Pc.seg : Pc → Option ℕ
  | .ftruncate seg | .mmapCreated seg | .setHead seg | .setCount seg | .setNode seg _ _
  | .semInit seg | .mmapExisting seg | .showCount seg | .menu seg | .semWait seg _
  | .critical seg _ | .semPost seg _ _ | .askRemoval seg | .semDestroy seg => some seg
  | _ => none

def Namespace.ready (k : Namespace) : Bool :=
  match k.entry with
  | none => true
  | some seg => (k.segments seg).initialised

/-- The first `shm_open` of a start finds no segment or an initialised one,
and the second one finds none. -/
def StartsApart {ι : Type} (a : ι × Event) (s : Instances ι) : Prop :=
  match s.procs a.1, a.2 with
  | .shmOpen, .run result => 0 ≤ result → s.shared.ready = true
  | .shmOpenCreate, .run result => 0 ≤ result → s.shared.entry = none
  | _, _ => True

instance {ι : Type} (s : Instances ι) : (a : ι × Event) → Decidable (StartsApart a s)
  | (i, .run result) =>
    match h : s.procs i with
    | .shmOpen => decidable_of_iff (0 ≤ result → s.shared.ready = true) (by simp [StartsApart, h])
    | .shmOpenCreate => decidable_of_iff (0 ≤ result → s.shared.entry.isNone = true)
        (by simp [StartsApart, h])
    | .off | .ftruncate _ | .mmapCreated _ | .setHead _ | .setCount _ | .setNode _ _ _
    | .semInit _ | .mmapExisting _ | .showCount _ | .menu _ | .semWait _ _ | .critical _ _
    | .semPost _ _ _ | .askRemoval _ | .semDestroy _ | .shmUnlink _ | .ended | .crashed =>
      isTrue (by simp [StartsApart, h])
  | (_, .command _) | (_, .leave) | (_, .answer _) => isTrue (by simp [StartsApart])

def Replayed (completed : List (Pid × Op)) (mem : SharedMemory) : Prop :=
  ∃ answers, run (step (maxNodes+1)) completed (initialise zeroFilled) = .ok (answers, mem)

def cleared (n : ℕ) : SharedMemory where
  nodes i := if i < n then { data := 0, nextOffset := -1, isFree := 1 } else zeroFilled.nodes i
  headOffset := -1
  count := 0
  mutex := 0

def beforeField (n : ℕ) : Field → SharedMemory
  | .isFree => cleared n
  | .nextOffset => clearField (cleared n) n .isFree
  | .data => clearField (clearField (cleared n) n .isFree) n .nextOffset

structure Fresh (sg : Segment) (mem : SharedMemory) : Prop where
  raw : sg.initialised = false
  unused : sg.completed = []
  content : sg.mem = mem

def Pc.knowsSegment (pc : Pc) (sg : Segment) : Prop :=
  match pc with
  | .ftruncate _ | .mmapCreated _ | .setHead _ => Fresh sg zeroFilled
  | .setCount _ => Fresh sg { zeroFilled with headOffset := -1 }
  | .setNode _ i field => i < maxNodes ∧ Fresh sg (beforeField i field)
  | .semInit _ => Fresh sg (cleared maxNodes)
  | .critical _ _ => sg.initialised = true ∧ ∃ shm, Replayed sg.completed shm ∧
      sg.mem = { shm with mutex := 0 }
  | .semPost _ command reply => sg.initialised = true ∧ ∃ shm, Replayed sg.completed shm ∧
      commandSection (maxNodes+1) command { shm with mutex := 0 } = .ok (reply, sg.mem)
  | _ => sg.initialised = true

def Pc.knows (pc : Pc) (k : Namespace) : Prop :=
  ∀ seg, pc.seg = some seg → seg < k.nextSegment ∧ pc.knowsSegment (k.segments seg)

structure StartInv {ι : Type} (s : Instances ι) : Prop where
  knows : ∀ i, (s.procs i).knows s.shared
  setUp : Alone fun i => (s.procs i).settingUp
  inside : Alone fun i => (s.procs i).inside
  free : ∀ seg, (s.shared.segments seg).initialised = true →
    (∀ i, (s.procs i).inside ≠ some seg) →
      Replayed (s.shared.segments seg).completed (s.shared.segments seg).mem
  named : ∀ seg, s.shared.entry = some seg → seg < s.shared.nextSegment

section Memory

theorem clear_field_at {n : ℕ} (h : n < maxNodes) (shm : SharedMemory) (field : Field) :
    clearField shm n field =
      { shm with nodes := Function.update shm.nodes ⟨n, h⟩ (field.clear (shm.nodes ⟨n, h⟩)) } :=
  dif_pos h

/-- The three stores into a node leave what they find in it nowhere. -/
theorem cleared_node {n : ℕ} (h : n < maxNodes) :
    clearField (beforeField n .data) n .data = cleared (n+1) := by
  simp only [beforeField, clear_field_at h, Function.update_self, Function.update_idem,
    Field.clear]
  have hnodes : Function.update (cleared n).nodes ⟨n, h⟩
      { data := 0, nextOffset := -1, isFree := 1 } = (cleared (n+1)).nodes := by
    funext i
    by_cases hi : i = ⟨n, h⟩
    · subst hi
      simp [cleared]
    · have hne : (i : ℕ) ≠ n := fun heq => hi (Fin.ext heq)
      rw [Function.update_of_ne hi]
      simp only [cleared]
      by_cases hlt : (i : ℕ) < n
      · rw [if_pos hlt, if_pos (by omega)]
      · rw [if_neg hlt, if_neg (by omega)]
  rw [hnodes]
  rfl

theorem cleared_all : { cleared maxNodes with mutex := 1 } = initialise zeroFilled := by
  simp [cleared, initialise]

theorem replayed_holds {completed : List (Pid × Op)} {mem : SharedMemory}
    (h : Replayed completed mem) : ∃ s, Holds mem s := by
  obtain ⟨answers, hrun⟩ := h
  obtain ⟨shm, hrun', hh⟩ := run_holds (maxNodes+1) (Nat.lt_succ_self _) zeroFilled completed
  rw [hrun] at hrun'
  cases hrun'
  exact ⟨_, hh⟩

theorem replayed_unlocked {completed : List (Pid × Op)} {mem : SharedMemory}
    (h : Replayed completed mem) : mem.mutex = 1 := by
  obtain ⟨s, chain, hr, -⟩ := replayed_holds h
  exact hr.unlocked

/-- After completed operations the next critical section ends, and its post
completes the operation. -/
theorem replayed_critical {completed : List (Pid × Op)} {mem : SharedMemory}
    (h : Replayed completed mem) (pid : Pid) (op : Op) :
    ∃ reply mem', criticalSection (maxNodes+1) op { mem with mutex := 0 } = .ok (reply, mem') ∧
      Replayed (completed++[(pid, op)]) (semPost mem') := by
  obtain ⟨s, hh⟩ := replayed_holds h
  obtain ⟨shm, hstep, -⟩ := step_holds (maxNodes+1) (Nat.lt_succ_self _) (pid, op) mem s hh
  obtain ⟨answers, hrun⟩ := h
  have hcut := step_critical (maxNodes+1) pid op mem
  rw [sem_wait_free mem (replayed_unlocked ⟨answers, hrun⟩), hstep] at hcut
  simp only [Except.bind] at hcut
  cases hcrit : criticalSection (maxNodes+1) op { mem with mutex := 0 } with
  | error e =>
    rw [hcrit] at hcut
    cases hcut
  | ok next =>
    rw [hcrit] at hcut
    obtain ⟨hreply, hmem⟩ := Prod.mk.inj (Except.ok.inj hcut)
    refine ⟨next.1, next.2, rfl, ?_⟩
    rw [← hmem]
    exact ⟨_, run_concat _ completed (pid, op) hrun hstep⟩

theorem replayed_command {completed : List (Pid × Op)} {mem : SharedMemory}
    (h : Replayed completed mem) (pid : Pid) (command : Command) :
    ∃ reply mem',
      commandSection (maxNodes+1) command { mem with mutex := 0 } = .ok (reply, mem') ∧
        Replayed (completed++command.ops pid) (semPost mem') := by
  cases command with
  | list op => exact replayed_critical h pid op
  | statoMemoria =>
    obtain ⟨s, hh⟩ := replayed_holds h
    refine ⟨.void, { mem with mutex := 0 }, ?_, ?_⟩
    · rw [commandSection]
      rcases head_holds hh with hnull | ⟨i, hne, hi⟩
      · exact if_pos hnull
      · rw [if_neg hne, hi]
        rfl
    · rw [(sem_wait_holds hh).2, Command.ops, List.append_nil]
      exact h

end Memory

section Knowledge
variable {pc q : Pc} {k k' : Namespace} {seg : ℕ} {sg : Segment}

theorem set_up_seg (h : pc.settingUp = some seg) : pc.seg = some seg := by
  cases pc <;> first | exact h | cases h

theorem inside_seg (h : pc.inside = some seg) : pc.seg = some seg := by
  cases pc <;> first | exact h | cases h

theorem set_up_raw (hk : pc.knowsSegment sg) (h : pc.settingUp = some seg) :
    sg.initialised = false := by
  cases pc with
  | ftruncate | mmapCreated | setHead | setCount | semInit => exact hk.raw
  | setNode => exact hk.2.raw
  | _ => cases h

theorem attached_initialised (hk : pc.knowsSegment sg) (h : pc.settingUp = none) :
    sg.initialised = true := by
  cases pc with
  | ftruncate | mmapCreated | setHead | setCount | semInit | setNode => cases h
  | critical | semPost => exact hk.1
  | _ => exact hk

theorem knows_of_initialised (hset : pc.settingUp = none) (hin : pc.inside = none)
    (h : sg.initialised = true) : pc.knowsSegment sg := by
  cases pc with
  | ftruncate | mmapCreated | setHead | setCount | semInit | setNode => cases hset
  | critical | semPost => cases hin
  | _ => exact h

theorem inside_mutex (hk : pc.knowsSegment sg) (h : pc.inside = some seg) :
    sg.mem.mutex = 0 := by
  cases pc with
  | critical =>
    obtain ⟨-, shm, -, hmem⟩ := hk
    rw [hmem]
  | semPost =>
    obtain ⟨-, shm, -, hcrit⟩ := hk
    exact command_mutex hcrit
  | _ => cases h

theorem knows_frame (hk : pc.knows k) (hsame : ∀ seg, pc.seg = some seg →
    k'.segments seg = k.segments seg) (hnext : k.nextSegment ≤ k'.nextSegment) : pc.knows k' := by
  intro seg hseg
  obtain ⟨hknown, hsegment⟩ := hk seg hseg
  rw [hsame seg hseg]
  exact ⟨hknown.trans_le hnext, hsegment⟩

theorem set_other (k : Namespace) (sg : Segment) {seg' : ℕ} (h : seg' ≠ seg) :
    (k.set seg sg).segments seg' = k.segments seg' :=
  Function.update_of_ne h _ _

@[simp] theorem set_self (k : Namespace) (seg : ℕ) (sg : Segment) :
    (k.set seg sg).segments seg = sg :=
  Function.update_self _ _ _

/-- A change of one segment leaves what an instance knows, if it leaves what
it knows about that segment. -/
theorem knows_set (hk : q.knows k) (h : q.seg = some seg → q.knowsSegment sg) :
    q.knows (k.set seg sg) := by
  intro seg' hseg
  obtain ⟨hknown, hsegment⟩ := hk seg' hseg
  refine ⟨hknown, ?_⟩
  by_cases hsame : seg' = seg
  · subst hsame
    rw [set_self]
    exact h hseg
  · rw [set_other k sg hsame]
    exact hsegment

end Knowledge

/-- Only its creator has access to a segment that is being set up. -/
theorem set_up_alone {ι : Type} {s : Instances ι} {i : ι} {seg : ℕ} (hi : StartInv s)
    (h : (s.procs i).settingUp = some seg) (j : ι)
    (hj : j ≠ i) : (s.procs j).seg ≠ some seg := by
  intro hseg
  have hraw := set_up_raw ((hi.knows i) seg (set_up_seg h)).2 h
  cases hset : (s.procs j).settingUp with
  | none =>
    have hready := attached_initialised ((hi.knows j) seg hseg).2 hset
    rw [hraw] at hready
    cases hready
  | some seg' =>
    have hsame := set_up_seg hset
    rw [hseg] at hsame
    cases hsame
    exact hj (hi.setUp j i seg hset h)

theorem knows_at {ι : Type} {s : Instances ι} {i : ι} {q : Pc} {seg : ℕ} (hi : StartInv s)
    (hpc : s.procs i = q) (hseg : q.seg = some seg) :
    q.knowsSegment (s.shared.segments seg) := by
  subst hpc
  exact (hi.knows i seg hseg).2

section Step
variable {ι : Type} [DecidableEq ι] {pid : ι → Pid} {s : Instances ι} {i : ι} {pc q : Pc}
  {k : Namespace} {seg : ℕ} {sg : Segment}

/-- A segment whose mutex the other instances have not taken is free, unless
the instance itself is inside. -/
theorem free_beside (hi : StartInv s) (hinit : (s.shared.segments seg).initialised = true)
    (hself : (s.procs i).inside ≠ some seg) (hnone : ∀ j, j ≠ i → (s.procs j).inside ≠ some seg) :
    Replayed (s.shared.segments seg).completed (s.shared.segments seg).mem := by
  apply hi.free seg hinit
  intro j hj
  by_cases hji : j = i
  · rw [hji] at hj
    exact hself hj
  · exact hnone j hji hj

theorem start_inv_update (hi : StartInv s)
    (hself : pc.knows k) (hothers : ∀ j, j ≠ i → (s.procs j).knows k)
    (hset : ∀ seg, pc.settingUp = some seg → ∀ j, j ≠ i → (s.procs j).settingUp ≠ some seg)
    (hin : ∀ seg, pc.inside = some seg → ∀ j, j ≠ i → (s.procs j).inside ≠ some seg)
    (hfree : ∀ seg, (k.segments seg).initialised = true → pc.inside ≠ some seg →
      (∀ j, j ≠ i → (s.procs j).inside ≠ some seg) →
        Replayed (k.segments seg).completed (k.segments seg).mem)
    (hnamed : ∀ seg, k.entry = some seg → seg < k.nextSegment) :
    StartInv { procs := Function.update s.procs i pc, shared := k } := by
  constructor
  · exact (Function.forall_update_iff s.procs fun _ q => q.knows k).mpr ⟨hself, hothers⟩
  · show Alone fun j => (Function.update s.procs i pc j).settingUp
    rw [Sharing.keys_update Pc.settingUp]
    exact alone_update hi.setUp i _ hset
  · show Alone fun j => (Function.update s.procs i pc j).inside
    rw [Sharing.keys_update Pc.inside]
    exact alone_update hi.inside i _ hin
  · intro seg hinit hnone
    apply hfree seg hinit
    · simpa using hnone i
    · intro j hj
      simpa [hj] using hnone j
  · exact hnamed

/-- A step that only moves the instance on, or takes the name away. -/
theorem move_inv (hi : StartInv s) (hself : pc.knows s.shared)
    (hset : ∀ seg, pc.settingUp = some seg → (s.procs i).settingUp = some seg)
    (hin : pc.inside = (s.procs i).inside) (hsegs : k.segments = s.shared.segments)
    (hnext : k.nextSegment = s.shared.nextSegment)
    (hnamed : ∀ seg, k.entry = some seg → seg < s.shared.nextSegment) :
    StartInv { procs := Function.update s.procs i pc, shared := k } := by
  have hknows : ∀ q : Pc, q.knows s.shared → q.knows k := by
    intro q hq
    exact knows_frame hq (fun seg _ => by rw [hsegs]) hnext.ge
  apply start_inv_update hi (hknows pc hself)
  · intro j _
    exact hknows _ (hi.knows j)
  · intro seg hseg j hj hj'
    exact hj (hi.setUp j i seg hj' (hset seg hseg))
  · intro seg hseg j hj hj'
    rw [hin] at hseg
    exact hj (hi.inside j i seg hj' hseg)
  · intro seg hinit hpc hnone
    rw [hsegs] at hinit ⊢
    rw [hin] at hpc
    exact free_beside hi hinit hpc hnone
  · intro seg hseg
    rw [hnext]
    exact hnamed seg hseg

/-- A store of the creator into the segment that it is setting up. -/
theorem set_up_inv (hi : StartInv s) (h : (s.procs i).settingUp = some seg)
    (hseg : pc.seg = some seg) (hself : pc.knowsSegment sg) (hin : pc.inside = none)
    (hfree : sg.initialised = true → Replayed sg.completed sg.mem) :
    StartInv { procs := Function.update s.procs i pc, shared := s.shared.set seg sg } := by
  have halone := set_up_alone hi h
  apply start_inv_update hi
  · intro seg' hpc
    rw [hseg] at hpc
    cases hpc
    rw [set_self]
    exact ⟨((hi.knows i) seg (set_up_seg h)).1, hself⟩
  · intro j hj
    exact knows_set (hi.knows j) fun hsame => absurd hsame (halone j hj)
  · intro seg' hpc j hj hj'
    have hsame := set_up_seg hpc
    rw [hseg] at hsame
    cases hsame
    exact halone j hj (set_up_seg hj')
  · intro seg' hpc
    rw [hin] at hpc
    cases hpc
  · intro seg' hinit _ hnone
    by_cases hsame : seg' = seg
    · subst hsame
      rw [set_self] at hinit ⊢
      exact hfree hinit
    · rw [set_other _ _ hsame] at hinit ⊢
      refine free_beside hi hinit (fun hj => ?_) hnone
      have hsame' := set_up_seg h
      rw [inside_seg hj] at hsame'
      exact hsame (Option.some.inj hsame')
  · exact hi.named

theorem store_inv {mem mem' : SharedMemory} (hi : StartInv s)
    (h : (s.procs i).settingUp = some seg) (hseg : pc.seg = some seg)
    (hfresh : Fresh (s.shared.segments seg) mem)
    (hself : pc.knowsSegment { s.shared.segments seg with mem := mem' })
    (hin : pc.inside = none) :
    StartInv { procs := Function.update s.procs i pc, shared := s.shared.setMem seg mem' } := by
  apply set_up_inv hi h hseg hself hin
  intro hinit
  have hraw := hfresh.raw
  rw [show (s.shared.segments seg).initialised = true from hinit] at hraw
  cases hraw

/-- A change of a segment by an instance that is attached to it and, if it
was inside, the only one inside. -/
theorem attached_inv (hi : StartInv s) (hpc : s.procs i = q) (hseg : q.seg = some seg)
    (hset : q.settingUp = none) (hpcset : pc.settingUp = none)
    (hpcseg : ∀ seg', pc.seg = some seg' → seg' = seg)
    (hself : pc.seg = some seg → pc.knowsSegment sg) (hinit : sg.initialised = true)
    (hothers : ∀ j, j ≠ i → (s.procs j).inside = some seg → (s.procs j).knowsSegment sg)
    (hexcl : ∀ seg', pc.inside = some seg' → ∀ j, j ≠ i → (s.procs j).inside ≠ some seg)
    (hfree : pc.inside = none → (∀ j, j ≠ i → (s.procs j).inside ≠ some seg) →
      Replayed sg.completed sg.mem) :
    StartInv { procs := Function.update s.procs i pc, shared := s.shared.set seg sg } := by
  subst hpc
  obtain ⟨hknown, hsegment⟩ := hi.knows i seg hseg
  have hready := attached_initialised hsegment hset
  apply start_inv_update hi
  · intro seg' hpc
    obtain rfl := hpcseg seg' hpc
    rw [set_self]
    exact ⟨hknown, hself hpc⟩
  · intro j hj
    apply knows_set (hi.knows j)
    intro hsame
    cases hjset : (s.procs j).settingUp with
    | some seg' =>
      have hsame' := set_up_seg hjset
      rw [hsame] at hsame'
      cases hsame'
      have hraw := set_up_raw ((hi.knows j) seg hsame).2 hjset
      rw [hready] at hraw
      cases hraw
    | none =>
      cases hjin : (s.procs j).inside with
      | none => exact knows_of_initialised hjset hjin hinit
      | some seg' =>
        have hsame' := inside_seg hjin
        rw [hsame] at hsame'
        cases hsame'
        exact hothers j hj hjin
  · intro seg' hpc
    rw [hpcset] at hpc
    cases hpc
  · intro seg' hpc j hj
    obtain rfl := hpcseg seg' (inside_seg hpc)
    exact hexcl seg' hpc j hj
  · intro seg' hinit' hpc hnone
    by_cases hsame : seg' = seg
    · subst hsame
      rw [set_self]
      cases hpcin : pc.inside with
      | none => exact hfree hpcin hnone
      | some seg'' =>
        obtain rfl := hpcseg seg'' (inside_seg hpcin)
        exact absurd hpcin hpc
    · rw [set_other _ _ hsame] at hinit' ⊢
      refine free_beside hi hinit' (fun hj => ?_) hnone
      rw [inside_seg hj] at hseg
      exact hsame (Option.some.inj hseg)
  · exact hi.named

/-- A step away from the segments, outside the critical sections. -/
theorem idle_inv (hi : StartInv s) (hpc : s.procs i = q) (hseg : pc.seg = none)
    (hin : q.inside = none) :
    StartInv { procs := Function.update s.procs i pc, shared := s.shared } := by
  subst hpc
  have hset : pc.settingUp = none := by
    cases h : pc.settingUp with
    | none => rfl
    | some seg =>
      rw [set_up_seg h] at hseg
      cases hseg
  have hinside : pc.inside = none := by
    cases h : pc.inside with
    | none => rfl
    | some seg =>
      rw [inside_seg h] at hseg
      cases hseg
  apply move_inv hi _ _ (hinside.trans hin.symm) rfl rfl hi.named
  · intro seg h
    rw [hseg] at h
    cases h
  · intro seg h
    rw [hset] at h
    cases h

/-- A step to another position at the same segment. -/
theorem walk_inv (hi : StartInv s) (hpc : s.procs i = q) (hseg : q.seg = some seg)
    (hpcseg : pc.seg = some seg)
    (hself : q.knowsSegment (s.shared.segments seg) → pc.knowsSegment (s.shared.segments seg))
    (hset : ∀ seg, pc.settingUp = some seg → q.settingUp = some seg)
    (hin : pc.inside = q.inside) :
    StartInv { procs := Function.update s.procs i pc, shared := s.shared } := by
  subst hpc
  obtain ⟨hknown, hsegment⟩ := hi.knows i seg hseg
  apply move_inv hi _ hset hin rfl rfl hi.named
  intro seg' h
  rw [hpcseg] at h
  cases h
  exact ⟨hknown, hself hsegment⟩

theorem create_inv (hi : StartInv s) (hin : (s.procs i).inside = none) :
    StartInv { procs := Function.update s.procs i (.ftruncate s.shared.nextSegment),
               shared := s.shared.create (pid i) } := by
  have hold : ∀ seg, seg < s.shared.nextSegment →
      (s.shared.create (pid i)).segments seg = s.shared.segments seg := by
    intro seg hlt
    exact Function.update_of_ne (Nat.ne_of_lt hlt) _ _
  have hnew : (s.shared.create (pid i)).segments s.shared.nextSegment =
      { sized := false, mem := zeroFilled, creator := pid i, initialised := false,
        destroyed := false, completed := [] } := Function.update_self _ _ _
  apply start_inv_update hi
  · intro seg hseg
    cases hseg
    rw [hnew]
    exact ⟨Nat.lt_succ_self _, ⟨rfl, rfl, rfl⟩⟩
  · intro j _
    apply knows_frame (hi.knows j) _ (Nat.le_succ _)
    intro seg hseg
    exact hold seg ((hi.knows j) seg hseg).1
  · intro seg hseg j _ hj
    cases hseg
    exact absurd ((hi.knows j) _ (set_up_seg hj)).1 (lt_irrefl _)
  · intro seg hseg
    cases hseg
  · intro seg hinit _ hnone
    by_cases hsame : seg = s.shared.nextSegment
    · rw [hsame, hnew] at hinit
      cases hinit
    · have hkeep : (s.shared.create (pid i)).segments seg = s.shared.segments seg :=
        Function.update_of_ne hsame _ _
      rw [hkeep] at hinit ⊢
      exact free_beside hi hinit (by simp [hin]) hnone
  · intro seg hseg
    cases hseg
    exact Nat.lt_succ_self _

def Pc.calling : Pc → Bool
  | .shmOpen | .shmOpenCreate | .ftruncate _ | .mmapCreated _ | .semInit _ | .mmapExisting _ => true
  | _ => false

theorem calling_outside {q : Pc} (h : q.calling = true) : q.inside = none := by
  cases q <;> first | rfl | cases h

/-- A call that fails leaves everything as it is, and the instance with no segment. -/
theorem failed_call {p : Pid} {q q' : Pc} {k k' : Namespace} {result : ℤ}
    (hcalling : q.calling = true) (hresult : result < 0)
    (h : start p q k result = some (q', k')) : q'.seg = none ∧ k' = k := by
  cases q with
  | shmOpen =>
    simp only [start, if_pos hresult] at h
    split at h <;> cases h <;> exact ⟨rfl, rfl⟩
  | shmOpenCreate | ftruncate _ | mmapCreated _ | semInit _ | mmapExisting _ =>
    simp only [start, if_pos hresult] at h
    cases h
    exact ⟨rfl, rfl⟩
  | _ => cases hcalling

/-- A start finds a segment that is initialised. -/
theorem found_inv (hi : StartInv s) (hpc : s.procs i = .shmOpen)
    (hentry : s.shared.entry = some seg)
    (hready : (s.shared.segments seg).initialised = true) :
    StartInv { procs := Function.update s.procs i (.mmapExisting seg), shared := s.shared } := by
  apply move_inv hi _ _ (by rw [hpc]; rfl) rfl rfl hi.named
  · intro seg' hseg
    cases hseg
    exact ⟨hi.named seg hentry, hready⟩
  · intro seg' hseg
    cases hseg

theorem resize_inv (hi : StartInv s) (hpc : s.procs i = .ftruncate seg) :
    StartInv { procs := Function.update s.procs i (.mmapCreated seg),
               shared := s.shared.resize seg } := by
  have hset : (s.procs i).settingUp = some seg := by rw [hpc]; rfl
  have hfresh : Fresh (s.shared.segments seg) zeroFilled := knows_at hi hpc rfl
  apply set_up_inv hi hset rfl _ rfl
  · intro hinit
    have hraw := hfresh.raw
    rw [show (s.shared.segments seg).initialised = true from hinit] at hraw
    cases hraw
  · exact ⟨hfresh.raw, hfresh.unused, hfresh.content⟩

theorem set_head_inv (hi : StartInv s) (hpc : s.procs i = .setHead seg) :
    StartInv { procs := Function.update s.procs i (.setCount seg), shared :=
      s.shared.setMem seg { (s.shared.segments seg).mem with headOffset := -1 } } := by
  have hset : (s.procs i).settingUp = some seg := by rw [hpc]; rfl
  have hfresh : Fresh (s.shared.segments seg) zeroFilled := knows_at hi hpc rfl
  exact store_inv hi hset rfl hfresh ⟨hfresh.raw, hfresh.unused, by rw [hfresh.content]⟩ rfl

theorem set_count_inv (hi : StartInv s) (hpc : s.procs i = .setCount seg) :
    StartInv { procs := Function.update s.procs i (.setNode seg 0 .isFree), shared :=
      s.shared.setMem seg { (s.shared.segments seg).mem with count := 0 } } := by
  have hset : (s.procs i).settingUp = some seg := by rw [hpc]; rfl
  have hfresh : Fresh (s.shared.segments seg) { zeroFilled with headOffset := -1 } :=
    knows_at hi hpc rfl
  apply store_inv hi hset rfl hfresh _ rfl
  exact ⟨by decide, hfresh.raw, hfresh.unused, by rw [hfresh.content]; rfl⟩

theorem set_node_inv {n : ℕ} {field : Field} (hi : StartInv s)
    (hpc : s.procs i = .setNode seg n field) :
    StartInv { procs := Function.update s.procs i (afterField seg n field), shared :=
      s.shared.setMem seg (clearField (s.shared.segments seg).mem n field) } := by
  have hset : (s.procs i).settingUp = some seg := by rw [hpc]; rfl
  obtain ⟨hn, hfresh⟩ : n < maxNodes ∧ Fresh (s.shared.segments seg) (beforeField n field) :=
    knows_at hi hpc rfl
  rw [hfresh.content]
  cases field with
  | isFree | nextOffset =>
    exact store_inv hi hset rfl hfresh ⟨hn, hfresh.raw, hfresh.unused, rfl⟩ rfl
  | data =>
    rw [cleared_node hn, afterField]
    by_cases hlast : n+1 < maxNodes
    · rw [if_pos hlast]
      exact store_inv hi hset rfl hfresh ⟨hlast, hfresh.raw, hfresh.unused, rfl⟩ rfl
    · rw [if_neg hlast]
      have hall : n+1 = maxNodes := by omega
      rw [hall]
      exact store_inv hi hset rfl hfresh ⟨hfresh.raw, hfresh.unused, rfl⟩ rfl

/-- The last call of the initialisation leaves an empty list. -/
theorem sem_init_inv (hi : StartInv s) (hpc : s.procs i = .semInit seg) :
    StartInv { procs := Function.update s.procs i (.menu seg), shared :=
      s.shared.set seg { s.shared.segments seg with
        mem := { (s.shared.segments seg).mem with mutex := 1 }, initialised := true,
        destroyed := false } } := by
  have hset : (s.procs i).settingUp = some seg := by rw [hpc]; rfl
  have hfresh : Fresh (s.shared.segments seg) (cleared maxNodes) := knows_at hi hpc rfl
  apply set_up_inv hi hset rfl _ rfl _
  · exact rfl
  intro _
  show Replayed (s.shared.segments seg).completed
    { (s.shared.segments seg).mem with mutex := 1 }
  rw [hfresh.unused, hfresh.content, cleared_all]
  exact ⟨[], rfl⟩

theorem start_step {result : ℤ} (hi : StartInv s) (hok : StartsApart (i, .run result) s)
    (h : start (pid i) (s.procs i) s.shared result = some (pc, k)) :
    StartInv { procs := Function.update s.procs i pc, shared := k } := by
  unfold StartsApart at hok
  by_cases hfailed : result < 0 ∧ (s.procs i).calling = true
  · obtain ⟨hseg, rfl⟩ := failed_call hfailed.2 hfailed.1 h
    exact idle_inv hi rfl hseg (calling_outside hfailed.2)
  have hsucceeds : (s.procs i).calling = true → ¬ result < 0 :=
    fun hcalling hresult => hfailed ⟨hresult, hcalling⟩
  cases hpc : s.procs i with
    (rw [hpc] at h hok hsucceeds; simp only [start] at h; try dsimp only at hok)
  | off =>
    cases h
    exact idle_inv hi hpc rfl rfl
  | shmOpen =>
    cases hentry : s.shared.entry with
    | none =>
      rw [hentry] at h
      cases h
      exact idle_inv hi hpc rfl rfl
    | some seg =>
      have hresult := hsucceeds rfl
      have hready := hok (not_lt.mp hresult)
      rw [Namespace.ready, hentry] at hready
      rw [hentry] at h
      dsimp only at h
      rw [if_neg hresult] at h
      cases h
      exact found_inv hi hpc hentry hready
  | shmOpenCreate =>
    have hresult := hsucceeds rfl
    rw [if_neg hresult, hok (not_lt.mp hresult)] at h
    cases h
    exact create_inv hi (by rw [hpc]; rfl)
  | ftruncate seg =>
    rw [if_neg (hsucceeds rfl)] at h
    cases h
    exact resize_inv hi hpc
  | setHead seg =>
    cases h
    exact set_head_inv hi hpc
  | setCount seg =>
    cases h
    exact set_count_inv hi hpc
  | setNode seg n field =>
    cases h
    exact set_node_inv hi hpc
  | semInit seg =>
    rw [if_neg (hsucceeds rfl)] at h
    cases h
    exact sem_init_inv hi hpc
  | mmapCreated seg | mmapExisting seg =>
    rw [if_neg (hsucceeds rfl)] at h
    cases h
    exact walk_inv hi hpc rfl rfl id (fun _ h => h) rfl
  | showCount seg =>
    by_cases hsized : (s.shared.segments seg).sized = true
    · rw [if_pos hsized] at h
      cases h
      exact walk_inv hi hpc rfl rfl id (fun _ h => h) rfl
    · rw [if_neg hsized] at h
      cases h
      exact idle_inv hi hpc rfl rfl
  | _ => cases h

theorem sem_wait_cases {shm shm' : SharedMemory} (h : semWait shm = .ok shm') :
    shm.mutex ≠ 0 ∧ shm' = { shm with mutex := shm.mutex-1 } := by
  unfold semWait at h
  by_cases hzero : shm.mutex = 0
  · rw [if_pos hzero] at h
    cases h
  · rw [if_neg hzero] at h
    exact ⟨hzero, (Except.ok.inj h).symm⟩

theorem sem_wait_step {command : Command} (hi : StartInv s)
    (hpc : s.procs i = .semWait seg command)
    {mem : SharedMemory} (h : semWait (s.shared.segments seg).mem = .ok mem) :
    StartInv { procs := Function.update s.procs i (.critical seg command),
               shared := s.shared.setMem seg mem } := by
  have hinit : (s.shared.segments seg).initialised = true := knows_at hi hpc rfl
  obtain ⟨hpos, hmem⟩ := sem_wait_cases h
  have hnone : ∀ j, (s.procs j).inside ≠ some seg := by
    intro j hj
    exact hpos (inside_mutex ((hi.knows j) seg (inside_seg hj)).2 hj)
  have hrep := hi.free seg hinit hnone
  rw [replayed_unlocked hrep] at hmem
  apply attached_inv hi hpc rfl rfl rfl
  · intro seg' h'
    exact (Option.some.inj h').symm
  · intro _
    exact ⟨hinit, _, hrep, hmem⟩
  · exact hinit
  · intro j _ hj
    exact absurd hj (hnone j)
  · intro seg' _ j _
    exact hnone j
  · intro h'
    cases h'

theorem critical_step {command : Command} (hi : StartInv s)
    (hpc : s.procs i = .critical seg command) : ∃ reply mem,
    commandSection (maxNodes+1) command (s.shared.segments seg).mem = .ok (reply, mem) ∧
      StartInv { procs := Function.update s.procs i (.semPost seg command reply),
                 shared := s.shared.setMem seg mem } := by
  have hin : (s.procs i).inside = some seg := by rw [hpc]; rfl
  obtain ⟨hinit, shm, hrep, hmem⟩ := knows_at hi hpc rfl
  obtain ⟨reply, mem, hcrit, -⟩ := replayed_command hrep 0 command
  refine ⟨reply, mem, by rw [hmem, hcrit], ?_⟩
  apply attached_inv hi hpc rfl rfl rfl
  · intro seg' h'
    exact (Option.some.inj h').symm
  · intro _
    exact ⟨hinit, shm, hrep, hcrit⟩
  · exact hinit
  · intro j hj hj'
    exact absurd (hi.inside j i seg hj' hin) hj
  · intro seg' _ j hj hj'
    exact hj (hi.inside j i seg hj' hin)
  · intro h'
    cases h'

theorem sem_post_step {command : Command} {reply : Reply} (hi : StartInv s)
    (hpc : s.procs i = .semPost seg command reply) :
    StartInv { procs := Function.update s.procs i (.menu seg),
               shared := s.shared.set seg { s.shared.segments seg with
                 mem := semPost (s.shared.segments seg).mem,
                 completed := (s.shared.segments seg).completed++command.ops (pid i) } } := by
  have hin : (s.procs i).inside = some seg := by rw [hpc]; rfl
  obtain ⟨hinit, shm, hrep, hcrit⟩ := knows_at hi hpc rfl
  apply attached_inv hi hpc rfl rfl rfl
  · intro seg' h'
    exact (Option.some.inj h').symm
  · intro _
    exact hinit
  · exact hinit
  · intro j hj hj'
    exact absurd (hi.inside j i seg hj' hin) hj
  · intro seg' h'
    cases h'
  · intro _ _
    obtain ⟨reply', mem, hcrit', hpost⟩ := replayed_command hrep (pid i) command
    rw [hcrit] at hcrit'
    cases hcrit'
    exact hpost

theorem operate_step (hi : StartInv s)
    (h : operate (pid i) (s.procs i) s.shared = some (pc, k)) :
    StartInv { procs := Function.update s.procs i pc, shared := k } := by
  cases hpc : s.procs i with (rw [hpc] at h; simp only [operate] at h)
  | semWait seg command =>
    cases hwait : semWait (s.shared.segments seg).mem with
    | error f =>
      rw [hwait] at h
      cases h
    | ok mem =>
      rw [hwait] at h
      cases h
      exact sem_wait_step hi hpc hwait
  | critical seg command =>
    obtain ⟨reply, mem, hcrit, hnext⟩ := critical_step hi hpc
    rw [hcrit] at h
    cases h
    exact hnext
  | semPost seg command reply =>
    cases h
    exact sem_post_step hi hpc
  | _ => cases h

theorem cleanup_step {result : ℤ} (hi : StartInv s)
    (h : cleanup (s.procs i) s.shared result = some (pc, k)) :
    StartInv { procs := Function.update s.procs i pc, shared := k } := by
  cases hpc : s.procs i with (rw [hpc] at h; simp only [cleanup] at h)
  | semDestroy seg =>
    cases h
    have hinit : (s.shared.segments seg).initialised = true := knows_at hi hpc rfl
    apply attached_inv hi hpc rfl rfl rfl
    · intro seg' h'
      cases h'
    · intro h'
      cases h'
    · exact hinit
    · intro j _ hj
      have hk := ((hi.knows j) seg (inside_seg hj)).2
      cases hq : s.procs j with (rw [hq] at hk hj)
      | critical seg' command => exact hk
      | semPost seg' command reply => exact hk
      | _ => cases hj
    · intro seg' h'
      cases h'
    · intro _ hnone
      exact free_beside hi hinit (by rw [hpc]; exact nofun) hnone
  | shmUnlink seg =>
    cases h
    by_cases hresult : result < 0
    · rw [if_pos hresult]
      exact idle_inv hi hpc rfl rfl
    · rw [if_neg hresult]
      have hsegs : ({ s.shared with entry := none } : Namespace).segments =
          s.shared.segments := rfl
      apply move_inv hi _ _ (by rw [hpc]; rfl) hsegs rfl
      · intro seg' h'
        cases h'
      · intro seg' h'
        cases h'
      · intro seg' h'
        cases h'
  | _ => cases h

theorem act_step {a : ι × Event} {t : Instances ι} (hi : StartInv s) (hok : StartsApart a s)
    (h : Sharing.step (act pid) a s = some t) : StartInv t := by
  obtain ⟨i, e⟩ := a
  obtain ⟨pc, k, hact, rfl⟩ := Sharing.step_next (act pid) h
  unfold act at hact
  dsimp only at hact hok ⊢
  cases e with
  | run result =>
    dsimp only at hact
    split at hact
    · exact operate_step hi hact
    · exact operate_step hi hact
    · exact operate_step hi hact
    · exact cleanup_step hi hact
    · exact cleanup_step hi hact
    · exact start_step hi hok hact
  | command command =>
    dsimp only at hact
    split at hact
    · rename_i seg hpc
      cases hact
      exact walk_inv hi hpc rfl rfl id (fun _ h => h) rfl
    · cases hact
  | leave =>
    dsimp only at hact
    split at hact
    · rename_i seg hpc
      cases hact
      exact walk_inv hi hpc rfl rfl id (fun _ h => h) rfl
    · cases hact
  | answer remove =>
    dsimp only at hact
    split at hact
    · rename_i seg hpc
      cases hact
      cases remove with
      | false => exact idle_inv hi hpc rfl rfl
      | true => exact walk_inv hi hpc rfl rfl id (fun _ h => h) rfl
    · cases hact

end Step

theorem reachable_start_inv {ι : Type} [DecidableEq ι] {pid : ι → Pid} {s : Instances ι}
    (h : ReachableAlong (Sharing.step (act pid)) StartsApart noSegment s) : StartInv s := by
  apply reachable_along_invariant (Sharing.step (act pid)) StartInv _ _ h
  · constructor
    · intro i seg hseg
      cases hseg
    · exact alone_of_empty fun i => rfl
    · exact alone_of_empty fun i => rfl
    · intro seg hinit
      cases hinit
    · intro seg hentry
      cases hentry
  · intro a s t hi hok hstep
    exact act_step hi hok hstep

theorem operating_seg {pc : Pc} {seg : ℕ} (h : pc.operating = some seg) :
    pc.seg = some seg ∧ pc.settingUp = none := by
  cases pc <;> first | exact ⟨h, rfl⟩ | cases h

theorem initialising_set_up {pc : Pc} {seg : ℕ} (h : pc.initialising = some seg) :
    pc.settingUp = some seg := by
  cases pc <;> first | exact h | cases h

theorem set_up_unused {pc : Pc} {sg : Segment} {seg : ℕ} (hk : pc.knowsSegment sg)
    (h : pc.settingUp = some seg) : sg.completed = [] := by
  cases pc with
  | ftruncate | mmapCreated | setHead | setCount | semInit => exact hk.unused
  | setNode => exact hk.2.unused
  | _ => cases h

/-- Where no start runs into the initialisation of another one, operations
are performed on initialised segments only, no store of an initialisation
follows a completed operation, and a segment whose mutex is free holds the
list that the completed operations left. -/
theorem started_safely {ι : Type} [DecidableEq ι] (pid : ι → Pid) (s : Instances ι)
    (h : ReachableAlong (Sharing.step (act pid)) StartsApart noSegment s) :
    (∀ i seg, (s.procs i).operating = some seg →
      (s.shared.segments seg).initialised = true) ∧
    (∀ i seg, (s.procs i).initialising = some seg →
      (s.shared.segments seg).completed = []) ∧
    ∀ seg, (s.shared.segments seg).initialised = true →
      (∀ i, (s.procs i).inside ≠ some seg) → ∃ answers,
        run (step (maxNodes+1)) (s.shared.segments seg).completed (initialise zeroFilled) =
          .ok (answers, (s.shared.segments seg).mem) := by
  have hi := reachable_start_inv h
  refine ⟨fun i seg hop => ?_, fun i seg hinit => ?_, hi.free⟩
  · obtain ⟨hseg, hset⟩ := operating_seg hop
    exact attached_initialised ((hi.knows i) seg hseg).2 hset
  · have hset := initialising_set_up hinit
    exact set_up_unused ((hi.knows i) seg (set_up_seg hset)).2 hset

def startUp {n : ℕ} (i : Fin n) : List (Fin n × Event) := List.replicate 308 (i, .run 0)

def secondJoins : List (Fin 2 × Event) :=
  [startUp 0, [(1, .run 0), (1, .run 3), (1, .run 0), (0, .command (.list (.insert 7))), (0, .run 0),
    (1, .run 0), (0, .run 0), (0, .run 0), (1, .run 0), (1, .run 0), (1, .run 0)]].flatten

theorem second_joins_run :
    (exec (Sharing.step (act Fin.val)) secondJoins noSegment).isSome = true := by
  decide +kernel

def joined : Instances (Fin 2) :=
  (exec (Sharing.step (act Fin.val)) secondJoins noSegment).get second_joins_run

theorem second_finds_insertion : (joined.procs 1).operating = none ∧ ∃ answers,
    run (step (maxNodes+1)) [(0, .insert 7), (1, .print)] (initialise zeroFilled) =
      .ok (answers, (joined.shared.segments 0).mem) := by
  have hreach : ReachableAlong (Sharing.step (act Fin.val)) StartsApart noSegment joined :=
    reachable_along_get second_joins_run (by decide +kernel)
  obtain ⟨-, -, hlist⟩ := started_safely Fin.val joined hreach
  have hdone : (joined.shared.segments 0).completed = [(0, .insert 7), (1, .print)] := by
    decide +kernel
  have hmem := hlist 0 (by decide +kernel) (by decide +kernel)
  rw [hdone] at hmem
  exact ⟨by decide +kernel, hmem⟩

def joinsTooEarly : List (Fin 2 × Event) :=
  [(0, .run 0), (0, .run 0), (0, .run 0), (0, .run 0), (1, .run 0), (1, .run 3), (1, .run 0),
    (1, .run 0)]

/-- Instance 1 has looked for a segment before instance 0 created it, and
creates it again after instance 0 has inserted an element. -/
def createsAgain : List (Fin 2 × Event) :=
  [[(1, .run 0), (1, .run 0)], startUp 0, [(0, .command (.list (.insert 5))), (0, .run 0), (0, .run 0),
    (0, .run 0), (1, .run 3), (1, .run 0), (1, .run 0)]].flatten

theorem joins_too_early_run :
    (exec (Sharing.step (act Fin.val)) joinsTooEarly noSegment).isSome = true := by
  decide +kernel

theorem creates_again_run :
    (exec (Sharing.step (act Fin.val)) createsAgain noSegment).isSome = true := by
  decide +kernel

theorem overlapping_starts :
    (¬ ∀ s : Instances (Fin 2), Reachable (Sharing.step (act Fin.val)) noSegment s → ∀ i seg,
      (s.procs i).operating = some seg → (s.shared.segments seg).initialised = true) ∧
    ¬ ∀ s : Instances (Fin 2), Reachable (Sharing.step (act Fin.val)) noSegment s → ∀ i seg,
      (s.procs i).initialising = some seg → (s.shared.segments seg).completed = [] := by
  constructor
  · intro hclaim
    have hinit := hclaim _ (reachable_get joins_too_early_run) 1 0 (by decide +kernel)
    exact absurd hinit (by decide +kernel)
  · intro hclaim
    have hunused := hclaim _ (reachable_get creates_again_run) 1 0 (by decide +kernel)
    exact absurd hunused (by decide +kernel)

end ProgSistema.SharedList
