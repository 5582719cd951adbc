import ProgSistema.SharedList.Startup

/-!
# Removing the segment

An instance that leaves may destroy the mutex and then take the name away,
whether or not others still use the segment. Where the last user does so, and
nobody opens the segment between the two calls, every instance works on the
segment that the name denotes, and its mutex is intact.
-/

set_option autoImplicit false

namespace ProgSistema.SharedList
open Runs Semaphore

def Pc.starting : Pc → Bool
  | .shmOpen | .shmOpenCreate | .ftruncate _ | .mmapCreated _ | .setHead _ | .setCount _
  | .setNode _ _ _ | .semInit _ | .mmapExisting _ | .showCount _ => true
  | _ => false

def Pc.usesMutex : Pc → Option ℕ
  | .semWait seg _ | .critical seg _ | .semPost seg _ _ | .semDestroy seg => some seg
  | _ => none

def Pc.running : Pc → Option ℕ
  | .menu seg | .semWait seg _ | .critical seg _ | .semPost seg _ _ => some seg
  | _ => none

def Pc.unlinking : Pc → Option ℕ
  | .shmUnlink seg => some seg
  | _ => none

def Namespace.intact (k : Namespace) : Bool :=
  match k.entry with
  | none => true
  | some seg => !(k.segments seg).destroyed

/-- Starts are one after another, and each call of a start succeeds. -/
def StartsInTurn {ι : Type} (a : ι × Event) (s : Instances ι) : Prop :=
  match s.procs a.1, a.2 with
  | .off, .run _ => ∀ j, j ≠ a.1 → (s.procs j).starting = false
  | .shmOpen, .run result => s.shared.entry ≠ none → 0 ≤ result
  | pc, .run result => pc.starting = true → 0 ≤ result
  | _, _ => True

/-- The mutex is destroyed only when no other instance has the segment open,
and a segment is opened only while its mutex is intact. -/
def RemovedLast {ι : Type} (a : ι × Event) (s : Instances ι) : Prop :=
  match s.procs a.1 with
  | .semDestroy seg => ∀ j, j ≠ a.1 → (s.procs j).seg ≠ some seg
  | .shmOpen => s.shared.intact = true
  | _ => True

instance {ι : Type} [DecidableEq ι] [Fintype ι] (s : Instances ι) : (a : ι × Event) →
    Decidable (StartsInTurn a s)
  | (i, .run result) =>
    match h : s.procs i with
    | .off => decidable_of_iff (∀ j, j ≠ i → (s.procs j).starting = false)
        (by simp [StartsInTurn, h])
    | .shmOpen => decidable_of_iff (s.shared.entry.isSome = true → 0 ≤ result)
        (by simp [StartsInTurn, h, Option.isSome_iff_ne_none])
    | .shmOpenCreate | .ftruncate _ | .mmapCreated _ | .setHead _ | .setCount _ | .setNode _ _ _
    | .semInit _ | .mmapExisting _ | .showCount _ =>
      decidable_of_iff (0 ≤ result) (by simp [StartsInTurn, h, Pc.starting])
    | .menu _ | .semWait _ _ | .critical _ _ | .semPost _ _ _ | .askRemoval _ | .semDestroy _
    | .shmUnlink _ | .ended | .crashed => isTrue (by simp [StartsInTurn, h, Pc.starting])
  | (i, .command _) | (i, .leave) | (i, .answer _) => isTrue (by simp [StartsInTurn])

instance {ι : Type} [DecidableEq ι] [Fintype ι] (s : Instances ι) (a : ι × Event) :
    Decidable (RemovedLast a s) :=
  match h : s.procs a.1 with
  | .semDestroy seg => decidable_of_iff (∀ j, j ≠ a.1 → (s.procs j).seg ≠ some seg)
      (by simp [RemovedLast, h])
  | .shmOpen => decidable_of_iff (s.shared.intact = true) (by simp [RemovedLast, h])
  | .off | .shmOpenCreate | .ftruncate _ | .mmapCreated _ | .setHead _ | .setCount _
  | .setNode _ _ _ | .semInit _ | .mmapExisting _ | .showCount _ | .menu _ | .semWait _ _
  | .critical _ _ | .semPost _ _ _ | .askRemoval _ | .shmUnlink _ | .ended | .crashed =>
    isTrue (by simp [RemovedLast, h])

def InTurn {ι : Type} (a : ι × Event) (s : Instances ι) : Prop := StartsInTurn a s ∧ RemovedLast a s

instance {ι : Type} [DecidableEq ι] [Fintype ι] (s : Instances ι) (a : ι × Event) :
    Decidable (InTurn a s) :=
  inferInstanceAs (Decidable (StartsInTurn a s ∧ RemovedLast a s))

structure Pc.sees (pc : Pc) (k : Namespace) : Prop where
  opened : ∀ seg, pc.seg = some seg →
    k.entry = some seg ∧ (k.segments seg).destroyed = false
  removed : ∀ seg, pc.unlinking = some seg →
    k.entry = some seg ∧ (k.segments seg).destroyed = true
  absent : pc = .shmOpenCreate → k.entry = none

structure RemovalInv {ι : Type} (s : Instances ι) : Prop where
  sees : ∀ i, (s.procs i).sees s.shared
  starting : ∀ i j, (s.procs i).starting = true → (s.procs j).starting = true → i = j
  unlinking : Alone fun i => (s.procs i).unlinking

section Knowledge
variable {ι : Type} {s : Instances ι} {i : ι} {pc : Pc} {k : Namespace}

theorem others_not_starting (hi : RemovalInv s) (h : (s.procs i).starting = true) (j : ι)
    (hj : j ≠ i) : (s.procs j).starting = false := by
  by_contra hne
  exact hj (hi.starting j i (by simpa using hne) h)

theorem sees_congr (hentry : k.entry = s.shared.entry)
    (hsame : ∀ seg, (k.segments seg).destroyed = (s.shared.segments seg).destroyed)
    (h : pc.sees s.shared) : pc.sees k := by
  constructor
  · intro seg hseg
    rw [hentry, hsame]
    exact h.opened seg hseg
  · intro seg hseg
    rw [hentry, hsame]
    exact h.removed seg hseg
  · intro hpc
    rw [hentry]
    exact h.absent hpc

end Knowledge

section Step
variable {ι : Type} [DecidableEq ι] {pid : ι → Pid} {s : Instances ι} {i : ι} {pc : Pc}
  {k : Namespace} {seg : ℕ}

theorem removal_inv_update (hi : RemovalInv s) (hself : pc.sees k)
    (hothers : ∀ j, j ≠ i → (s.procs j).sees k)
    (hstart : pc.starting = true → ∀ j, j ≠ i → (s.procs j).starting = false)
    (hun : ∀ seg, pc.unlinking = some seg → ∀ j, j ≠ i → (s.procs j).unlinking ≠ some seg) :
    RemovalInv { procs := Function.update s.procs i pc, shared := k } := by
  constructor
  · exact (Function.forall_update_iff s.procs fun _ q => q.sees k).mpr ⟨hself, hothers⟩
  · apply Sharing.pairs_update fun (j : ι) (q : Pc) (l : ι) (q' : Pc) =>
      q.starting = true → q'.starting = true → j = l
    · intro j q l q' hsame hq hq'
      exact (hsame hq' hq).symm
    · intro _ _
      rfl
    · intro j hj hpc hj'
      rw [hstart hpc j hj] at hj'
      cases hj'
    · exact hi.starting
  · show Alone fun j => (Function.update s.procs i pc j).unlinking
    rw [Sharing.keys_update Pc.unlinking]
    exact alone_update hi.unlinking i _ hun

/-- A step that leaves the name and the state of every mutex alone. -/
theorem keep_inv (hi : RemovalInv s) (hentry : k.entry = s.shared.entry)
    (hsame : ∀ seg, (k.segments seg).destroyed = (s.shared.segments seg).destroyed)
    (hseg : ∀ seg, pc.seg = some seg → s.shared.entry = some seg ∧
      (s.shared.segments seg).destroyed = false)
    (hun : pc.unlinking = none) (hcreate : pc = .shmOpenCreate → s.shared.entry = none)
    (hstart : pc.starting = true → ∀ j, j ≠ i → (s.procs j).starting = false) :
    RemovalInv { procs := Function.update s.procs i pc, shared := k } := by
  apply removal_inv_update hi
  · apply sees_congr hentry hsame
    constructor
    · exact hseg
    · intro seg h
      rw [hun] at h
      cases h
    · exact hcreate
  · intro j _
    exact sees_congr hentry hsame (hi.sees j)
  · exact hstart
  · intro seg h
    rw [hun] at h
    cases h

/-- A step from `q` that stays with the segment of the instance. -/
theorem same_seg_inv {q : Pc} (hi : RemovalInv s) (hpc : s.procs i = q)
    (hentry : k.entry = s.shared.entry)
    (hsame : ∀ seg, (k.segments seg).destroyed = (s.shared.segments seg).destroyed)
    (hseg : ∀ seg, pc.seg = some seg → q.seg = some seg)
    (hun : pc.unlinking = none) (hcreate : pc ≠ .shmOpenCreate)
    (hstart : pc.starting = true → q.starting = true) :
    RemovalInv { procs := Function.update s.procs i pc, shared := k } := by
  subst hpc
  apply keep_inv hi hentry hsame
  · intro seg h
    exact (hi.sees i).opened seg (hseg seg h)
  · exact hun
  · intro h
    exact absurd h hcreate
  · intro h j hj
    exact others_not_starting hi (hstart h) j hj

theorem gone_inv (hi : RemovalInv s) (i : ι) (hpc : pc = .ended ∨ pc = .crashed) :
    RemovalInv { procs := Function.update s.procs i pc, shared := s.shared } := by
  rcases hpc with rfl | rfl <;>
    exact same_seg_inv hi rfl rfl (fun _ => rfl) (fun _ h => by cases h) rfl (by simp)
      (fun h => by cases h)

theorem set_destroyed (k : Namespace) (seg : ℕ) (sg : Segment)
    (h : sg.destroyed = (k.segments seg).destroyed) (seg' : ℕ) :
    ((k.set seg sg).segments seg').destroyed = (k.segments seg').destroyed := by
  by_cases hsame : seg' = seg
  · subst hsame
    rw [set_self, h]
  · rw [set_other k sg hsame]

/-- A process that starts finds a segment that has not been destroyed. -/
theorem found_removal {seg : ℕ} (hi : RemovalInv s) (hpc : s.procs i = .shmOpen)
    (hentry : s.shared.entry = some seg) (hintact : (s.shared.segments seg).destroyed = false) :
    RemovalInv { procs := Function.update s.procs i (.mmapExisting seg), shared := s.shared } := by
  apply keep_inv hi rfl (fun _ => rfl) _ rfl
  · intro h
    cases h
  · intro _ j hj
    exact others_not_starting hi (by rw [hpc]; rfl) j hj
  · intro seg' h
    cases h
    exact ⟨hentry, hintact⟩

/-- Nobody uses a segment while there is none, and the one that is created is new. -/
theorem create_removal (hi : RemovalInv s) (hpc : s.procs i = .shmOpenCreate)
    (hnone : s.shared.entry = none) :
    RemovalInv { procs := Function.update s.procs i (.ftruncate s.shared.nextSegment),
                 shared := s.shared.create (pid i) } := by
  apply removal_inv_update hi
  · constructor
    · intro seg hseg
      cases hseg
      refine ⟨rfl, ?_⟩
      show (Function.update s.shared.segments s.shared.nextSegment _
        s.shared.nextSegment).destroyed = false
      rw [Function.update_self]
    · intro seg hseg
      cases hseg
    · intro h
      cases h
  · intro j hj
    constructor
    · intro seg hseg
      rw [((hi.sees j).opened seg hseg).1] at hnone
      cases hnone
    · intro seg hseg
      rw [((hi.sees j).removed seg hseg).1] at hnone
      cases hnone
    · intro hj'
      exact absurd (hi.starting j i (by rw [hj']; rfl) (by rw [hpc]; rfl)) hj
  · intro _ j hj
    exact others_not_starting hi (by rw [hpc]; rfl) j hj
  · intro seg hseg
    cases hseg

theorem after_field_cases (seg n : ℕ) (field : Field) :
    (∃ m field', afterField seg n field = .setNode seg m field') ∨
      afterField seg n field = .semInit seg := by
  cases field with
  | isFree | nextOffset => exact .inl ⟨_, _, rfl⟩
  | data =>
    rw [afterField]
    by_cases hlast : n+1 < maxNodes
    · rw [if_pos hlast]
      exact .inl ⟨_, _, rfl⟩
    · rw [if_neg hlast]
      exact .inr rfl

theorem start_removal {result : ℤ} (hi : RemovalInv s)
    (hok : StartsInTurn (i, .run result) s) (hlast : RemovedLast (i, .run result) s)
    (h : start (pid i) (s.procs i) s.shared result = some (pc, k)) :
    RemovalInv { procs := Function.update s.procs i pc, shared := k } := by
  unfold StartsInTurn at hok
  unfold RemovedLast at hlast
  have hsees := hi.sees i
  cases hpc : s.procs i with
    (rw [hpc] at h hok hlast hsees; simp only [start] at h; try dsimp only at hok hlast)
  | off =>
    cases h
    apply keep_inv hi rfl (fun _ => rfl) _ rfl
    · intro h
      cases h
    · intro _
      exact hok
    · intro seg h
      cases h
  | shmOpen =>
    cases hentry : s.shared.entry with
    | none =>
      rw [hentry] at h
      cases h
      apply keep_inv hi rfl (fun _ => rfl) _ rfl (fun _ => hentry)
      · intro _ j hj
        exact others_not_starting hi (by rw [hpc]; rfl) j hj
      · intro seg h
        cases h
    | some seg =>
      rw [hentry] at h
      dsimp only at h
      rw [if_neg (not_lt.mpr (hok (by rw [hentry]; simp)))] at h
      cases h
      rw [Namespace.intact, hentry] at hlast
      exact found_removal hi hpc hentry (by simpa using hlast)
  | shmOpenCreate =>
    have hnone := hsees.absent rfl
    rw [if_neg (not_lt.mpr (hok rfl)), hnone] at h
    cases h
    exact create_removal hi hpc hnone
  | ftruncate seg =>
    split at h
    · cases h
      exact gone_inv hi i (.inl rfl)
    · cases h
      exact same_seg_inv hi hpc rfl (set_destroyed _ _ _ rfl) (fun _ h => h) rfl (by simp)
        fun _ => rfl
  | mmapCreated seg | mmapExisting seg =>
    cases h
    split
    · exact gone_inv hi i (.inl rfl)
    · exact same_seg_inv hi hpc rfl (fun _ => rfl) (fun _ h => h) rfl (by simp) fun _ => rfl
  | setHead seg | setCount seg =>
    cases h
    exact same_seg_inv hi hpc rfl (set_destroyed _ _ _ rfl) (fun _ h => h) rfl (by simp)
      fun _ => rfl
  | setNode seg n field =>
    cases h
    rcases after_field_cases seg n field with ⟨m, field', hnext⟩ | hnext
    · rw [hnext]
      exact same_seg_inv hi hpc rfl (set_destroyed _ _ _ rfl) (fun _ h => h) rfl (by simp)
        fun _ => rfl
    · rw [hnext]
      exact same_seg_inv hi hpc rfl (set_destroyed _ _ _ rfl) (fun _ h => h) rfl (by simp)
        fun _ => rfl
  | semInit seg =>
    split at h
    · cases h
      exact gone_inv hi i (.inl rfl)
    · cases h
      exact same_seg_inv hi hpc rfl (set_destroyed _ _ _ (hsees.opened seg rfl).2.symm)
        (fun _ h => h) rfl (by simp) fun _ => rfl
  | showCount seg =>
    cases h
    split
    · exact same_seg_inv hi hpc rfl (fun _ => rfl) (fun _ h => h) rfl (by simp) fun _ => rfl
    · exact gone_inv hi i (.inr rfl)
  | _ => cases h

theorem operate_removal (hi : RemovalInv s)
    (h : operate (pid i) (s.procs i) s.shared = some (pc, k)) :
    RemovalInv { procs := Function.update s.procs i pc, shared := k } := by
  cases hpc : s.procs i with (rw [hpc] at h; simp only [operate] at h)
  | semWait seg command =>
    cases hwait : semWait (s.shared.segments seg).mem with
    | error f =>
      rw [hwait] at h
      cases h
    | ok mem =>
      rw [hwait] at h
      cases h
      exact same_seg_inv hi hpc rfl (set_destroyed _ _ _ rfl) (fun _ h => h) rfl (by simp) id
  | critical seg command =>
    split at h
    · cases h
    · cases h
      exact gone_inv hi i (.inr rfl)
    · cases h
      exact same_seg_inv hi hpc rfl (set_destroyed _ _ _ rfl) (fun _ h => h) rfl (by simp) id
  | semPost seg command reply =>
    cases h
    exact same_seg_inv hi hpc rfl (set_destroyed _ _ _ rfl) (fun _ h => h) rfl (by simp) id
  | _ => cases h

/-- The last user destroys the mutex; the name still denotes the segment. -/
theorem destroy_inv (hi : RemovalInv s) (hpc : s.procs i = .semDestroy seg)
    (hlast : ∀ j, j ≠ i → (s.procs j).seg ≠ some seg) :
    RemovalInv { procs := Function.update s.procs i (.shmUnlink seg),
                 shared := s.shared.set seg
                   { s.shared.segments seg with destroyed := true } } := by
  obtain ⟨hentry, hintact⟩ := (hi.sees i).opened seg (by rw [hpc]; rfl)
  have hidle : ∀ j, j ≠ i → ∀ seg', (s.procs j).unlinking ≠ some seg' := by
    intro j _ seg' hun
    obtain ⟨hentry', hdestroyed⟩ := (hi.sees j).removed seg' hun
    rw [hentry] at hentry'
    cases hentry'
    rw [hintact] at hdestroyed
    cases hdestroyed
  apply removal_inv_update hi
  · constructor
    · intro seg' hseg
      cases hseg
    · intro seg' hseg
      cases hseg
      rw [set_self]
      exact ⟨hentry, rfl⟩
    · intro h
      cases h
  · intro j hj
    constructor
    · intro seg' hseg
      have hentry' := ((hi.sees j).opened seg' hseg).1
      rw [hentry] at hentry'
      cases hentry'
      exact absurd hseg (hlast j hj)
    · intro seg' hun
      exact absurd hun (hidle j hj seg')
    · exact (hi.sees j).absent
  · intro h
    cases h
  · intro seg' _ j hj
    exact hidle j hj seg'

/-- The name is taken away from a segment that nobody uses. -/
theorem unlink_inv (hi : RemovalInv s) (hpc : s.procs i = .shmUnlink seg) :
    RemovalInv { procs := Function.update s.procs i .ended,
                 shared := { s.shared with entry := none } } := by
  have hun : (s.procs i).unlinking = some seg := by rw [hpc]; rfl
  obtain ⟨hentry, hdestroyed⟩ := (hi.sees i).removed seg hun
  apply removal_inv_update hi
  · constructor
    · intro seg' hseg
      cases hseg
    · intro seg' hseg
      cases hseg
    · intro h
      cases h
  · intro j hj
    constructor
    · intro seg' hseg
      obtain ⟨hentry', hintact⟩ := (hi.sees j).opened seg' hseg
      rw [hentry] at hentry'
      cases hentry'
      rw [hdestroyed] at hintact
      cases hintact
    · intro seg' hun'
      have hentry' := ((hi.sees j).removed seg' hun').1
      rw [hentry] at hentry'
      cases hentry'
      exact absurd (hi.unlinking j i seg hun' hun) hj
    · intro _
      rfl
  · intro h
    cases h
  · intro seg' h
    cases h

theorem act_removal {a : ι × Event} {t : Instances ι} (hi : RemovalInv s) (hok : InTurn a s)
    (h : Sharing.step (act pid) a s = some t) : RemovalInv t := by
  obtain ⟨i, e⟩ := a
  obtain ⟨pc, k, hact, rfl⟩ := Sharing.step_next (act pid) h
  obtain ⟨hturn, hlast⟩ := hok
  unfold act at hact
  dsimp only at hact ⊢
  cases e with
  | run result =>
    dsimp only at hact
    split at hact
    · exact operate_removal hi hact
    · exact operate_removal hi hact
    · exact operate_removal hi hact
    · rename_i seg hpc
      rw [hpc] at hact
      cases hact
      rw [RemovedLast, hpc] at hlast
      exact destroy_inv hi hpc hlast
    · rename_i seg hpc
      rw [hpc] at hact
      cases hact
      split
      · exact gone_inv hi i (.inl rfl)
      · exact unlink_inv hi hpc
    · exact start_removal hi hturn hlast hact
  | command command =>
    dsimp only at hact
    split at hact
    · rename_i seg hpc
      cases hact
      exact same_seg_inv hi hpc rfl (fun _ => rfl) (fun _ h => h) rfl (by simp) id
    · cases hact
  | leave =>
    dsimp only at hact
    split at hact
    · rename_i seg hpc
      cases hact
      exact same_seg_inv hi hpc rfl (fun _ => rfl) (fun _ h => h) rfl (by simp) id
    · cases hact
  | answer remove =>
    dsimp only at hact
    split at hact
    · rename_i seg hpc
      cases hact
      cases remove with
      | false => exact gone_inv hi i (.inl rfl)
      | true => exact same_seg_inv hi hpc rfl (fun _ => rfl) (fun _ h => h) rfl (by simp) id
    · cases hact

end Step

theorem reachable_removal_inv {ι : Type} [DecidableEq ι] {pid : ι → Pid} {s : Instances ι}
    (h : ReachableAlong (Sharing.step (act pid)) InTurn noSegment s) : RemovalInv s := by
  apply reachable_along_invariant (Sharing.step (act pid)) RemovalInv _ _ h
  · constructor
    · intro i
      constructor
      · intro seg hseg
        cases hseg
      · intro seg hseg
        cases hseg
      · intro hpc
        cases hpc
    · intro i j hi
      cases hi
    · exact alone_of_empty fun i => rfl
  · intro a s t hi hok hstep
    exact act_removal hi hok hstep

theorem uses_mutex_seg {pc : Pc} {seg : ℕ} (h : pc.usesMutex = some seg) : pc.seg = some seg := by
  cases pc <;> first | exact h | cases h

theorem running_seg {pc : Pc} {seg : ℕ} (h : pc.running = some seg) : pc.seg = some seg := by
  cases pc <;> first | exact h | cases h

/-- Where the segment is removed by its last user only, no semaphore operation
meets a destroyed mutex, and all instances that run work on one list. -/
theorem removed_safely {ι : Type} [DecidableEq ι] (pid : ι → Pid) (s : Instances ι)
    (h : ReachableAlong (Sharing.step (act pid)) InTurn noSegment s) :
    (∀ i seg, (s.procs i).usesMutex = some seg → (s.shared.segments seg).destroyed = false) ∧
    ∀ i j seg seg', (s.procs i).running = some seg → (s.procs j).running = some seg' →
      seg = seg' := by
  have hi := reachable_removal_inv h
  constructor
  · intro i seg huse
    exact ((hi.sees i).opened seg (uses_mutex_seg huse)).2
  · intro i j seg seg' hrun hrun'
    have hentry := ((hi.sees i).opened seg (running_seg hrun)).1
    rw [((hi.sees j).opened seg' (running_seg hrun')).1] at hentry
    exact (Option.some.inj hentry).symm

def lastRemoves : List (Fin 3 × Event) :=
  [startUp 0, [(1, .run 0), (1, .run 3), (1, .run 0), (1, .run 0), (0, .leave), (1, .run 0),
    (0, .answer false), (1, .run 0), (1, .run 0), (1, .leave), (1, .answer true), (1, .run 0),
    (1, .run 0)], startUp 2, [(2, .command (.list .count))]].flatten

theorem last_removes_run :
    (exec (Sharing.step (act Fin.val)) lastRemoves noSegment).isSome = true := by
  decide +kernel

def renewed : Instances (Fin 3) :=
  (exec (Sharing.step (act Fin.val)) lastRemoves noSegment).get last_removes_run

theorem renewed_intact : (renewed.procs 2).usesMutex = some 1 ∧
    (renewed.shared.segments 0).destroyed = true ∧
    (renewed.shared.segments 1).destroyed = false := by
  have hreach : ReachableAlong (Sharing.step (act Fin.val)) InTurn noSegment renewed :=
    reachable_along_get last_removes_run (by decide +kernel)
  obtain ⟨hintact, -⟩ := removed_safely Fin.val renewed hreach
  have huse : (renewed.procs 2).usesMutex = some 1 := by decide +kernel
  exact ⟨huse, by decide +kernel, hintact 2 1 huse⟩

/-- Instance 0 removes the segment while instance 1 is in its menu, instance 1
goes on counting, and instance 2 starts. -/
def removedInUse : List (Fin 3 × Event) :=
  [startUp 0, [(1, .run 0), (1, .run 3), (1, .run 0), (1, .run 0), (1, .run 0), (1, .run 0),
    (1, .run 0), (0, .leave), (0, .answer true), (0, .run 0), (0, .run 0),
    (1, .command (.list .count))], startUp 2].flatten

theorem removed_in_use_run :
    (exec (Sharing.step (act Fin.val)) removedInUse noSegment).isSome = true := by
  decide +kernel

def orphaned : Instances (Fin 3) :=
  (exec (Sharing.step (act Fin.val)) removedInUse noSegment).get removed_in_use_run

theorem removed_while_in_use :
    (¬ ∀ s : Instances (Fin 3),
      ReachableAlong (Sharing.step (act Fin.val)) StartsInTurn noSegment s → ∀ i seg,
        (s.procs i).usesMutex = some seg → (s.shared.segments seg).destroyed = false) ∧
    ¬ ∀ s : Instances (Fin 3),
      ReachableAlong (Sharing.step (act Fin.val)) StartsInTurn noSegment s → ∀ i j seg seg',
        (s.procs i).running = some seg → (s.procs j).running = some seg' → seg = seg' := by
  have hreach : ReachableAlong (Sharing.step (act Fin.val)) StartsInTurn noSegment orphaned :=
    reachable_along_get removed_in_use_run (by decide +kernel)
  constructor
  · intro hclaim
    have hintact := hclaim orphaned hreach 1 0 (by decide +kernel)
    exact absurd hintact (by decide +kernel)
  · intro hclaim
    have hsame := hclaim orphaned hreach 1 2 0 1 (by decide +kernel)
      (by decide +kernel)
    exact absurd hsame (by decide)

end ProgSistema.SharedList
