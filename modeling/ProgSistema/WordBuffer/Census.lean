import ProgSistema.WordBuffer.Model

/-!
# Which processes exist

The parent forks three workers at most, and none unless it has loaded a word.
The kernel records each worker that exits, once, so that the parent gets past
its last `wait` only when all three have exited.
-/

set_option autoImplicit false

namespace ProgSistema.WordBuffer

def Process.gone (q : Process) : Prop := q.pc = .exited ∨ q.handler = some .exited

def Pc.inMain : Pc → Bool
  | .fork _ | .wait _ | .finalTest | .terminate | .printed | .failed | .crashed => true
  | _ => false

def Pc.inside : Pc → Option Unit
  | .testTurn | .chooseWord | .checkSpace _ | .putSpace _ | .bumpPos _ | .copyWord _
  | .addLength _ | .countWord _ | .passTurn | .postMutex _ => some ()
  | _ => none

def Pc.pastWaits : Pc → Bool
  | .finalTest | .terminate | .printed => true
  | _ => false

structure Process.Placed (words : List Bytes) (p : ProcessId) (q : Process) (k : Shared) :
    Prop where
  program : q.pc = .crashed ∨ (q.pc.inMain = true ↔ p = .parent)
  forking : ∀ i, q.pc = .fork i → i < numProcesses ∧ k.forked ≤ i ∧ words ≠ []
  waiting : ∀ i, q.pc = .wait i → i < numProcesses
  waited : q.pc.pastWaits = true → numProcesses ≤ k.exited.length
  born : ∀ id, p = .worker id → q.pc = .unborn ∨ id < k.forked
  interrupted : q.handler ≠ none → q.pc.alive = true

structure Census (words : List Bytes) (s : Processes) : Prop where
  placed : ∀ p, (s.procs p).Placed words p s.shared
  forked : s.shared.forked ≤ numProcesses
  loaded : s.shared.forked ≠ 0 → words ≠ []
  once : s.shared.exited.Nodup
  exited : ∀ id ∈ s.shared.exited, (s.procs (.worker id)).gone

section Act
variable {words : List Bytes} {p : ProcessId} {e : Event} {q q' : Process} {k k' : Shared}

theorem Process.Placed.mono (h : q.Placed words p k)
    (hforked : k'.forked = k.forked ∨ p ≠ .parent ∧ k.forked ≤ k'.forked)
    (hexited : k.exited.length ≤ k'.exited.length) : q.Placed words p k' where
  program := h.program
  forking i hpc := by
    rcases hforked with hsame | ⟨hp, -⟩
    · rw [hsame]
      exact h.forking i hpc
    · rcases h.program with hcrash | hmain
      · rw [hcrash] at hpc
        cases hpc
      · rw [hpc] at hmain
        exact absurd (hmain.mp rfl) hp
  waiting := h.waiting
  waited hpc := (h.waited hpc).trans hexited
  born id hp := by
    apply (h.born id hp).imp (fun hpc => hpc)
    intro hlt
    rcases hforked with hsame | ⟨-, hle⟩
    · rw [hsame]
      exact hlt
    · exact hlt.trans_le hle
  interrupted := h.interrupted

structure Recorded (words : List Bytes) (p : ProcessId) (q q' : Process) (k k' : Shared) :
    Prop where
  here : ¬ q.gone
  placed : q'.Placed words p k'
  forked : k'.forked = k.forked ∨
    p = .parent ∧ k.forked ≤ k'.forked ∧ k'.forked ≤ numProcesses ∧ words ≠ []
  exits : k'.exited = k.exited ∨
    ∃ id, p = .worker id ∧ k'.exited = k.exited++[id] ∧ q'.gone

theorem handler_recorded {h : Handler} (hp : q.Placed words p k)
    (hh : q.handler = some h) (hact : (sigintHandler p k h).map (fun next =>
      (({ q with handler := some next.1 } : Process), next.2)) = some (q', k')) :
    Recorded words p q q' k k' := by
  have halive := hp.interrupted (by simp [hh])
  have hplaced : ∀ h', ({ q with handler := some h' } : Process).Placed words p k := fun _ =>
    ⟨hp.program, hp.forking, hp.waiting, hp.waited, hp.born, fun _ => halive⟩
  have hpc : q.pc ≠ .exited := by
    intro hpc
    rw [hpc] at halive
    cases halive
  have hhere : h ≠ .exited → ¬ q.gone := by
    rintro hne (hgone | hgone)
    · exact hpc hgone
    · rw [hh] at hgone
      exact hne (Option.some.inj hgone)
  cases h with
  | exit =>
    cases hact
    refine ⟨hhere (by simp), (hplaced _).mono (Or.inl ?_) ?_, Or.inl ?_, ?_⟩
    · cases p <;> rfl
    · cases p with
      | parent => exact le_rfl
      | worker id => simp [Shared.exit]
    · cases p <;> rfl
    · cases p with
      | parent => exact Or.inl rfl
      | worker id => exact Or.inr ⟨id, rfl, rfl, Or.inr rfl⟩
  | exited => cases hact
  | crashed => cases hact
  | _ =>
    cases hact
    exact ⟨hhere (by simp), hplaced _, Or.inl rfl, Or.inl rfl⟩

def Pc.ofWorker : Pc → Bool
  | .waitTurn | .waitMutex | .postTurn _ | .left => true
  | pc => pc.inside.isSome

theorem placed_worker {id : ℕ} {pc : Pc} (hpc : pc.ofWorker = true ∨ pc = .exited ∨ pc = .crashed)
    (hid : id < k.forked) : Process.Placed words (.worker id) ⟨pc, none⟩ k := by
  have hborn : ∀ id', ProcessId.worker id = .worker id' → pc = .unborn ∨ id' < k.forked := by
    intro id' hid'
    cases hid'
    exact Or.inr hid
  refine ⟨?_, ?_, ?_, ?_, hborn, by simp⟩
  all_goals rcases hpc with hpc | rfl | rfl
  all_goals try cases pc
  all_goals simp_all [Pc.ofWorker, Pc.inside, Pc.inMain, Pc.pastWaits]

/-- A step of the critical section leads to another one or fails. -/
theorem critical_next {id rand : ℕ} {d d' : SharedData} {pc pc' : Pc}
    (h : criticalSection words id rand d pc = some (pc', d')) :
    pc.inside = some () ∧ (pc'.inside = some () ∨ pc' = .crashed) := by
  cases pc with
  | testTurn | checkSpace =>
    simp only [criticalSection] at h
    split at h <;> cases h <;> first
      | exact ⟨rfl, Or.inl rfl⟩
      | exact ⟨rfl, Or.inl (by split <;> rfl)⟩
  | chooseWord | putSpace | copyWord =>
    simp only [criticalSection] at h
    split at h <;> cases h <;> first
      | exact ⟨rfl, Or.inl rfl⟩
      | exact ⟨rfl, Or.inr rfl⟩
  | bumpPos | addLength | countWord | passTurn =>
    cases h
    exact ⟨rfl, Or.inl rfl⟩
  | _ => cases h

/-- A worker that takes a step has been forked. -/
theorem worker_forked {id rand : ℕ} {pc : Pc} {next : Pc × Shared}
    (hborn : pc = .unborn ∨ id < k.forked)
    (h : processWorker words id rand k pc = some next) : id < k.forked := by
  rcases hborn with rfl | hlt
  · simp only [processWorker] at h
    split at h
    · assumption
    · cases h
  · exact hlt

theorem worker_recorded {id rand : ℕ} {pc : Pc} {next : Pc × Shared}
    (hp : Process.Placed words (.worker id) ⟨pc, none⟩ k)
    (h : processWorker words id rand k pc = some next) :
    Recorded words (.worker id) ⟨pc, none⟩ ⟨next.1, none⟩ k next.2 := by
  have hhere : pc ≠ .exited → ¬ Process.gone ⟨pc, none⟩ := by
    rintro hne (hgone | hgone)
    · exact hne hgone
    · cases hgone
  have hid : id < k.forked := worker_forked (hp.born id rfl) h
  have hsame : ∀ {pc' : Pc} {k' : Shared}, pc ≠ .exited → (pc'.ofWorker = true ∨ pc' = .crashed) →
      k'.forked = k.forked → k'.exited = k.exited →
      Recorded words (.worker id) ⟨pc, none⟩ ⟨pc', none⟩ k k' := by
    intro pc' k' hne hpc' hforked hexited
    refine ⟨hhere hne, placed_worker (hpc'.imp (fun h => h) Or.inr) ?_, Or.inl hforked,
      Or.inl hexited⟩
    rw [hforked]
    exact hid
  cases pc with
  | unborn =>
    simp only [processWorker, if_pos hid] at h
    cases h
    exact hsame (by simp) (Or.inl rfl) rfl rfl
  | waitTurn | waitMutex =>
    simp only [processWorker] at h
    split at h
    · cases h
    · cases h
      exact hsame (by simp) (Or.inl rfl) rfl rfl
  | postMutex leave =>
    cases h
    exact hsame (by simp) (Or.inl rfl) rfl rfl
  | postTurn leave =>
    cases h
    exact hsame (by simp) (Or.inl (by cases leave <;> rfl)) rfl rfl
  | left =>
    cases h
    exact ⟨hhere (by simp), placed_worker (Or.inr (Or.inl rfl)) hid, Or.inl rfl,
      Or.inr ⟨id, rfl, rfl, Or.inl rfl⟩⟩
  | _ =>
    simp only [processWorker, Option.map_eq_some_iff] at h
    obtain ⟨⟨pc', d'⟩, hcrit, rfl⟩ := h
    obtain ⟨hin, hnext⟩ := critical_next hcrit
    refine hsame ?_ ?_ rfl rfl
    · rintro hexit
      rw [hexit] at hin
      cases hin
    rcases hnext with hin | hcrash
    · left
      cases pc' <;> first | rfl | cases hin
    · exact Or.inr hcrash

theorem main_recorded {pc : Pc} {next : Pc × Shared}
    (hp : Process.Placed words .parent ⟨pc, none⟩ k) (h : mainStep k pc = some next) :
    Recorded words .parent ⟨pc, none⟩ ⟨next.1, none⟩ k next.2 := by
  have hhere : pc.inMain = true → ¬ Process.gone ⟨pc, none⟩ := by
    rintro hin (hgone | hgone)
    · rw [show pc = .exited from hgone] at hin
      cases hin
    · cases hgone
  have hpast : ∀ {pc' : Pc} {k' : Shared}, pc'.pastWaits = true ∨ pc' = .crashed →
      numProcesses ≤ k'.exited.length → Process.Placed words .parent ⟨pc', none⟩ k' := by
    intro pc' k' hpc' hall
    refine ⟨?_, ?_, ?_, fun _ => hall, by simp, by simp⟩
    all_goals rcases hpc' with hpc' | rfl
    all_goals try cases pc'
    all_goals simp_all [Pc.pastWaits, Pc.inMain]
  cases pc with
  | fork i =>
    obtain ⟨hi, hle, hwords⟩ := hp.forking i rfl
    cases h
    refine ⟨hhere rfl, ?_, Or.inr ⟨rfl, hle.trans (Nat.le_succ i), hi, hwords⟩, Or.inl rfl⟩
    split
    · rename_i hlt
      refine ⟨by simp [Pc.inMain], ?_, by simp, by simp [Pc.pastWaits], by simp, by simp⟩
      intro j hj
      cases hj
      exact ⟨hlt, le_rfl, hwords⟩
    · refine ⟨by simp [Pc.inMain], by simp, ?_, by simp [Pc.pastWaits], by simp, by simp⟩
      intro j hj
      cases hj
      decide
  | wait i =>
    simp only [mainStep] at h
    split at h
    · rename_i hexited
      cases h
      refine ⟨hhere rfl, ?_, Or.inl rfl, Or.inl rfl⟩
      split
      · rename_i hlt
        refine ⟨by simp [Pc.inMain], by simp, ?_, by simp [Pc.pastWaits], by simp, by simp⟩
        intro j hj
        cases hj
        exact hlt
      · have hall : numProcesses ≤ k.exited.length := by omega
        exact hpast (Or.inl rfl) hall
    · cases h
  | finalTest =>
    have hall := hp.waited rfl
    cases h
    exact ⟨hhere rfl, hpast (Or.inl (by split <;> rfl)) hall, Or.inl rfl, Or.inl rfl⟩
  | terminate =>
    have hall := hp.waited rfl
    simp only [mainStep] at h
    split at h
    · cases h
      exact ⟨hhere rfl, hpast (Or.inr rfl) hall, Or.inl rfl, Or.inl rfl⟩
    · cases h
      exact ⟨hhere rfl, hpast (Or.inl rfl) hall, Or.inl rfl, Or.inl rfl⟩
  | _ => cases h

theorem act_recorded (hp : q.Placed words p k)
    (h : act words p e q k = some (q', k')) : Recorded words p q q' k k' := by
  obtain ⟨pc, handler⟩ := q
  cases e with
  | run rand =>
    cases handler with
    | some hd => exact handler_recorded hp rfl h
    | none =>
      obtain ⟨next, hnext, heq⟩ := Option.map_eq_some_iff.mp h
      cases heq
      cases p with
      | parent => exact main_recorded hp hnext
      | worker id => exact worker_recorded hp hnext
  | forkFails =>
    cases handler with
    | some hd => cases h
    | none =>
      cases pc with
      | fork i =>
        cases h
        refine ⟨?_, ⟨?_, by simp, by simp, by simp [Pc.pastWaits], ?_, by simp⟩, Or.inl rfl,
          Or.inl rfl⟩
        · simp [Process.gone]
        · rcases hp.program with hcrash | hmain
          · cases hcrash
          · exact Or.inr hmain
        · intro id hid
          exact Or.inr ((hp.born id hid).resolve_left (by simp))
      | _ => cases h
  | sigint =>
    cases handler with
    | some hd => cases h
    | none =>
      simp only [act] at h
      split at h
      · rename_i halive
        cases h
        refine ⟨?_, ⟨hp.program, hp.forking, hp.waiting, hp.waited, hp.born, fun _ => halive⟩,
          Or.inl rfl, Or.inl rfl⟩
        rintro (hgone | hgone)
        · rw [show pc = .exited from hgone] at halive
          cases halive
        · cases hgone
      · cases h

end Act

theorem census_step {words : List Bytes} {a : ProcessId × Event} {s t : Processes}
    (hc : Census words s) (h : Sharing.step (act words) a s = some t) : Census words t := by
  obtain ⟨p, e⟩ := a
  obtain ⟨q, k, hact, rfl⟩ := Sharing.step_next _ h
  have hr := act_recorded (hc.placed p) hact
  have hlength : s.shared.exited.length ≤ k.exited.length := by
    rcases hr.exits with hsame | ⟨id, -, happend, -⟩
    · rw [hsame]
    · rw [happend, List.length_append]
      omega
  have hgone : ∀ id ∈ s.shared.exited,
      (Function.update s.procs p q (.worker id)).gone := by
    intro id hid
    have hne : ProcessId.worker id ≠ p := by
      intro hp
      apply hr.here
      rw [← hp]
      exact hc.exited id hid
    rw [Function.update_of_ne hne]
    exact hc.exited id hid
  refine ⟨?_, ?_, ?_, ?_, ?_⟩
  · apply (Function.forall_update_iff s.procs fun i r => r.Placed words i k).mpr
    refine ⟨hr.placed, fun i hi => (hc.placed i).mono ?_ hlength⟩
    rcases hr.forked with hsame | ⟨hp, hle, -⟩
    · exact Or.inl hsame
    · rw [hp] at hi
      exact Or.inr ⟨hi, hle⟩
  · rcases hr.forked with hsame | ⟨-, -, hle, -⟩
    · exact hsame ▸ hc.forked
    · exact hle
  · rcases hr.forked with hsame | ⟨-, -, -, hwords⟩
    · exact hsame ▸ hc.loaded
    · exact fun _ => hwords
  · rcases hr.exits with hsame | ⟨id, rfl, happend, -⟩
    · exact hsame ▸ hc.once
    · have hnew : id ∉ s.shared.exited := fun hid => hr.here (hc.exited id hid)
      show k.exited.Nodup
      rw [happend, ← List.concat_eq_append]
      exact List.Nodup.concat hnew hc.once
  · rcases hr.exits with hsame | ⟨id, rfl, happend, hlast⟩
    · exact fun id hid => hgone id (hsame ▸ hid)
    · intro id' hid'
      show Process.gone (Function.update s.procs (.worker id) q (.worker id'))
      rw [show k.exited = _ from happend] at hid'
      rcases List.mem_append.mp hid' with hold | hnew
      · exact hgone id' hold
      · rw [List.mem_singleton.mp hnew, Function.update_self]
        exact hlast

theorem started_census (words : List Bytes) : Census words (started words) where
  placed p := by
    cases p with
    | parent =>
      have hforking : ∀ i, (if words = [] then Pc.failed else .fork 0) = .fork i →
          i < numProcesses ∧ 0 ≤ i ∧ words ≠ [] := by
        intro i hi
        split at hi
        · cases hi
        · rename_i hne
          cases hi
          exact ⟨by decide, le_rfl, hne⟩
      refine ⟨Or.inr ?_, hforking, ?_, ?_, by simp, by simp [started]⟩
      all_goals by_cases hwords : words = []
      all_goals simp [started, hwords, Pc.inMain, Pc.pastWaits]
    | worker id => exact ⟨Or.inr (by simp [started, Pc.inMain]), by simp [started],
        by simp [started], by simp [started, Pc.pastWaits], fun _ _ => Or.inl rfl,
        by simp [started]⟩
  forked := Nat.zero_le _
  loaded h := absurd rfl h
  once := List.nodup_nil
  exited id hid := by cases hid

/-- Only the workers that were forked can have exited, each one once. -/
theorem all_gone {words : List Bytes} {s : Processes} (hc : Census words s)
    (hall : numProcesses ≤ s.shared.exited.length) (id : ℕ) :
    (s.procs (.worker id)).pc = .unborn ∨ (s.procs (.worker id)).gone := by
  have hborn : ∀ id' ∈ s.shared.exited, id' < numProcesses := by
    intro id' hid'
    rcases (hc.placed (.worker id')).born id' rfl with hunborn | hlt
    · rcases hc.exited id' hid' with hexit | hexit
      · rw [hunborn] at hexit
        cases hexit
      · have halive := (hc.placed (.worker id')).interrupted (by simp [hexit])
        rw [hunborn] at halive
        cases halive
    · exact hlt.trans_le hc.forked
  rcases (hc.placed (.worker id)).born id rfl with hunborn | hlt
  · exact Or.inl hunborn
  · right
    apply hc.exited id
    have hsub : s.shared.exited.toFinset ⊆ Finset.range numProcesses := by
      intro id' hid'
      exact Finset.mem_range.mpr (hborn id' (List.mem_toFinset.mp hid'))
    have hcard : (Finset.range numProcesses).card ≤ s.shared.exited.toFinset.card := by
      rw [Finset.card_range, List.toFinset_card_of_nodup hc.once]
      exact hall
    have heq := Finset.eq_of_subset_of_card_le hsub hcard
    rw [← List.mem_toFinset, heq, Finset.mem_range]
    exact hlt.trans_le hc.forked

end ProgSistema.WordBuffer
