import ProgSistema.PingPong.Model

/-!
# Who has started what

The position of `main` tells which threads of the process exist and whether the
signals are blocked, and a writer that is past its first wait has seen the
identifier of the other process.
-/

set_option autoImplicit false

namespace ProgSistema.PingPong

def MainPc.unblocked : MainPc → Bool
  | .attach | .publish | .setReady | .block => true
  | _ => false

def MainPc.hasWriter : MainPc → Bool
  | .join | .cancel | .finish => true
  | _ => false

def MainPc.hasSignalThread : MainPc → Bool
  | .createWriter | .join | .cancel | .finish => true
  | _ => false

def MainPc.unpublished : MainPc → Bool
  | .attach | .publish => true
  | _ => false

def WriterPc.turning : WriterPc → Bool
  | .off | .awaitPeer => false
  | _ => true

structure Started (pids : Pids) (p : Party) (proc : Proc) (k : Machine) : Prop where
  blocked : k.blocked p = !proc.main.unblocked
  writer : proc.main.hasWriter = false → proc.writer = .off
  signalThread : proc.main.hasSignalThread = false → proc.signalThread = .off
  joined : proc.main = .cancel ∨ proc.main = .finish → proc.writer = .ended
  exited : k.life p = .exited → proc.main = .finish
  peer : proc.writer.turning = true → k.data.pid p.peer = pids.getpid p.peer
  published : p = .b → k.data.processBPid ≠ 0 → proc.main.unpublished = false
  pidA : k.data.processAPid = pids.getpid .a
  pidB : k.data.processBPid = 0 ∨ k.data.processBPid = pids.getpid .b
  fromA : p = .a → proc.main.unpublished = false

section Delivery
variable (pids : Pids) (pid : ℤ) (q : Party) (signal : Signal) (k : Machine)

@[simp] theorem deliver_data : (deliver q signal k).data = k.data := by
  unfold deliver
  split_ifs <;> rfl

@[simp] theorem deliver_blocked : (deliver q signal k).blocked = k.blocked := by
  unfold deliver
  split_ifs <;> rfl

/-- A signal leaves each process as it was or ends one that was running. -/
theorem deliver_life {q : Party} {signal : Signal} {k : Machine} (r : Party) :
    (deliver q signal k).life r = k.life r ∨
      k.life r = .running ∧ (deliver q signal k).life r = .killed := by
  unfold deliver
  split_ifs with hlife hblocked
  · exact Or.inl rfl
  · exact Or.inl rfl
  · by_cases hr : r = q
    · subst hr
      exact Or.inr ⟨not_not.mp hlife, Function.update_self r _ _⟩
    · exact Or.inl (Function.update_of_ne hr _ _)

theorem deliver_life_other {r : Party} (h : r ≠ q) : (deliver q signal k).life r = k.life r := by
  unfold deliver
  split_ifs
  · rfl
  · rfl
  · exact Function.update_of_ne h _ _

theorem kill_getpid : kill pids (pids.getpid q) signal k = deliver q signal k := by
  cases q with
  | a => exact if_pos rfl
  | b => exact (if_neg pids.distinct.symm).trans (if_pos rfl)

end Delivery

structure Frame (pids : Pids) (p : Party) (k k' : Machine) : Prop where
  blocked : ∀ q, q ≠ p → k'.blocked q = k.blocked q
  life : ∀ q, q ≠ p → k'.life q = k.life q ∨ k.life q = .running ∧ k'.life q = .killed
  pidA : k'.data.processAPid = k.data.processAPid
  pidB : k'.data.processBPid = k.data.processBPid ∨
    p = .b ∧ k'.data.processBPid = pids.getpid .b

variable {pids : Pids} {p : Party} {action : Action} {proc proc' : Proc} {k k' : Machine}

theorem frame_refl (p : Party) (k : Machine) : Frame pids p k k where
  blocked _ _ := rfl
  life _ _ := Or.inl rfl
  pidA := rfl
  pidB := Or.inl rfl

theorem started_other {q : Party} {other : Proc} (hf : Frame pids p k k') (hq : q ≠ p)
    (hs : Started pids q other k) : Started pids q other k' where
  blocked := (hf.blocked q hq).trans hs.blocked
  writer := hs.writer
  signalThread := hs.signalThread
  joined := hs.joined
  exited h := by
    rcases hf.life q hq with hsame | ⟨-, hkilled⟩
    · exact hs.exited (hsame ▸ h)
    · rw [hkilled] at h
      cases h
  peer h := by
    have hpeer := hs.peer h
    cases q with
    | a =>
      rcases hf.pidB with hsame | ⟨-, hnew⟩
      · exact hsame.trans hpeer
      · exact hnew
    | b => exact hf.pidA.trans hpeer
  published hb hne := by
    rcases hf.pidB with hsame | ⟨hp, -⟩
    · exact hs.published hb (hsame ▸ hne)
    · exact absurd (hb.trans hp.symm) hq
  pidA := hf.pidA.trans hs.pidA
  pidB := by
    rcases hf.pidB with hsame | ⟨-, hnew⟩
    · rw [hsame]
      exact hs.pidB
    · exact Or.inr hnew
  fromA := hs.fromA

theorem main_started (hlife : k.life p = .running) (hs : Started pids p proc k)
    (h : mainThread pids p proc k = some (proc', k')) :
    Started pids p proc' k' ∧ Frame pids p k k' := by
  obtain ⟨main, writer, sig, canWrite⟩ := proc
  obtain ⟨hblocked, hwriter, hsig, hjoined, hexited, hpeer, hpublished, hpidA, hpidB, hfromA⟩ := hs
  have hnot : ∀ {pc : MainPc}, k.life p = .exited → pc = .finish := by
    intro pc hexit
    rw [hlife] at hexit
    cases hexit
  cases main with
  | attach =>
    cases h
    exact ⟨⟨hblocked, hwriter, hsig, by simp, hnot, hpeer, hpublished, hpidA, hpidB, hfromA⟩,
      frame_refl p k⟩
  | publish =>
    cases p with
    | a => cases hfromA rfl
    | b =>
      cases h
      exact ⟨⟨hblocked, hwriter, hsig, by simp, hnot, hpeer, fun _ _ => rfl, hpidA, Or.inr rfl,
        by simp⟩, ⟨fun _ _ => rfl, fun _ _ => Or.inl rfl, rfl, Or.inr ⟨rfl, rfl⟩⟩⟩
  | setReady =>
    cases h
    exact ⟨⟨hblocked, hwriter, hsig, by simp, hnot, by cases p <;> exact hpeer, hpublished, hpidA,
      hpidB, hfromA⟩, ⟨fun _ _ => rfl, fun _ _ => Or.inl rfl, rfl, Or.inl rfl⟩⟩
  | block =>
    cases h
    refine ⟨⟨Function.update_self p true k.blocked, hwriter, hsig, by simp, hnot, hpeer,
      fun _ _ => rfl, hpidA, hpidB, fun _ => rfl⟩, ?_⟩
    exact ⟨fun q hq => Function.update_of_ne hq _ _, fun _ _ => Or.inl rfl, rfl, Or.inl rfl⟩
  | createSignal =>
    cases h
    exact ⟨⟨hblocked, hwriter, by simp [MainPc.hasSignalThread], by simp, hnot, hpeer, fun _ _ => rfl,
      hpidA, hpidB, fun _ => rfl⟩, frame_refl p k⟩
  | createWriter =>
    cases h
    refine ⟨⟨hblocked, by simp [MainPc.hasWriter], by simp [MainPc.hasSignalThread], by simp, hnot,
      ?_, fun _ _ => rfl, hpidA, hpidB, fun _ => rfl⟩, frame_refl p k⟩
    cases p with
    | a => simp [WriterPc.turning]
    | b => exact fun _ => hpidA
  | join =>
    simp only [mainThread] at h
    split at h
    · rename_i hended
      cases h
      exact ⟨⟨hblocked, hwriter, hsig, fun _ => hended, hnot, hpeer, fun _ _ => rfl, hpidA, hpidB,
        fun _ => rfl⟩, frame_refl p k⟩
    · cases h
  | cancel =>
    cases h
    exact ⟨⟨hblocked, hwriter, hsig, fun _ => hjoined (Or.inl rfl), hnot, hpeer, fun _ _ => rfl,
      hpidA, hpidB, fun _ => rfl⟩, frame_refl p k⟩
  | finish =>
    cases h
    refine ⟨⟨hblocked, hwriter, by simp [MainPc.hasSignalThread], fun _ => hjoined (Or.inr rfl),
      fun _ => rfl, hpeer, fun _ _ => rfl, hpidA, hpidB, fun _ => rfl⟩, ?_⟩
    exact ⟨fun _ _ => rfl, fun q hq => Or.inl (Function.update_of_ne hq _ _), rfl, Or.inl rfl⟩

/-- The identifier that a writer reads is that of the other process. -/
theorem send_reaches (pids : Pids) (hs : Started pids p proc k) {i : ℕ} (hsend : proc.writer = .send i)
    (rand : ℕ) :
    writerThread pids p rand proc k = some ({ proc with writer := .asleep i },
      deliver p.peer (permission p.peer)
        { k with sent := Function.update k.sent p (k.sent p+1) }) := by
  have hpid : k.data.pid p.peer = pids.getpid p.peer := hs.peer (by rw [hsend]; rfl)
  unfold writerThread
  rw [hsend]
  dsimp only
  rw [hpid, if_pos (pids.positive p.peer), kill_getpid]

/-- A writer that moves exists, and `main` is waiting for it. -/
theorem writer_moves (hs : Started pids p proc k) (hoff : proc.writer ≠ .off)
    (hended : proc.writer ≠ .ended) (hmain : proc'.main = proc.main)
    (hsig : proc'.signalThread = proc.signalThread) (hblocked : k'.blocked = k.blocked)
    (hlife : k'.life p = .running) (hpidA : k'.data.processAPid = k.data.processAPid)
    (hpidB : k'.data.processBPid = k.data.processBPid)
    (hturning : proc'.writer.turning = true → k.data.pid p.peer = pids.getpid p.peer) :
    Started pids p proc' k' where
  blocked := by
    rw [hblocked, hmain]
    exact hs.blocked
  writer h := absurd (hs.writer (hmain ▸ h)) hoff
  signalThread h := hsig.trans (hs.signalThread (hmain ▸ h))
  joined h := absurd (hs.joined (hmain ▸ h)) hended
  exited h := by
    rw [hlife] at h
    cases h
  peer h := by
    have hpeer := hturning h
    cases p with
    | a => exact hpidB.trans hpeer
    | b => exact hpidA.trans hpeer
  published hb hne := by
    rw [hmain]
    exact hs.published hb (hpidB ▸ hne)
  pidA := hpidA.trans hs.pidA
  pidB := by
    rw [hpidB]
    exact hs.pidB
  fromA h := hmain ▸ hs.fromA h

theorem writer_started {rand : ℕ} (hlife : k.life p = .running) (hs : Started pids p proc k)
    (h : writerThread pids p rand proc k = some (proc', k')) :
    Started pids p proc' k' ∧ Frame pids p k k' := by
  have hgoes : ∀ {q : Proc} {j : Machine}, proc.writer.turning = true → proc.writer ≠ .ended →
      q.main = proc.main → q.signalThread = proc.signalThread → j.blocked = k.blocked →
      j.life = k.life → j.data.processAPid = k.data.processAPid →
      j.data.processBPid = k.data.processBPid → Started pids p q j ∧ Frame pids p k j := by
    intro q j hturning hended hmain hsig hblocked hsame hpidA hpidB
    have hoff : proc.writer ≠ .off := by
      intro hoff
      rw [hoff] at hturning
      cases hturning
    refine ⟨writer_moves hs hoff hended hmain hsig hblocked (hsame ▸ hlife) hpidA hpidB
      fun _ => hs.peer hturning, ?_⟩
    exact ⟨fun _ _ => congrFun hblocked _, fun _ _ => Or.inl (congrFun hsame _), hpidA, Or.inl hpidB⟩
  cases hw : proc.writer with
  | off => simp [writerThread, hw] at h
  | ended => simp [writerThread, hw] at h
  | awaitPeer =>
    simp only [writerThread, hw] at h
    split at h
    · cases h
    · rename_i hne
      cases h
      have hpid : k.data.pid p.peer = pids.getpid p.peer := by
        cases p with
        | a => exact hs.pidB.resolve_left hne
        | b => exact hs.pidA
      exact ⟨writer_moves hs (by simp [hw]) (by simp [hw]) rfl rfl rfl hlife rfl rfl fun _ => hpid,
        frame_refl p k⟩
  | awaitTurn i =>
    simp only [writerThread, hw] at h
    split at h
    · cases h
      exact hgoes (by rw [hw]; rfl) (by simp [hw]) rfl rfl rfl rfl rfl rfl
    · cases h
  | send i =>
    rw [send_reaches pids hs hw] at h
    cases h
    refine ⟨writer_moves hs (by simp [hw]) (by simp [hw]) rfl rfl (by simp) ?_ (by simp) (by simp)
      fun _ => hs.peer (by rw [hw]; rfl), ?_⟩
    · rw [deliver_life_other _ _ _ (peer_ne p).symm]
      exact hlife
    · exact ⟨fun _ _ => by simp, fun q _ => deliver_life q, by simp, Or.inl (by simp)⟩
  | loopTest | checkFull | readSlot | storeChar | readIndex | storeIndex | resetTurn | asleep =>
    simp only [writerThread, hw] at h
    cases h
    exact hgoes (by rw [hw]; rfl) (by simp [hw]) rfl rfl rfl rfl rfl rfl

/-- A signal thread that moves exists. -/
theorem signal_started {sig : SignalPc} {canWrite : Bool} (hs : Started pids p proc k)
    (hsig : proc.signalThread ≠ .off) :
    Started pids p { proc with signalThread := sig, canWrite := canWrite } k := by
  have hmain : proc.main.hasSignalThread = true := by
    by_contra hno
    exact hsig (hs.signalThread (Bool.eq_false_iff.mpr hno))
  exact { hs with signalThread := by simp [hmain] }

theorem act_started (hs : Started pids p proc k) (h : act pids p action proc k = some (proc', k')) :
    Started pids p proc' k' ∧ Frame pids p k k' := by
  have hlife := act_running h
  unfold act at h
  rw [if_neg (not_not.mpr hlife)] at h
  cases action with
  | main => exact main_started hlife hs h
  | write rand => exact writer_started hlife hs h
  | sigwait signal =>
    dsimp only at h
    split at h
    · rename_i hwait
      cases h
      have hnew : Started pids p { proc with signalThread := .received signal } k :=
        signal_started hs (by simp [hwait.1])
      exact ⟨{ hnew with }, ⟨fun _ _ => rfl, fun _ _ => Or.inl rfl, rfl, Or.inl rfl⟩⟩
    · cases h
  | handle =>
    obtain ⟨next, hnext, heq⟩ := Option.map_eq_some_iff.mp h
    cases heq
    unfold signalThread at hnext
    split at hnext
    · rename_i signal hreceived
      have hne : proc.signalThread ≠ .off := by simp [hreceived]
      split_ifs at hnext <;> cases hnext <;> exact ⟨signal_started hs hne, frame_refl p k⟩
    · cases hnext
  | cancelled =>
    dsimp only at h
    split at h
    · rename_i hcancel
      cases h
      exact ⟨signal_started hs hcancel.2, frame_refl p k⟩
    · cases h

def AllStarted (pids : Pids) (s : Processes) : Prop :=
  ∀ p, Started pids p (s.procs p) s.shared

theorem segment_started (pids : Pids) (buffer : ℕ → UInt8) (readyFlag : ℤ) :
    AllStarted pids (segmentReady pids buffer readyFlag) := by
  intro p
  cases p with
  | a =>
    exact ⟨rfl, fun _ => rfl, fun _ => rfl, by simp [segmentReady], by simp [segmentReady],
      by simp [segmentReady, WriterPc.turning], by simp, rfl, Or.inl rfl, fun _ => rfl⟩
  | b =>
    exact ⟨rfl, fun _ => rfl, fun _ => rfl, by simp [segmentReady], by simp [segmentReady],
      by simp [segmentReady, WriterPc.turning], by simp [segmentReady], rfl, Or.inl rfl, by simp⟩

theorem started_step {e : Event} {s t : Processes} (hs : AllStarted pids s)
    (h : Sharing.step (act pids) e s = some t) : AllStarted pids t := by
  apply Sharing.knowledge_step (Started pids) h
  · intro proc k hact
    exact (act_started (hs e.1) hact).1
  · intro proc k q hq hact
    exact started_other (act_started (hs e.1) hact).2 hq (hs q)

end ProgSistema.PingPong
