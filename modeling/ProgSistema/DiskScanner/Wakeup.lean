import ProgSistema.DiskScanner.Invariant

/-!
# No wakeup is lost

A thread sleeps only while its wait condition holds or while the other thread,
inside its critical section, has still to signal. The threads therefore never
sleep at the same time, and until both have ended one of them can run.
-/

set_option autoImplicit false

namespace ProgSistema.DiskScanner

def ScannerPc.blocked : ScannerPc → Bool
  | addWaiting _ => true
  | _ => false

def ScannerPc.signalling : ScannerPc → Bool
  | addSignal | finishBroadcast => true
  | _ => false

def CounterPc.blocked : CounterPc → Bool
  | getWaiting => true
  | _ => false

def CounterPc.signalling : CounterPc → Bool
  | getSignal _ => true
  | _ => false

def SharedBuffer.full (b : SharedBuffer) : Prop := b.count ≥ bufferSize

def SharedBuffer.idle (b : SharedBuffer) : Prop := b.count = 0 ∧ b.finished = false

@[simp] theorem signalled_counter (pc : CounterPc) : (signalNotEmpty pc).blocked = false := by
  cases pc <;> rfl

@[simp] theorem signalled_scanner (pc : ScannerPc) : (signalNotFull pc).blocked = false := by
  cases pc <;> rfl

structure Awake (s : State) : Prop where
  scanner : s.scanner.blocked = true → s.buffer.full ∨ s.counter.signalling = true
  counter : s.counter.blocked = true → s.buffer.idle ∨ s.scanner.signalling = true

section Steps
variable {s t : State} (hi : Awake s)
include hi

/-- A scanner that was not to signal leaves a sleeping counter as it was. -/
theorem scanner_keeps {sc : ScannerPc} {m : Option Thread} (hquiet : s.scanner.signalling = false)
    (hawake : sc.blocked = true → s.buffer.full) :
    Awake { s with buffer := { s.buffer with mutex := m }, scanner := sc } where
  scanner h := .inl (hawake h)
  counter h := by
    rcases hi.counter h with hidle | hsignal
    · exact .inl hidle
    · rw [hquiet] at hsignal
      cases hsignal

theorem counter_keeps {cc : CounterPc} {m : Option Thread} (hquiet : s.counter.signalling = false)
    (hawake : cc.blocked = true → s.buffer.idle) :
    Awake { s with buffer := { s.buffer with mutex := m }, counter := cc } where
  scanner h := by
    rcases hi.scanner h with hfull | hsignal
    · exact .inl hfull
    · rw [hquiet] at hsignal
      cases hsignal
  counter h := .inl (hawake h)

theorem scanner_lock_keeps {sc : ScannerPc}
    (h : ((s.buffer.lock .scanner).map fun b => { s with buffer := b, scanner := sc }) = some t)
    (hquiet : s.scanner.signalling = false) (hawake : sc.blocked = false) : Awake t := by
  obtain ⟨b, hb, rfl⟩ := Option.map_eq_some_iff.mp h
  obtain ⟨-, rfl⟩ := SharedBuffer.lock_some hb
  exact scanner_keeps hi hquiet (by simp [hawake])

theorem counter_lock_keeps {cc : CounterPc}
    (h : ((s.buffer.lock .counter).map fun b => { s with buffer := b, counter := cc }) = some t)
    (hquiet : s.counter.signalling = false) (hawake : cc.blocked = false) : Awake t := by
  obtain ⟨b, hb, rfl⟩ := Option.map_eq_some_iff.mp h
  obtain ⟨-, rfl⟩ := SharedBuffer.lock_some hb
  exact counter_keeps hi hquiet (by simp [hawake])

theorem scanner_awake (h : stepScanner s = some t) : Awake t := by
  unfold stepScanner at h
  cases hpc : s.scanner with (rw [hpc] at h; dsimp only at h)
  | scanning =>
    split at h
    · cases h
      have hkeeps : Awake { s with scanner := .finishLock } :=
        scanner_keeps hi (m := s.buffer.mutex) (by rw [hpc]; rfl) (by simp [ScannerPc.blocked])
      exact hkeeps
    · rename_i node todo _
      cases h
      have hkeeps : Awake { s with scanner := .addLock node } :=
        scanner_keeps hi (m := s.buffer.mutex) (by rw [hpc]; rfl) (by simp [ScannerPc.blocked])
      exact { hkeeps with }
  | addLock node => exact scanner_lock_keeps hi h (by rw [hpc]; rfl) rfl
  | addTest node =>
    by_cases hfull : s.buffer.count ≥ bufferSize
    · rw [if_pos hfull] at h
      cases h
      exact scanner_keeps hi (by rw [hpc]; rfl) (fun _ => hfull)
    · rw [if_neg hfull] at h
      obtain ⟨b, -, rfl⟩ := Option.map_eq_some_iff.mp h
      exact ⟨by simp [ScannerPc.blocked], fun _ => .inr rfl⟩
  | addWaiting node => cases h
  | addWoken node => exact scanner_lock_keeps hi h (by rw [hpc]; rfl) rfl
  | addSignal =>
    cases h
    exact ⟨by simp [ScannerPc.blocked], by simp⟩
  | addUnlock =>
    cases h
    exact scanner_keeps hi (by rw [hpc]; rfl) (by simp [ScannerPc.blocked])
  | finishLock => exact scanner_lock_keeps hi h (by rw [hpc]; rfl) rfl
  | finishSet =>
    cases h
    exact ⟨by simp [ScannerPc.blocked], fun _ => .inr rfl⟩
  | finishBroadcast =>
    cases h
    exact ⟨by simp [ScannerPc.blocked], by simp⟩
  | finishUnlock =>
    cases h
    exact scanner_keeps hi (by rw [hpc]; rfl) (by simp [ScannerPc.blocked])
  | ended => cases h

theorem counter_awake (h : stepCounter s = some t) : Awake t := by
  unfold stepCounter at h
  cases hpc : s.counter with (rw [hpc] at h; dsimp only at h)
  | start =>
    cases h
    have hkeeps : Awake { s with counter := .getLock } :=
      counter_keeps hi (m := s.buffer.mutex) (by rw [hpc]; rfl) (by simp [CounterPc.blocked])
    exact { hkeeps with }
  | getLock => exact counter_lock_keeps hi h (by rw [hpc]; rfl) rfl
  | getTest =>
    by_cases hsleep : s.buffer.count = 0 ∧ ¬ s.buffer.finished
    · rw [if_pos hsleep] at h
      cases h
      exact counter_keeps hi (by rw [hpc]; rfl) (fun _ => ⟨hsleep.1, by simpa using hsleep.2⟩)
    · rw [if_neg hsleep] at h
      split at h
      · obtain ⟨⟨node, b⟩, -, rfl⟩ := Option.map_eq_some_iff.mp h
        exact ⟨fun _ => .inr rfl, by simp [CounterPc.blocked]⟩
      · cases h
        exact counter_keeps hi (m := s.buffer.mutex) (by rw [hpc]; rfl)
          (by simp [CounterPc.blocked])
  | getWaiting => cases h
  | getWoken => exact counter_lock_keeps hi h (by rw [hpc]; rfl) rfl
  | getSignal node =>
    cases h
    exact ⟨by simp, by simp [CounterPc.blocked]⟩
  | getUnlock result =>
    have hquiet : s.counter.signalling = false := by rw [hpc]; rfl
    cases result with
    | none =>
      cases h
      exact counter_keeps hi hquiet (by simp [CounterPc.blocked])
    | some node =>
      cases h
      have hkeeps : Awake { s with buffer := s.buffer.unlock, counter := .process node } :=
        counter_keeps hi hquiet (by simp [CounterPc.blocked])
      exact { hkeeps with }
  | process node =>
    cases h
    have hkeeps : Awake { s with counter := .getLock } :=
      counter_keeps hi (m := s.buffer.mutex) (by rw [hpc]; rfl) (by simp [CounterPc.blocked])
    exact { hkeeps with }
  | ended => cases h

theorem wake_awake {a : Thread} (h : wakeSpuriously s a = some t) : Awake t := by
  rcases wake_cases h with ⟨node, hpc, rfl⟩ | ⟨hpc, rfl⟩
  · exact scanner_keeps hi (m := s.buffer.mutex) (by rw [hpc]; rfl) (by simp [ScannerPc.blocked])
  · exact counter_keeps hi (m := s.buffer.mutex) (by rw [hpc]; rfl) (by simp [CounterPc.blocked])

end Steps

theorem step_awake (a : Action) (s t : State) (hi : Awake s) (h : step a s = some t) :
    Awake t := by
  cases a with
  | run thread =>
    cases thread with
    | scanner => exact scanner_awake hi h
    | counter => exact counter_awake hi h
  | wakeUp thread => exact wake_awake hi h

theorem reachable_awake {work : List NodeInfo} {s : State} (h : Reachable work s) : Awake s :=
  Runs.reachable_invariant step Awake
    ⟨by simp [initial, ScannerPc.blocked], by simp [initial, CounterPc.blocked]⟩ step_awake h

theorem counter_signal_wakes {s : State} (h : s.counter.signalling = true) :
    ∃ t, step (.run .counter) s = some t ∧ t.scanner.blocked = false := by
  cases hpc : s.counter with rw [hpc] at h
  | getSignal node =>
    refine ⟨{ s with counter := .getUnlock (some node), scanner := signalNotFull s.scanner }, ?_,
      signalled_scanner _⟩
    simp [step, stepCounter, hpc]
  | _ => cases h

theorem scanner_signal_wakes {s : State} (h : s.scanner.signalling = true) :
    ∃ t, step (.run .scanner) s = some t ∧ t.counter.blocked = false := by
  cases hpc : s.scanner with rw [hpc] at h
  | addSignal =>
    refine ⟨{ s with scanner := .addUnlock, counter := signalNotEmpty s.counter }, ?_,
      signalled_counter _⟩
    simp [step, stepScanner, hpc]
  | finishBroadcast =>
    refine ⟨{ s with scanner := .finishUnlock, counter := signalNotEmpty s.counter }, ?_,
      signalled_counter _⟩
    simp [step, stepScanner, hpc]
  | _ => cases h

theorem scanner_blocked_quiet {pc : ScannerPc} (h : pc.blocked = true) :
    pc.holds = false ∧ pc.signalling = false ∧ pc.announced = false := by
  cases pc with
  | addWaiting node => exact ⟨rfl, rfl, rfl⟩
  | _ => cases h

theorem counter_holds_running {pc : CounterPc} (h : pc.holds = true) :
    pc.blocked = false ∧ pc ≠ .ended := by
  cases pc with
  | getTest => exact ⟨rfl, by simp⟩
  | getSignal node => exact ⟨rfl, by simp⟩
  | getUnlock result => exact ⟨rfl, by simp⟩
  | _ => cases h

theorem counter_blocked_quiet {pc : CounterPc} (h : pc.blocked = true) : pc.signalling = false := by
  cases pc <;> first | rfl | cases h

theorem scanner_signalling_holds {pc : ScannerPc} (h : pc.signalling = true) : pc.holds = true := by
  cases pc <;> first | rfl | cases h

theorem counter_signalling_holds {pc : CounterPc} (h : pc.signalling = true) : pc.holds = true := by
  cases pc <;> first | rfl | cases h

theorem not_both_blocked {s : State} (hi : Awake s) (hscanner : s.scanner.blocked = true)
    (hcounter : s.counter.blocked = true) : False := by
  have hfull := (hi.scanner hscanner).resolve_right (by simp [counter_blocked_quiet hcounter])
  have hidle := (hi.counter hcounter).resolve_right (by simp [scanner_blocked_quiet hscanner])
  have hge : s.buffer.count ≥ 1000 := hfull
  rw [hidle.1] at hge
  omega

theorem not_left_waiting {work : List NodeInfo} {s : State} (hi : Inv work s) (ha : Awake s)
    (hended : s.scanner = .ended) (hcounter : s.counter.blocked = true) : False := by
  have hfinished : s.buffer.finished = true := by rw [hi.finished, hended]; rfl
  have hidle := (ha.counter hcounter).resolve_right (by simp [hended, ScannerPc.signalling])
  rw [hidle.2] at hfinished
  cases hfinished

/-- A thread that sleeps unsignalled has its wait condition, or the other one
owns the mutex and its next step wakes it. With the mutex free only the
condition remains, and no reachable state has both threads asleep or the
counter asleep after the end of the scan. -/
theorem no_lost_wakeup (work : List NodeInfo) (s : State) (h : Reachable work s) :
    (s.scanner.blocked = true → s.buffer.full ∨ s.buffer.mutex = some .counter ∧
        ∃ t, step (.run .counter) s = some t ∧ t.scanner.blocked = false) ∧
      (s.counter.blocked = true → s.buffer.idle ∨ s.buffer.mutex = some .scanner ∧
        ∃ t, step (.run .scanner) s = some t ∧ t.counter.blocked = false) ∧
      (s.buffer.mutex = none → (s.scanner.blocked = true → s.buffer.full) ∧
        (s.counter.blocked = true → s.buffer.idle)) ∧
      ¬ (s.scanner.blocked = true ∧ s.counter.blocked = true) ∧
      ¬ (s.scanner = .ended ∧ s.counter.blocked = true) := by
  have hi := reachable_inv h
  have ha := reachable_awake h
  have hscanner : s.scanner.blocked = true → s.buffer.full ∨ s.buffer.mutex = some .counter ∧
      ∃ t, step (.run .counter) s = some t ∧ t.scanner.blocked = false := by
    intro hb
    refine (ha.scanner hb).imp_right (fun hs => ?_)
    exact ⟨hi.counterHolds.mpr (counter_signalling_holds hs), counter_signal_wakes hs⟩
  have hcounter : s.counter.blocked = true → s.buffer.idle ∨ s.buffer.mutex = some .scanner ∧
      ∃ t, step (.run .scanner) s = some t ∧ t.counter.blocked = false := by
    intro hb
    refine (ha.counter hb).imp_right (fun hs => ?_)
    exact ⟨hi.scannerHolds.mpr (scanner_signalling_holds hs), scanner_signal_wakes hs⟩
  refine ⟨hscanner, hcounter, fun hfree => ⟨fun hb => ?_, fun hb => ?_⟩, ?_, ?_⟩
  · exact (hscanner hb).resolve_right (by simp [hfree])
  · exact (hcounter hb).resolve_right (by simp [hfree])
  · exact fun hboth => not_both_blocked ha hboth.1 hboth.2
  · exact fun hleft => not_left_waiting hi ha hleft.1 hleft.2

def windowRun : List Action := schedule [(3, .run .counter), (3, .run .scanner)]

theorem window_runs : (Runs.exec step windowRun (initial [sampleNode])).isSome = true := by
  decide

def windowState : State := (Runs.exec step windowRun (initial [sampleNode])).get window_runs

theorem window_reachable : Reachable [sampleNode] windowState :=
  Runs.reachable_get window_runs

theorem window_not_idle : ¬ windowState.buffer.idle := by
  have hcount : windowState.buffer.count = 1 := by decide
  rintro ⟨hzero, -⟩
  rw [hcount] at hzero
  cases hzero

theorem window_signalled : windowState.buffer.mutex = some .scanner ∧
    ∃ t, step (.run .scanner) windowState = some t ∧ t.counter.blocked = false :=
  ((no_lost_wakeup [sampleNode] windowState window_reachable).2.1 (by decide)).resolve_left
    window_not_idle

theorem asleep_before_signal : ¬ ∀ work s, Reachable work s →
    (s.scanner.blocked = true → s.buffer.full) ∧ (s.counter.blocked = true → s.buffer.idle) :=
  fun h => window_not_idle ((h [sampleNode] windowState window_reachable).2 (by decide))

theorem lock_free {b : SharedBuffer} (h : b.mutex = none) (t : Thread) :
    b.lock t = some { b with mutex := some t } := if_pos h

theorem scanner_enabled {work : List NodeInfo} {s : State} (hi : Inv work s)
    (hmutex : s.buffer.mutex ≠ some .counter) (hblocked : s.scanner.blocked = false)
    (hended : s.scanner ≠ .ended) : (stepScanner s).isSome = true := by
  have hfree : s.scanner.holds = false → s.buffer.mutex = none := by
    intro hout
    cases hm : s.buffer.mutex with
    | none => rfl
    | some t =>
      cases t with
      | scanner =>
        rw [hi.scannerHolds.mp hm] at hout
        cases hout
      | counter => exact absurd hm hmutex
  unfold stepScanner
  cases hpc : s.scanner with (rw [hpc] at hblocked hended hfree; dsimp only)
  | scanning => split <;> rfl
  | addLock node => rw [lock_free (hfree rfl)]; rfl
  | addTest node =>
    split
    · rfl
    · rw [SharedBuffer.addNode, dif_pos hi.buffer.write]
      rfl
  | addWaiting node => cases hblocked
  | addWoken node => rw [lock_free (hfree rfl)]; rfl
  | finishLock => rw [lock_free (hfree rfl)]; rfl
  | ended => exact absurd rfl hended
  | _ => rfl

theorem counter_enabled {work : List NodeInfo} {s : State} (hi : Inv work s)
    (hmutex : s.buffer.mutex ≠ some .scanner) (hblocked : s.counter.blocked = false)
    (hended : s.counter ≠ .ended) : (stepCounter s).isSome = true := by
  have hfree : s.counter.holds = false → s.buffer.mutex = none := by
    intro hout
    cases hm : s.buffer.mutex with
    | none => rfl
    | some t =>
      cases t with
      | scanner => exact absurd hm hmutex
      | counter =>
        rw [hi.counterHolds.mp hm] at hout
        cases hout
  unfold stepCounter
  cases hpc : s.counter with (rw [hpc] at hblocked hended hfree; dsimp only)
  | getLock => rw [lock_free (hfree rfl)]; rfl
  | getTest =>
    split
    · rfl
    · split
      · rw [SharedBuffer.getNode, dif_pos hi.buffer.read]
        rfl
      · rfl
  | getWaiting => cases hblocked
  | getWoken => rw [lock_free (hfree rfl)]; rfl
  | getUnlock result => cases result <;> rfl
  | ended => exact absurd rfl hended
  | _ => rfl

theorem counter_not_done {work : List NodeInfo} {s : State} (hi : Inv work s)
    (hblocked : s.scanner.blocked = true) : s.counter ≠ .ended := by
  intro hended
  have hfinished := (hi.exhausted (by rw [hended]; rfl)).1
  rw [hi.finished] at hfinished
  rw [(scanner_blocked_quiet hblocked).2.2] at hfinished
  cases hfinished

/-- Until both threads have ended one of them can take a step, without any
spurious wakeup and without leaving the arrays. -/
theorem some_thread_runs (work : List NodeInfo) (s : State) (h : Reachable work s)
    (hrunning : ¬ (s.scanner = .ended ∧ s.counter = .ended)) :
    ∃ t, (step (.run t) s).isSome = true := by
  have hi := reachable_inv h
  have ha := reachable_awake h
  have hout : s.scanner.holds = false → s.buffer.mutex ≠ some .scanner := by
    intro hh hm
    rw [hi.scannerHolds.mp hm] at hh
    cases hh
  by_cases hm : s.buffer.mutex = some .counter
  · obtain ⟨hb, he⟩ := counter_holds_running (hi.counterHolds.mp hm)
    exact ⟨.counter, counter_enabled hi (by simp [hm]) hb he⟩
  by_cases hblocked : s.scanner.blocked = true
  · have hb : s.counter.blocked = false := Bool.eq_false_iff.mpr (not_both_blocked ha hblocked)
    exact ⟨.counter, counter_enabled hi (hout (scanner_blocked_quiet hblocked).1) hb
      (counter_not_done hi hblocked)⟩
  by_cases hended : s.scanner = .ended
  · have hb : s.counter.blocked = false := Bool.eq_false_iff.mpr (not_left_waiting hi ha hended)
    exact ⟨.counter, counter_enabled hi (hout (by rw [hended]; rfl)) hb
      (fun hc => hrunning ⟨hended, hc⟩)⟩
  · exact ⟨.scanner, scanner_enabled hi hm (Bool.eq_false_iff.mpr hblocked) hended⟩

end ProgSistema.DiskScanner
