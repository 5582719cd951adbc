import ProgSistema.DiskScanner.Total
import ProgSistema.DiskScanner.Wakeup

/-!
# Every schedule comes to its end

Each node costs the two threads a bounded number of steps: a thread that has been
signalled finds that it need not wait again. A rank that falls with every step
bounds the length of every schedule; only a thread that wakes without a signal
may have to sleep once more.
-/

set_option autoImplicit false

namespace ProgSistema.DiskScanner

def SharedBuffer.fullCost (b : SharedBuffer) : ℤ := if b.count ≥ bufferSize then 3 else 0

def SharedBuffer.idleCost (b : SharedBuffer) : ℤ :=
  if b.count = 0 ∧ b.finished = false then 3 else 0

def ScannerPc.rank (cost : ℤ) : ScannerPc → ℤ
  | scanning => 5
  | addLock _ | addWoken _ => 9+cost
  | addTest _ => 8+cost
  | addWaiting _ => 10
  | addSignal => 7
  | addUnlock => 6
  | finishLock => 4
  | finishSet => 3
  | finishBroadcast => 2
  | finishUnlock => 1
  | ended => 0

def CounterPc.rank (cost : ℤ) : CounterPc → ℤ
  | start | process _ => 7
  | getLock | getWoken => 3+cost
  | getTest => 2+cost
  | getWaiting => 4
  | getSignal _ => 9
  | getUnlock (some _) => 8
  | getUnlock none => 1
  | ended => 0

def State.rank (s : State) : ℤ :=
  16*s.todo.length+8*s.scanner.pending.length+8*s.buffer.count+
    s.scanner.rank s.buffer.fullCost+s.counter.rank s.buffer.idleCost

/-- A thread signals only after it has changed what the other one waits for. -/
structure Useful (s : State) : Prop where
  stored : s.scanner = .addSignal → 0 < s.buffer.count
  taken : ∀ node, s.counter = .getSignal node → s.buffer.count < bufferSize

structure RankInv (work : List NodeInfo) (s : State) : Prop where
  inv : Inv work s
  useful : Useful s

theorem full_cost_bounds (b : SharedBuffer) : 0 ≤ b.fullCost ∧ b.fullCost ≤ 3 := by
  unfold SharedBuffer.fullCost
  split <;> decide

theorem idle_cost_bounds (b : SharedBuffer) : 0 ≤ b.idleCost ∧ b.idleCost ≤ 3 := by
  unfold SharedBuffer.idleCost
  split <;> decide

theorem counter_rank_mono {cost cost' : ℤ} (h : cost ≤ cost') (pc : CounterPc) :
    pc.rank cost ≤ pc.rank cost' := by
  cases pc with
  | getUnlock result => cases result <;> rfl
  | _ =>
    simp only [CounterPc.rank]
    omega

theorem scanner_rank_mono {cost cost' : ℤ} (h : cost ≤ cost') (pc : ScannerPc) :
    pc.rank cost ≤ pc.rank cost' := by
  cases pc <;> simp only [ScannerPc.rank] <;> omega

theorem counter_rank_nonneg {cost : ℤ} (h : 0 ≤ cost) (pc : CounterPc) : 0 ≤ pc.rank cost := by
  cases pc with
  | getUnlock result => cases result <;> simp [CounterPc.rank]
  | _ =>
    simp only [CounterPc.rank]
    omega

theorem scanner_rank_nonneg {cost : ℤ} (h : 0 ≤ cost) (pc : ScannerPc) : 0 ≤ pc.rank cost := by
  cases pc <;> simp only [ScannerPc.rank] <;> omega

theorem rank_nonneg {work : List NodeInfo} {s : State} (hi : Inv work s) : 0 ≤ s.rank := by
  have hcount := hi.buffer.nonneg
  have hscanner := scanner_rank_nonneg (full_cost_bounds s.buffer).1 s.scanner
  have hcounter := counter_rank_nonneg (idle_cost_bounds s.buffer).1 s.counter
  unfold State.rank
  omega

/-- With something in the buffer, or after the end of the scan, a signal brings
the counter nearer to its end. -/
theorem signal_counter_rank {b : SharedBuffer} (h : b.idleCost = 0) (pc : CounterPc) :
    (signalNotEmpty pc).rank b.idleCost ≤ pc.rank b.idleCost := by
  rw [h]
  cases pc <;> simp [signalNotEmpty, CounterPc.rank]

theorem signal_scanner_rank {b : SharedBuffer} (h : b.fullCost = 0) (pc : ScannerPc) :
    (signalNotFull pc).rank b.fullCost ≤ pc.rank b.fullCost := by
  rw [h]
  cases pc <;> simp [signalNotFull, ScannerPc.rank]

@[simp] theorem full_cost_mutex (b : SharedBuffer) (m : Option Thread) :
    SharedBuffer.fullCost { b with mutex := m } = b.fullCost := rfl

@[simp] theorem idle_cost_mutex (b : SharedBuffer) (m : Option Thread) :
    SharedBuffer.idleCost { b with mutex := m } = b.idleCost := rfl

/-- A step of the scanner within its calls, which leaves the buffer alone. -/
theorem scanner_goes {s t : State} {m : Option Thread}
    (hbuffer : t.buffer = { s.buffer with mutex := m }) (htodo : t.todo = s.todo)
    (hcounter : t.counter = s.counter) (hpending : t.scanner.pending = s.scanner.pending)
    (hrank : t.scanner.rank s.buffer.fullCost < s.scanner.rank s.buffer.fullCost) :
    t.rank < s.rank := by
  simp only [State.rank, hbuffer, htodo, hcounter, hpending, full_cost_mutex, idle_cost_mutex]
  omega

theorem counter_goes {s t : State} {m : Option Thread}
    (hbuffer : t.buffer = { s.buffer with mutex := m }) (htodo : t.todo = s.todo)
    (hscanner : t.scanner = s.scanner)
    (hrank : t.counter.rank s.buffer.idleCost < s.counter.rank s.buffer.idleCost) :
    t.rank < s.rank := by
  simp only [State.rank, hbuffer, htodo, hscanner, full_cost_mutex, idle_cost_mutex]
  omega

theorem idle_cost_more {b b' : SharedBuffer} (h : 0 < b'.count ∨ b'.finished = true) :
    b'.idleCost ≤ b.idleCost := by
  have hzero : b'.idleCost = 0 := by
    refine if_neg fun hidle => ?_
    rcases h with hcount | hfinished
    · omega
    · rw [hfinished] at hidle
      cases hidle.2
  have hnonneg := (idle_cost_bounds b).1
  omega

theorem scanner_falls {work : List NodeInfo} {s t : State} (hi : RankInv work s)
    (h : stepScanner s = some t) : t.rank < s.rank := by
  have hcost := full_cost_bounds s.buffer
  unfold stepScanner at h
  cases hpc : s.scanner with (rw [hpc] at h; dsimp only at h)
  | scanning =>
    cases htodo : s.todo with
    | nil =>
      rw [htodo] at h
      cases h
      exact scanner_goes rfl htodo.symm rfl (by rw [hpc]; rfl)
        (by rw [hpc]; norm_num [ScannerPc.rank])
    | cons node todo =>
      rw [htodo] at h
      cases h
      simp only [State.rank, ScannerPc.rank, ScannerPc.pending, hpc, htodo, List.length_cons,
        List.length_nil]
      push_cast
      omega
  | addLock node | addWoken node | finishLock =>
    obtain ⟨b, hb, rfl⟩ := Option.map_eq_some_iff.mp h
    obtain ⟨-, rfl⟩ := SharedBuffer.lock_some hb
    refine scanner_goes rfl rfl rfl (by rw [hpc]; rfl) ?_
    rw [hpc]
    simp only [ScannerPc.rank]
    omega
  | addTest node =>
    by_cases hfull : s.buffer.count ≥ bufferSize
    · rw [if_pos hfull] at h
      cases h
      have hthree : s.buffer.fullCost = 3 := if_pos hfull
      refine scanner_goes rfl rfl rfl (by rw [hpc]; rfl) ?_
      rw [hpc, hthree]
      norm_num [ScannerPc.rank]
    · rw [if_neg hfull] at h
      obtain ⟨b, hb, rfl⟩ := Option.map_eq_some_iff.mp h
      have hnonneg := hi.inv.buffer.nonneg
      obtain ⟨-, -, hcount, -⟩ := SharedBuffer.add_node_spec hi.inv.buffer (by omega) hb
      have hidle : b.idleCost ≤ s.buffer.idleCost := idle_cost_more (Or.inl (by omega))
      have hcounter := counter_rank_mono hidle s.counter
      simp only [State.rank, ScannerPc.rank, ScannerPc.pending, hpc, hcount, List.length_cons,
        List.length_nil]
      push_cast
      omega
  | addWaiting node => cases h
  | addSignal =>
    cases h
    have hidle : s.buffer.idleCost = 0 := by
      have hstored := hi.useful.stored hpc
      exact if_neg fun hidle => by omega
    have hcounter := signal_counter_rank hidle s.counter
    simp only [State.rank, ScannerPc.rank, ScannerPc.pending, hpc]
    omega
  | addUnlock | finishUnlock =>
    cases h
    exact scanner_goes rfl rfl rfl (by rw [hpc]; rfl) (by rw [hpc]; norm_num [ScannerPc.rank])
  | finishSet =>
    cases h
    have hidle : SharedBuffer.idleCost { s.buffer with finished := true } ≤ s.buffer.idleCost :=
      idle_cost_more (Or.inr rfl)
    have hcounter := counter_rank_mono hidle s.counter
    have hfull : SharedBuffer.fullCost { s.buffer with finished := true } = s.buffer.fullCost := rfl
    dsimp only at hcounter hfull
    simp only [State.rank, ScannerPc.rank, ScannerPc.pending, hpc]
    omega
  | finishBroadcast =>
    cases h
    have hidle : s.buffer.idleCost = 0 := by
      have hfinished := hi.inv.finished
      rw [hpc] at hfinished
      refine if_neg fun hidle => ?_
      rw [hfinished] at hidle
      cases hidle.2
    have hcounter := signal_counter_rank hidle s.counter
    simp only [State.rank, ScannerPc.rank, ScannerPc.pending, hpc]
    omega
  | ended => cases h

theorem counter_falls {work : List NodeInfo} {s t : State} (hi : RankInv work s)
    (h : stepCounter s = some t) : t.rank < s.rank := by
  have hcost := idle_cost_bounds s.buffer
  unfold stepCounter at h
  cases hpc : s.counter with (rw [hpc] at h; dsimp only at h)
  | start =>
    cases h
    refine counter_goes rfl rfl rfl ?_
    rw [hpc]
    simp only [CounterPc.rank]
    omega
  | getLock | getWoken =>
    obtain ⟨b, hb, rfl⟩ := Option.map_eq_some_iff.mp h
    obtain ⟨-, rfl⟩ := SharedBuffer.lock_some hb
    refine counter_goes rfl rfl rfl ?_
    rw [hpc]
    simp only [CounterPc.rank]
    omega
  | getTest =>
    by_cases hsleep : s.buffer.count = 0 ∧ ¬ s.buffer.finished
    · rw [if_pos hsleep] at h
      cases h
      have hthree : s.buffer.idleCost = 3 := if_pos ⟨hsleep.1, by simpa using hsleep.2⟩
      refine counter_goes rfl rfl rfl ?_
      rw [hpc, hthree]
      norm_num [CounterPc.rank]
    · rw [if_neg hsleep] at h
      split at h
      · rename_i hsome
        obtain ⟨⟨node, b⟩, hb, rfl⟩ := Option.map_eq_some_iff.mp h
        have hbound := hi.inv.buffer.bound
        obtain ⟨-, -, hcount, -⟩ := SharedBuffer.get_node_spec hi.inv.buffer hsome hb
        have hfull : b.fullCost ≤ s.buffer.fullCost := by
          have hroom : b.fullCost = 0 := if_neg (by omega)
          have hnonneg := (full_cost_bounds s.buffer).1
          omega
        have hscanner := scanner_rank_mono hfull s.scanner
        simp only [State.rank, CounterPc.rank, hpc, hcount]
        omega
      · cases h
        refine counter_goes rfl rfl rfl ?_
        rw [hpc]
        simp only [CounterPc.rank]
        omega
  | getWaiting => cases h
  | getSignal node =>
    cases h
    have hroom := hi.useful.taken node hpc
    have hfull : s.buffer.fullCost = 0 := if_neg (by omega)
    have hscanner := signal_scanner_rank hfull s.scanner
    simp only [State.rank, CounterPc.rank, hpc, signal_scanner_pending]
    omega
  | getUnlock result =>
    cases result with
    | none =>
      cases h
      exact counter_goes rfl rfl rfl (by rw [hpc]; norm_num [CounterPc.rank])
    | some node =>
      cases h
      exact counter_goes rfl rfl rfl (by rw [hpc]; norm_num [CounterPc.rank])
  | process node =>
    cases h
    refine counter_goes rfl rfl rfl ?_
    rw [hpc]
    simp only [CounterPc.rank]
    omega
  | ended => cases h

theorem wake_raises {s t : State} {a : Thread} (h : wakeSpuriously s a = some t) :
    t.rank ≤ s.rank+2 := by
  have hfull := full_cost_bounds s.buffer
  have hidle := idle_cost_bounds s.buffer
  rcases wake_cases h with ⟨node, hpc, rfl⟩ | ⟨hpc, rfl⟩
  · simp only [State.rank, ScannerPc.rank, ScannerPc.pending, hpc]
    omega
  · simp only [State.rank, CounterPc.rank, hpc]
    omega

/-! A signal comes behind the change that it tells of. -/

theorem scanner_fills {work : List NodeInfo} {s t : State} (hi : Inv work s)
    (h : stepScanner s = some t) :
    (t.buffer.count = s.buffer.count ∧ t.scanner ≠ .addSignal) ∨
      s.scanner.holds = true ∧ 0 < t.buffer.count := by
  unfold stepScanner at h
  cases hpc : s.scanner with (rw [hpc] at h; dsimp only at h)
  | scanning => split at h <;> cases h <;> exact Or.inl ⟨rfl, nofun⟩
  | addLock | addWoken | finishLock =>
    obtain ⟨b, hb, rfl⟩ := Option.map_eq_some_iff.mp h
    obtain ⟨-, rfl⟩ := SharedBuffer.lock_some hb
    exact Or.inl ⟨rfl, nofun⟩
  | addTest node =>
    split at h
    · cases h
      exact Or.inl ⟨rfl, nofun⟩
    · rename_i hroom
      obtain ⟨b, hb, rfl⟩ := Option.map_eq_some_iff.mp h
      have hnonneg := hi.buffer.nonneg
      obtain ⟨-, -, hcount, -⟩ := SharedBuffer.add_node_spec hi.buffer (by omega) hb
      exact Or.inr ⟨rfl, by dsimp only; omega⟩
  | addWaiting | ended => cases h
  | addSignal | addUnlock | finishSet | finishBroadcast | finishUnlock =>
    cases h
    exact Or.inl ⟨rfl, nofun⟩

theorem counter_empties {work : List NodeInfo} {s t : State} (hi : Inv work s)
    (h : stepCounter s = some t) :
    ((t.buffer.count = s.buffer.count ∧ ∀ node, t.counter ≠ .getSignal node) ∨
        s.counter.holds = true ∧ t.buffer.count < bufferSize) ∧
      (t.scanner = s.scanner ∨ t.scanner = signalNotFull s.scanner) := by
  unfold stepCounter at h
  cases hpc : s.counter with (rw [hpc] at h; dsimp only at h)
  | start | process =>
    cases h
    exact ⟨Or.inl ⟨rfl, nofun⟩, Or.inl rfl⟩
  | getLock | getWoken =>
    obtain ⟨b, hb, rfl⟩ := Option.map_eq_some_iff.mp h
    obtain ⟨-, rfl⟩ := SharedBuffer.lock_some hb
    exact ⟨Or.inl ⟨rfl, nofun⟩, Or.inl rfl⟩
  | getTest =>
    split at h
    · cases h
      exact ⟨Or.inl ⟨rfl, nofun⟩, Or.inl rfl⟩
    · split at h
      · rename_i hsome
        obtain ⟨⟨node, b⟩, hb, rfl⟩ := Option.map_eq_some_iff.mp h
        have hbound := hi.buffer.bound
        obtain ⟨-, -, hcount, -⟩ := SharedBuffer.get_node_spec hi.buffer hsome hb
        exact ⟨Or.inr ⟨rfl, by dsimp only; omega⟩, Or.inl rfl⟩
      · cases h
        exact ⟨Or.inl ⟨rfl, nofun⟩, Or.inl rfl⟩
  | getWaiting | ended => cases h
  | getSignal node =>
    cases h
    exact ⟨Or.inl ⟨rfl, nofun⟩, Or.inr rfl⟩
  | getUnlock result =>
    cases result <;> cases h <;> exact ⟨Or.inl ⟨rfl, nofun⟩, Or.inl rfl⟩

theorem signal_taking {pc : CounterPc} {node : NodeInfo} (h : signalNotEmpty pc = .getSignal node) :
    pc = .getSignal node := by
  cases pc <;> first | exact h | cases h

theorem signal_storing {pc : ScannerPc} (h : signalNotFull pc = .addSignal) : pc = .addSignal := by
  cases pc <;> first | exact h | cases h

/-- While the counter is about to signal, the scanner is outside and leaves the
buffer as it is. -/
theorem scanner_useful {work : List NodeInfo} {s t : State} (hi : RankInv work s)
    (h : stepScanner s = some t) : Useful t where
  stored hpc := by
    rcases scanner_fills hi.inv h with ⟨-, hother⟩ | ⟨-, hpos⟩
    · exact absurd hpc hother
    · exact hpos
  taken node hpc := by
    have hsignal : s.counter = .getSignal node := by
      rcases (scanner_ledger h).2 with hsame | hwoken
      · exact hsame.symm.trans hpc
      · exact signal_taking (hwoken.symm.trans hpc)
    rcases scanner_fills hi.inv h with ⟨hcount, -⟩ | ⟨hholds, -⟩
    · rw [hcount]
      exact hi.useful.taken node hsignal
    · have hout := counter_out hi.inv hholds
      rw [hsignal] at hout
      cases hout

theorem counter_useful {work : List NodeInfo} {s t : State} (hi : RankInv work s)
    (h : stepCounter s = some t) : Useful t where
  stored hpc := by
    obtain ⟨htakes, hscanner⟩ := counter_empties hi.inv h
    have hsignal : s.scanner = .addSignal := by
      rcases hscanner with hsame | hwoken
      · exact hsame.symm.trans hpc
      · exact signal_storing (hwoken.symm.trans hpc)
    rcases htakes with ⟨hcount, -⟩ | ⟨hholds, -⟩
    · rw [hcount]
      exact hi.useful.stored hsignal
    · have hout := scanner_out hi.inv hholds
      rw [hsignal] at hout
      cases hout
  taken node hpc := by
    rcases (counter_empties hi.inv h).1 with ⟨-, hother⟩ | ⟨-, hroom⟩
    · exact absurd hpc (hother node)
    · exact hroom

theorem wake_useful {s t : State} {a : Thread} (hu : Useful s) (h : wakeSpuriously s a = some t) :
    Useful t := by
  rcases wake_cases h with ⟨node, hpc, rfl⟩ | ⟨hpc, rfl⟩
  · exact ⟨nofun, hu.taken⟩
  · exact ⟨hu.stored, nofun⟩

theorem step_rank_inv {work : List NodeInfo} (a : Action) (s t : State) (hi : RankInv work s)
    (h : step a s = some t) : RankInv work t := by
  refine ⟨step_inv work a s t hi.inv h, ?_⟩
  cases a with
  | run thread =>
    cases thread with
    | scanner => exact scanner_useful hi h
    | counter => exact counter_useful hi h
  | wakeUp thread => exact wake_useful hi.useful h

def Action.isRun : Action → Bool
  | run _ => true
  | wakeUp _ => false

def Action.weight : Action → ℤ
  | run _ => -1
  | wakeUp _ => 2

theorem step_weighs {work : List NodeInfo} (a : Action) (s t : State) (hi : RankInv work s)
    (h : step a s = some t) : t.rank ≤ s.rank+a.weight := by
  cases a with
  | run thread =>
    have hfalls : t.rank < s.rank := by
      cases thread with
      | scanner => exact scanner_falls hi h
      | counter => exact counter_falls hi h
    rw [Action.weight]
    omega
  | wakeUp thread => exact wake_raises h

theorem weights (as : List Action) : (as.map Action.weight).sum =
    2*((as.countP fun a => !a.isRun : ℕ) : ℤ)-(as.countP Action.isRun : ℕ) := by
  induction as with
  | nil => rfl
  | cons a as ih =>
    rw [List.map_cons, List.sum_cons, ih, List.countP_cons, List.countP_cons]
    cases a <;> simp [Action.weight, Action.isRun] <;> omega

theorem initial_rank (work : List NodeInfo) : (initial work).rank = 16*work.length+12 := by
  have hcount : (initial work).buffer.count = 0 := rfl
  simp only [State.rank, hcount]
  simp only [initial, ScannerPc.rank, ScannerPc.pending, CounterPc.rank, List.length_nil]
  push_cast
  omega

/-- Whatever the order in which the threads run, a run has at most sixteen steps
for each node and twelve more, and two more for each time that a thread wakes
without a signal. Where neither thread can go on, both have ended and each node
has been processed once, in its order. -/
theorem every_schedule_ends (work : List NodeInfo) (as : List Action) (s : State)
    (h : Runs.exec step as (initial work) = some s) :
    as.countP Action.isRun ≤ 16*work.length+12+2*as.countP (fun a => !a.isRun) ∧
      ((∀ t, step (.run t) s = none) →
        s.scanner = .ended ∧ s.counter = .ended ∧ s.processed = work) := by
  have hstart : RankInv work (initial work) := ⟨initial_inv work, ⟨nofun, nofun⟩⟩
  constructor
  · have hend := Runs.exec_preserves step (RankInv work) step_rank_inv as _ _ hstart h
    have hweighs := Runs.exec_weighs_le step (RankInv work) State.rank Action.weight
      step_rank_inv step_weighs hstart h
    have hnonneg := rank_nonneg hend.inv
    rw [initial_rank, weights] at hweighs
    omega
  · intro hstuck
    have hreach : Reachable work s := ⟨as, h⟩
    have hended : s.scanner = .ended ∧ s.counter = .ended := by
      by_contra hrunning
      obtain ⟨t, ht⟩ := some_thread_runs work s hreach hrunning
      rw [hstuck t] at ht
      cases ht
    exact ⟨hended.1, hended.2, ended_processed hreach hended.2⟩

theorem sample_stuck (t : Thread) : step (.run t) sampleEnd = none := by
  have hscanner : sampleEnd.scanner = .ended := by decide
  have hcounter : sampleEnd.counter = .ended := by decide
  cases t with
  | scanner => rw [step, stepScanner, hscanner]
  | counter => rw [step, stepCounter, hcounter]

theorem sample_schedule_ends : sampleRun.countP Action.isRun ≤ 16*1+12+2*1 ∧
    sampleEnd.processed = [sampleNode] := by
  obtain ⟨hbound, hends⟩ := every_schedule_ends [sampleNode] sampleRun sampleEnd
    (Option.some_get sample_runs).symm
  have hwakes : sampleRun.countP (fun a => !a.isRun) = 1 := by decide
  rw [hwakes] at hbound
  exact ⟨hbound, (hends sample_stuck).2.2⟩

end ProgSistema.DiskScanner
