import ProgSistema.DiskScanner.Model
import ProgSistema.Lib.Ring

/-!
# First in, first out

The buffer's cells from the read index on hold exactly the nodes that were
passed and not yet taken. Which thread owns the mutex, which node is in
flight and whether the end was announced follow from the thread positions.
-/

set_option autoImplicit false

namespace ProgSistema.DiskScanner
open CRuntime

instance : NeZero bufferSize := ⟨by decide⟩

namespace SharedBuffer

def contents (b : SharedBuffer) : List NodeInfo :=
  Ring.window b.nodes b.readIndex b.count.toNat

structure WellFormed (b : SharedBuffer) : Prop where
  write : b.writeIndex < bufferSize
  read : b.readIndex < bufferSize
  nonneg : 0 ≤ b.count
  bound : b.count ≤ bufferSize
  position : ((b.readIndex : ℤ)+b.count) % bufferSize = b.writeIndex

theorem init_well_formed : WellFormed initSharedBuffer where
  write := by decide
  read := by decide
  nonneg := by decide
  bound := by decide
  position := by decide

theorem lock_some {b b' : SharedBuffer} {t : Thread} (h : b.lock t = some b') :
    b.mutex = none ∧ b' = { b with mutex := some t } := by
  unfold lock at h
  split at h
  · exact ⟨‹_›, (Option.some.inj h).symm⟩
  · cases h

theorem of_nat_write {b : SharedBuffer} (hb : WellFormed b) :
    (⟨b.writeIndex, hb.write⟩ : Fin bufferSize) =
      Fin.ofNat bufferSize (b.readIndex+b.count.toNat) := by
  apply Fin.ext
  show b.writeIndex = (b.readIndex+b.count.toNat) % bufferSize
  have hpos := hb.position
  rw [← Int.toNat_of_nonneg hb.nonneg] at hpos
  exact_mod_cast hpos.symm

theorem of_nat_read {b : SharedBuffer} (hb : WellFormed b) :
    (⟨b.readIndex, hb.read⟩ : Fin bufferSize) = Fin.ofNat bufferSize b.readIndex :=
  Fin.ext (Nat.mod_eq_of_lt hb.read).symm

/-- Storing a node in a buffer with room appends it to the contents. -/
theorem add_node_spec {b b' : SharedBuffer} {node : NodeInfo} (hb : WellFormed b)
    (hroom : b.count < bufferSize) (h : b.addNode node = some b') :
    WellFormed b' ∧ b'.contents = b.contents++[node] ∧ b'.count = b.count+1 ∧
      b'.finished = b.finished ∧ b'.mutex = b.mutex := by
  have hnonneg := hb.nonneg
  rw [addNode, dif_pos hb.write] at h
  obtain rfl := Option.some.inj h
  refine ⟨⟨Nat.mod_lt _ (by decide), hb.read, by simp only; omega, by simp only; omega, ?_⟩,
    ?_, rfl, rfl, rfl⟩
  · calc ((b.readIndex : ℤ)+(b.count+1)) % bufferSize
        = (((b.readIndex : ℤ)+b.count) % bufferSize+1) % bufferSize := by
          rw [Int.emod_add_emod, add_assoc]
      _ = ((b.writeIndex+1) % bufferSize : ℕ) := by rw [hb.position]; push_cast; rfl
  · have hcount : (b.count+1).toNat = b.count.toNat+1 := by omega
    unfold contents
    simp only [of_nat_write hb, hcount]
    exact Ring.window_push b.nodes b.readIndex b.count.toNat (by omega) node

/-- Reading from a nonempty buffer takes the head of the contents. -/
theorem get_node_spec {b b' : SharedBuffer} {node : NodeInfo} (hb : WellFormed b)
    (hsome : 0 < b.count) (h : b.getNode = some (node, b')) :
    WellFormed b' ∧ b.contents = node::b'.contents ∧ b'.count = b.count-1 ∧
      b'.finished = b.finished ∧ b'.mutex = b.mutex := by
  have hbound := hb.bound
  rw [getNode, dif_pos hb.read] at h
  obtain ⟨rfl, rfl⟩ := Prod.mk.inj (Option.some.inj h)
  refine ⟨⟨hb.write, Nat.mod_lt _ (by decide), by simp only; omega, by simp only; omega, ?_⟩,
    ?_, rfl, rfl, rfl⟩
  · calc ((((b.readIndex+1) % bufferSize : ℕ) : ℤ)+(b.count-1)) % bufferSize
        = (((b.readIndex : ℤ)+1) % bufferSize+(b.count-1)) % bufferSize := by push_cast; rfl
      _ = ((b.readIndex : ℤ)+b.count) % bufferSize := by
          rw [Int.emod_add_emod, add_add_sub_cancel]
      _ = b.writeIndex := hb.position
  · have hcount : b.count.toNat = (b.count-1).toNat+1 := by omega
    unfold contents
    rw [hcount, Ring.window_pop, of_nat_read hb]

end SharedBuffer

namespace ScannerPc

def holds : ScannerPc → Bool
  | addTest _ | addSignal | addUnlock | finishSet | finishBroadcast | finishUnlock => true
  | _ => false

def pending : ScannerPc → List NodeInfo
  | addLock node | addTest node | addWaiting node | addWoken node => [node]
  | _ => []

def finishing : ScannerPc → Bool
  | finishLock | finishSet | finishBroadcast | finishUnlock | ended => true
  | _ => false

def announced : ScannerPc → Bool
  | finishBroadcast | finishUnlock | ended => true
  | _ => false

theorem finishing_of_announced {pc : ScannerPc} (h : pc.announced = true) :
    pc.finishing = true := by
  cases pc <;> first | rfl | cases h

theorem pending_of_finishing {pc : ScannerPc} (h : pc.finishing = true) : pc.pending = [] := by
  cases pc <;> first | rfl | cases h

end ScannerPc

namespace CounterPc

def holds : CounterPc → Bool
  | getTest | getSignal _ | getUnlock _ => true
  | _ => false

def taken : CounterPc → List NodeInfo
  | getSignal node | getUnlock (some node) => [node]
  | _ => []

def exhausted : CounterPc → Bool
  | getUnlock none | ended => true
  | _ => false

theorem taken_of_out {pc : CounterPc} (h : pc.holds = false) : pc.taken = [] := by
  cases pc <;> first | rfl | cases h

theorem taken_of_exhausted {pc : CounterPc} (h : pc.exhausted = true) : pc.taken = [] :=
  match pc, h with
  | getUnlock none, _ => rfl
  | ended, _ => rfl

end CounterPc

/-- A thread that wakes by itself was asleep and only changes its position. -/
theorem wake_cases {s t : State} {a : Thread} (h : wakeSpuriously s a = some t) :
    (∃ node, s.scanner = .addWaiting node ∧ t = { s with scanner := .addWoken node }) ∨
      s.counter = .getWaiting ∧ t = { s with counter := .getWoken } := by
  cases a with
  | scanner =>
    unfold wakeSpuriously at h
    dsimp only at h
    split at h
    · rename_i node hpc
      exact .inl ⟨node, hpc, (Option.some.inj h).symm⟩
    · cases h
  | counter =>
    unfold wakeSpuriously at h
    dsimp only at h
    split at h
    · rename_i hpc
      exact .inr ⟨hpc, (Option.some.inj h).symm⟩
    · cases h

section Signals
variable (pc : CounterPc) (sc : ScannerPc)

@[simp] theorem signal_counter_holds : (signalNotEmpty pc).holds = pc.holds := by
  cases pc <;> rfl

@[simp] theorem signal_counter_taken : (signalNotEmpty pc).taken = pc.taken := by
  cases pc <;> rfl

@[simp] theorem signal_counter_exhausted : (signalNotEmpty pc).exhausted = pc.exhausted := by
  cases pc <;> rfl

@[simp] theorem signal_scanner_holds : (signalNotFull sc).holds = sc.holds := by
  cases sc <;> rfl

@[simp] theorem signal_scanner_pending : (signalNotFull sc).pending = sc.pending := by
  cases sc <;> rfl

@[simp] theorem signal_scanner_finishing : (signalNotFull sc).finishing = sc.finishing := by
  cases sc <;> rfl

@[simp] theorem signal_scanner_announced : (signalNotFull sc).announced = sc.announced := by
  cases sc <;> rfl

end Signals

structure Inv (work : List NodeInfo) (s : State) : Prop where
  buffer : s.buffer.WellFormed
  fifo : s.passed = s.obtained++s.counter.taken++s.buffer.contents++s.scanner.pending
  work : s.passed++s.todo = work
  scannerHolds : s.buffer.mutex = some .scanner ↔ s.scanner.holds = true
  counterHolds : s.buffer.mutex = some .counter ↔ s.counter.holds = true
  finished : s.buffer.finished = s.scanner.announced
  drained : s.scanner.finishing = true → s.todo = []
  exhausted : s.counter.exhausted = true → s.buffer.finished = true ∧ s.buffer.count = 0

theorem initial_inv (work : List NodeInfo) : Inv work (initial work) where
  buffer := SharedBuffer.init_well_formed
  fifo := rfl
  work := rfl
  scannerHolds := by simp [initial, initSharedBuffer, ScannerPc.holds]
  counterHolds := by simp [initial, initSharedBuffer, CounterPc.holds]
  finished := rfl
  drained := by simp [initial, ScannerPc.finishing]
  exhausted := by simp [initial, CounterPc.exhausted]

def ScannerPc.Agrees (sc pc : ScannerPc) : Prop :=
  sc.pending = pc.pending ∧ sc.finishing = pc.finishing ∧ sc.announced = pc.announced

def CounterPc.Agrees (cc pc : CounterPc) : Prop :=
  cc.taken = pc.taken ∧ cc.exhausted = pc.exhausted

theorem moves_inv {work : List NodeInfo} {s : State} (hi : Inv work s) {m : Option Thread}
    {sc : ScannerPc} {cc : CounterPc} (hsc : sc.Agrees s.scanner) (hcc : cc.Agrees s.counter)
    (hscanner : m = some .scanner ↔ sc.holds = true)
    (hcounter : m = some .counter ↔ cc.holds = true) :
    Inv work { s with buffer := { s.buffer with mutex := m }, scanner := sc, counter := cc } where
  buffer := ⟨hi.buffer.write, hi.buffer.read, hi.buffer.nonneg, hi.buffer.bound,
    hi.buffer.position⟩
  fifo := by
    rw [hcc.1, hsc.1]
    exact hi.fifo
  work := hi.work
  scannerHolds := hscanner
  counterHolds := hcounter
  finished := hi.finished.trans hsc.2.2.symm
  drained h := hi.drained (hsc.2.1 ▸ h)
  exhausted h := hi.exhausted (hcc.2 ▸ h)

section Ownership
variable {work : List NodeInfo} {s : State} (hi : Inv work s)
include hi

theorem counter_out (h : s.scanner.holds = true) : s.counter.holds = false := by
  have hm := hi.scannerHolds.mpr h
  have hc := hi.counterHolds
  rw [hm] at hc
  simpa using hc

theorem scanner_out (h : s.counter.holds = true) : s.scanner.holds = false := by
  have hm := hi.counterHolds.mpr h
  have hs := hi.scannerHolds
  rw [hm] at hs
  simpa using hs

theorem free_out (h : s.buffer.mutex = none) :
    s.scanner.holds = false ∧ s.counter.holds = false := by
  have hs := hi.scannerHolds
  have hc := hi.counterHolds
  rw [h] at hs hc
  exact ⟨by simpa using hs, by simpa using hc⟩

end Ownership

section Scanner
variable {work : List NodeInfo} {s t : State} (hi : Inv work s) {pc : ScannerPc}
  (hpc : s.scanner = pc)
include hi hpc

theorem scanner_locks {sc : ScannerPc}
    (h : ((s.buffer.lock .scanner).map fun b => { s with buffer := b, scanner := sc }) = some t)
    (hsc : sc.Agrees pc) (hholds : sc.holds = true) : Inv work t := by
  obtain ⟨b, hb, rfl⟩ := Option.map_eq_some_iff.mp h
  obtain ⟨hfree, rfl⟩ := SharedBuffer.lock_some hb
  exact moves_inv hi (hpc ▸ hsc) ⟨rfl, rfl⟩ (by simp [hholds]) (by simp [(free_out hi hfree).2])

theorem scanner_unlocks {sc : ScannerPc} (hsc : sc.Agrees pc) (hout : sc.holds = false)
    (hholds : pc.holds = true) : Inv work { s with buffer := s.buffer.unlock, scanner := sc } :=
  moves_inv hi (hpc ▸ hsc) ⟨rfl, rfl⟩ (by simp [hout])
    (by simp [counter_out hi (hpc ▸ hholds)])

theorem scanner_signals {sc : ScannerPc} (hsc : sc.Agrees pc) (hholds : sc.holds = pc.holds) :
    Inv work { s with scanner := sc, counter := signalNotEmpty s.counter } :=
  moves_inv hi (m := s.buffer.mutex) (hpc ▸ hsc)
    ⟨signal_counter_taken _, signal_counter_exhausted _⟩
    (by rw [hholds, ← hpc]; exact hi.scannerHolds)
    (by rw [signal_counter_holds]; exact hi.counterHolds)

end Scanner

theorem scanner_calls {work : List NodeInfo} {s : State} (hi : Inv work s)
    (hpc : s.scanner = .scanning) {node : NodeInfo} {todo : List NodeInfo}
    (htodo : s.todo = node::todo) :
    Inv work { s with scanner := .addLock node, todo := todo, passed := s.passed++[node] } := by
  have hfifo := hi.fifo
  have hwork := hi.work
  have hholds := hi.scannerHolds
  have hfinished := hi.finished
  rw [hpc] at hfifo hholds hfinished
  rw [htodo] at hwork
  exact { hi with
    fifo := by
      show s.passed++[node] = s.obtained++s.counter.taken++s.buffer.contents++[node]
      rw [hfifo]
      simp [ScannerPc.pending]
    work := by simpa using hwork
    scannerHolds := hholds
    finished := hfinished
    drained := by simp [ScannerPc.finishing] }

theorem scanner_finishes {work : List NodeInfo} {s : State} (hi : Inv work s)
    (hpc : s.scanner = .scanning) (htodo : s.todo = []) :
    Inv work { s with scanner := .finishLock } := by
  have hfifo := hi.fifo
  have hholds := hi.scannerHolds
  have hfinished := hi.finished
  rw [hpc] at hfifo hholds hfinished
  exact { hi with
    fifo := hfifo
    scannerHolds := hholds
    finished := hfinished
    drained := fun _ => htodo }

theorem scanner_stores {work : List NodeInfo} {s t : State} (hi : Inv work s) {node : NodeInfo}
    (hpc : s.scanner = .addTest node) (hroom : s.buffer.count < bufferSize)
    (h : ((s.buffer.addNode node).map fun b => { s with buffer := b, scanner := .addSignal }) =
      some t) : Inv work t := by
  obtain ⟨b, hb, rfl⟩ := Option.map_eq_some_iff.mp h
  obtain ⟨hwf, hcontents, -, hfinished, hmutex⟩ := SharedBuffer.add_node_spec hi.buffer hroom hb
  have hnot : s.buffer.finished = false := by rw [hi.finished, hpc]; rfl
  have hfifo := hi.fifo
  have hholds := hi.scannerHolds
  rw [hpc] at hfifo hholds
  exact { hi with
    buffer := hwf
    fifo := by simpa [ScannerPc.pending, hcontents] using hfifo
    scannerHolds := by rw [hmutex]; exact hholds
    counterHolds := by rw [hmutex]; exact hi.counterHolds
    finished := hfinished.trans hnot
    drained := by simp [ScannerPc.finishing]
    exhausted := fun hx => by
      have hx := (hi.exhausted hx).1
      rw [hnot] at hx
      cases hx }

theorem scanner_announces {work : List NodeInfo} {s : State} (hi : Inv work s)
    (hpc : s.scanner = .finishSet) :
    Inv work { s with
      buffer := { s.buffer with finished := true }, scanner := .finishBroadcast } := by
  have hfifo := hi.fifo
  have hholds := hi.scannerHolds
  have hdrained := hi.drained
  rw [hpc] at hfifo hholds hdrained
  exact { hi with
    buffer := ⟨hi.buffer.write, hi.buffer.read, hi.buffer.nonneg, hi.buffer.bound,
      hi.buffer.position⟩
    fifo := hfifo
    scannerHolds := hholds
    finished := rfl
    drained := hdrained
    exhausted := fun hx => ⟨rfl, (hi.exhausted hx).2⟩ }

theorem scanner_inv {work : List NodeInfo} {s t : State} (hi : Inv work s)
    (h : stepScanner s = some t) : Inv work t := by
  unfold stepScanner at h
  cases hpc : s.scanner with (rw [hpc] at h; dsimp only at h)
  | scanning =>
    split at h
    · cases h
      exact scanner_finishes hi hpc ‹_›
    · cases h
      exact scanner_calls hi hpc ‹_›
  | addLock node => exact scanner_locks hi hpc h ⟨rfl, rfl, rfl⟩ rfl
  | addTest node =>
    split at h
    · cases h
      exact scanner_unlocks hi hpc ⟨rfl, rfl, rfl⟩ rfl rfl
    · exact scanner_stores hi hpc (by omega) h
  | addWaiting node => cases h
  | addWoken node => exact scanner_locks hi hpc h ⟨rfl, rfl, rfl⟩ rfl
  | addSignal =>
    cases h
    exact scanner_signals hi hpc ⟨rfl, rfl, rfl⟩ rfl
  | addUnlock =>
    cases h
    exact scanner_unlocks hi hpc ⟨rfl, rfl, rfl⟩ rfl rfl
  | finishLock => exact scanner_locks hi hpc h ⟨rfl, rfl, rfl⟩ rfl
  | finishSet =>
    cases h
    exact scanner_announces hi hpc
  | finishBroadcast =>
    cases h
    exact scanner_signals hi hpc ⟨rfl, rfl, rfl⟩ rfl
  | finishUnlock =>
    cases h
    exact scanner_unlocks hi hpc ⟨rfl, rfl, rfl⟩ rfl rfl
  | ended => cases h

section Counter
variable {work : List NodeInfo} {s t : State} (hi : Inv work s)
include hi

theorem counter_locks {pc cc : CounterPc} (hpc : s.counter = pc)
    (h : ((s.buffer.lock .counter).map fun b => { s with buffer := b, counter := cc }) = some t)
    (hcc : cc.Agrees pc) (hholds : cc.holds = true) : Inv work t := by
  obtain ⟨b, hb, rfl⟩ := Option.map_eq_some_iff.mp h
  obtain ⟨hfree, rfl⟩ := SharedBuffer.lock_some hb
  exact moves_inv hi ⟨rfl, rfl, rfl⟩ (hpc ▸ hcc) (by simp [(free_out hi hfree).1])
    (by simp [hholds])

theorem counter_unlocks {pc cc : CounterPc} (hpc : s.counter = pc) (hcc : cc.Agrees pc)
    (hout : cc.holds = false) (hholds : pc.holds = true) :
    Inv work { s with buffer := s.buffer.unlock, counter := cc } :=
  moves_inv hi ⟨rfl, rfl, rfl⟩ (hpc ▸ hcc) (by simp [scanner_out hi (hpc ▸ hholds)])
    (by simp [hout])

theorem counter_moves {pc cc : CounterPc} (hpc : s.counter = pc) (hcc : cc.Agrees pc)
    (hholds : cc.holds = pc.holds) : Inv work { s with counter := cc } :=
  moves_inv hi (m := s.buffer.mutex) ⟨rfl, rfl, rfl⟩ (hpc ▸ hcc) hi.scannerHolds
    (by rw [hholds, ← hpc]; exact hi.counterHolds)

theorem counter_signals {node : NodeInfo} (hpc : s.counter = .getSignal node) :
    Inv work { s with
      counter := .getUnlock (some node), scanner := signalNotFull s.scanner } :=
  moves_inv hi (m := s.buffer.mutex)
    ⟨signal_scanner_pending _, signal_scanner_finishing _, signal_scanner_announced _⟩
    (hpc ▸ ⟨rfl, rfl⟩) (by rw [signal_scanner_holds]; exact hi.scannerHolds)
    (hi.counterHolds.trans (by rw [hpc]; rfl))

theorem counter_takes (hpc : s.counter = .getTest) (hsome : 0 < s.buffer.count)
    (h : (s.buffer.getNode.map fun (node, b) =>
      { s with buffer := b, counter := .getSignal node }) = some t) : Inv work t := by
  obtain ⟨⟨node, b⟩, hb, rfl⟩ := Option.map_eq_some_iff.mp h
  obtain ⟨hwf, hcontents, -, hfinished, hmutex⟩ := SharedBuffer.get_node_spec hi.buffer hsome hb
  have hfifo := hi.fifo
  have hholds := hi.counterHolds
  rw [hpc] at hfifo hholds
  exact { hi with
    buffer := hwf
    fifo := by simpa [CounterPc.taken, hcontents] using hfifo
    scannerHolds := by rw [hmutex]; exact hi.scannerHolds
    counterHolds := by rw [hmutex]; exact hholds
    finished := hfinished.trans hi.finished
    exhausted := by simp [CounterPc.exhausted] }

theorem counter_gives_up (hpc : s.counter = .getTest) (hfinished : s.buffer.finished = true)
    (hempty : s.buffer.count = 0) : Inv work { s with counter := .getUnlock none } := by
  have hfifo := hi.fifo
  have hholds := hi.counterHolds
  rw [hpc] at hfifo hholds
  exact { hi with
    fifo := hfifo
    counterHolds := hholds
    exhausted := fun _ => ⟨hfinished, hempty⟩ }

theorem counter_returns {node : NodeInfo} (hpc : s.counter = .getUnlock (some node)) :
    Inv work { s with
      buffer := s.buffer.unlock
      counter := .process node
      obtained := s.obtained++[node] } := by
  have hfifo := hi.fifo
  rw [hpc] at hfifo
  exact { hi with
    buffer := ⟨hi.buffer.write, hi.buffer.read, hi.buffer.nonneg, hi.buffer.bound,
      hi.buffer.position⟩
    fifo := by
      rw [hfifo]
      simp [CounterPc.taken]
      rfl
    scannerHolds := by simp [SharedBuffer.unlock, scanner_out hi (by rw [hpc]; rfl)]
    counterHolds := by simp [SharedBuffer.unlock, CounterPc.holds]
    exhausted := by simp [CounterPc.exhausted] }

theorem counter_processes {node : NodeInfo} (hpc : s.counter = .process node) :
    Inv work { processNode s node with counter := .getLock } := by
  have hmoves : Inv work { s with counter := .getLock } := counter_moves hi hpc ⟨rfl, rfl⟩ rfl
  exact { hmoves with }

theorem counter_inv (h : stepCounter s = some t) : Inv work t := by
  unfold stepCounter at h
  cases hpc : s.counter with (rw [hpc] at h; dsimp only at h)
  | start =>
    cases h
    have hmoves : Inv work { s with counter := .getLock } := counter_moves hi hpc ⟨rfl, rfl⟩ rfl
    exact { hmoves with }
  | getLock => exact counter_locks hi hpc h ⟨rfl, rfl⟩ rfl
  | getTest =>
    have hnonneg := hi.buffer.nonneg
    by_cases hsleep : s.buffer.count = 0 ∧ ¬ s.buffer.finished
    · rw [if_pos hsleep] at h
      cases h
      exact counter_unlocks hi hpc ⟨rfl, rfl⟩ rfl rfl
    · rw [if_neg hsleep] at h
      by_cases hsome : s.buffer.count > 0
      · rw [if_pos hsome] at h
        exact counter_takes hi hpc hsome h
      · rw [if_neg hsome] at h
        cases h
        have hempty : s.buffer.count = 0 := by omega
        exact counter_gives_up hi hpc (by simpa [hempty] using hsleep) hempty
  | getWaiting => cases h
  | getWoken => exact counter_locks hi hpc h ⟨rfl, rfl⟩ rfl
  | getSignal node =>
    cases h
    exact counter_signals hi hpc
  | getUnlock result =>
    cases result with
    | none =>
      cases h
      exact counter_unlocks hi hpc ⟨rfl, rfl⟩ rfl rfl
    | some node =>
      cases h
      exact counter_returns hi hpc
  | process node =>
    cases h
    exact counter_processes hi hpc
  | ended => cases h

theorem wake_inv {a : Thread} (h : wakeSpuriously s a = some t) : Inv work t := by
  rcases wake_cases h with ⟨node, hpc, rfl⟩ | ⟨hpc, rfl⟩
  · exact moves_inv hi (m := s.buffer.mutex) (by rw [hpc]; exact ⟨rfl, rfl, rfl⟩)
      ⟨rfl, rfl⟩ (hi.scannerHolds.trans (by rw [hpc]; rfl)) hi.counterHolds
  · exact counter_moves hi hpc ⟨rfl, rfl⟩ rfl

end Counter

theorem step_inv (work : List NodeInfo) (a : Action) (s t : State) (hi : Inv work s)
    (h : step a s = some t) : Inv work t := by
  cases a with
  | run thread =>
    cases thread with
    | scanner => exact scanner_inv hi h
    | counter => exact counter_inv hi h
  | wakeUp thread => exact wake_inv hi h

theorem reachable_inv {work : List NodeInfo} {s : State} (h : Reachable work s) : Inv work s :=
  Runs.reachable_invariant step (Inv work) (initial_inv work) (step_inv work) h

theorem exhausted_delivered {work : List NodeInfo} {s : State} (hi : Inv work s)
    (hexhausted : s.counter.exhausted = true) :
    s.scanner.finishing = true ∧ s.obtained = s.passed ∧ s.passed = work := by
  obtain ⟨hfinished, hempty⟩ := hi.exhausted hexhausted
  have hfinishing : s.scanner.finishing = true :=
    ScannerPc.finishing_of_announced (hi.finished.symm.trans hfinished)
  have hcontents : s.buffer.contents = [] := by
    rw [SharedBuffer.contents, hempty]
    rfl
  have hfifo := hi.fifo
  have hwork := hi.work
  rw [CounterPc.taken_of_exhausted hexhausted, hcontents,
    ScannerPc.pending_of_finishing hfinishing] at hfifo
  rw [hi.drained hfinishing, List.append_nil] at hwork
  exact ⟨hfinishing, by simpa using hfifo.symm, hwork⟩

/-- In every reachable state the nodes obtained are the first of those passed,
and the buffer holds the others, save for one that may be on its way in or
out. The counter is told to stop only after it has obtained every node. -/
theorem delivery_in_order (work : List NodeInfo) (s : State) (h : Reachable work s) :
    s.passed++s.todo = work ∧ s.obtained <+: s.passed ∧
      s.passed = s.obtained++s.counter.taken++s.buffer.contents++s.scanner.pending ∧
      s.buffer.writeIndex < bufferSize ∧ s.buffer.readIndex < bufferSize ∧
      (s.buffer.mutex = none →
        s.passed = s.obtained++s.buffer.contents++s.scanner.pending ∧
          (s.buffer.contents.length : ℤ) = s.buffer.count ∧
          0 ≤ s.buffer.count ∧ s.buffer.count ≤ bufferSize ∧
          ((s.buffer.readIndex : ℤ)+s.buffer.count) % bufferSize = s.buffer.writeIndex) ∧
      (s.counter.exhausted = true →
        s.scanner.finishing = true ∧ s.obtained = s.passed ∧ s.passed = work) := by
  have hi := reachable_inv h
  have hb := hi.buffer
  have hlength : (s.buffer.contents.length : ℤ) = s.buffer.count := by
    rw [SharedBuffer.contents, Ring.window_length]
    exact Int.toNat_of_nonneg hb.nonneg
  refine ⟨hi.work, ?_, hi.fifo, hb.write, hb.read, ?_, ?_⟩
  · rw [hi.fifo, List.append_assoc, List.append_assoc]
    exact List.prefix_append _ _
  · intro hfree
    have hfifo := hi.fifo
    rw [CounterPc.taken_of_out (free_out hi hfree).2, List.append_nil] at hfifo
    exact ⟨hfifo, hlength, hb.nonneg, hb.bound, hb.position⟩
  · exact exhausted_delivered hi

def sampleNode : NodeInfo where
  path := text "/a/b"
  size := 7
  hardLinks := 1
  inode := 3
  valid := true

def schedule (turns : List (ℕ × Action)) : List Action :=
  turns.flatMap fun turn => List.replicate turn.1 turn.2

def sampleRun : List Action :=
  schedule [(3, .run .counter), (1, .wakeUp .counter), (2, .run .counter), (5, .run .scanner),
    (5, .run .counter), (5, .run .scanner), (3, .run .counter)]

theorem sample_runs : (Runs.exec step sampleRun (initial [sampleNode])).isSome = true := by
  decide

def sampleEnd : State := (Runs.exec step sampleRun (initial [sampleNode])).get sample_runs

theorem sample_reachable : Reachable [sampleNode] sampleEnd :=
  Runs.reachable_get sample_runs

theorem sample_delivered : sampleEnd.counter = .ended ∧ sampleEnd.obtained = [sampleNode] := by
  have hended : sampleEnd.counter = .ended := by decide
  have hdelivery := delivery_in_order [sampleNode] sampleEnd sample_reachable
  obtain ⟨-, hall, hwork⟩ := hdelivery.2.2.2.2.2.2 (by rw [hended]; rfl)
  exact ⟨hended, hall.trans hwork⟩

end ProgSistema.DiskScanner
