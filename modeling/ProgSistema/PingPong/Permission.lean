import ProgSistema.PingPong.Model

/-!
# One permission

The permission to write is in one place at a time: with a process, in the flag,
in a signal or between the two, or lost after the last write. The flags, the
pending signals and the positions of the threads all follow from that place and
from the number of characters written.
-/

set_option autoImplicit false

namespace ProgSistema.PingPong

/-- How a process holds the permission: as a signal that is pending or has been
taken by `sigwait`, in its flag before or after the character is stored, or in
the writer that has reset the flag. -/
inductive Stage where
  | pending
  | taken
  | permitted
  | used
  | cleared
  deriving DecidableEq, Repr

inductive Place where
  | held (p : Party) (stage : Stage)
  | gone
  deriving DecidableEq, Repr

def Place.stage : Place → Party → Option Stage
  | .held q stage, p => if p = q then some stage else none
  | .gone, _ => none

def Stage.next (p : Party) : Stage → Party
  | .used | .cleared => p.peer
  | .pending | .taken | .permitted => p

def turn (n : ℕ) : Party := if n % 2 = 0 then .a else .b

def share : Party → ℕ → ℕ
  | .a, n => (n+1)/2
  | .b, n => n/2

def WriterPc.stage : WriterPc → Option Stage
  | .checkFull _ | .readSlot _ | .storeChar _ _ => some .permitted
  | .readIndex _ | .storeIndex _ _ | .resetTurn _ => some .used
  | .send _ => some .cleared
  | _ => none

def WriterPc.stores : WriterPc → ℕ
  | .off | .awaitPeer => 0
  | .loopTest i | .awaitTurn i | .checkFull i | .readSlot i | .storeChar i _ => i
  | .readIndex i | .storeIndex i _ | .resetTurn i | .send i | .asleep i => i+1
  | .ended => rounds

def WriterPc.lag : WriterPc → ℕ
  | .readIndex _ | .storeIndex _ _ => 1
  | _ => 0

def WriterPc.InLoop : WriterPc → Prop
  | .off | .awaitPeer | .ended => True
  | .loopTest i => i ≤ rounds
  | .awaitTurn i | .checkFull i | .readSlot i | .storeChar i _ | .readIndex i | .storeIndex i _
  | .resetTurn i | .send i | .asleep i => i < rounds

structure Fits (p : Party) (stage : Option Stage) (pending : Signal → Bool) (n : ℕ)
    (proc : Proc) : Prop where
  flag : proc.canWrite = true ↔ stage = some .permitted ∨ stage = some .used
  pending : ∀ signal, pending signal = true ↔ stage = some .pending ∧ signal = permission p
  taken : ∀ signal,
    proc.signalThread = .received signal ↔ stage = some .taken ∧ signal = permission p
  inside : ∀ st, proc.writer.stage = some st → stage = some st
  outside : proc.writer.stage = none → stage ≠ some .used ∧ stage ≠ some .cleared
  inLoop : proc.writer.InLoop
  stores : proc.writer.stores = share p n
  slot : ∀ i slot, proc.writer = .storeChar i slot → slot = n
  value : ∀ i value, proc.writer = .storeIndex i value → value+1 = n

structure Token (t : Place) (s : Processes) : Prop where
  fits : ∀ p, Fits p (t.stage p) (s.shared.pending p) s.shared.writes.length (s.procs p)
  index : s.shared.data.writeIndex+(s.procs .a).writer.lag+(s.procs .b).writer.lag =
    s.shared.writes.length
  holder : ∀ p stage, t = .held p stage → turn s.shared.writes.length = stage.next p
  gone : t = .gone → s.shared.writes.length = 2*rounds
  writes : s.shared.writes =
    (List.range s.shared.writes.length).map fun k => ⟨turn k, k, s.shared.data.buffer k⟩
  alive : ∀ p, s.shared.life p ≠ .killed

theorem share_le (n : ℕ) (h : share .a n ≤ rounds) : n ≤ 2*rounds := by
  simp only [share, rounds] at h ⊢
  omega

theorem turn_cases (n : ℕ) : n % 2 = 0 ∧ turn n = .a ∨ n % 2 = 1 ∧ turn n = .b := by
  unfold turn
  rcases Nat.mod_two_eq_zero_or_one n with hn | hn
  · exact Or.inl ⟨hn, if_pos hn⟩
  · exact Or.inr ⟨hn, if_neg (by omega)⟩

theorem turn_succ (n : ℕ) : turn (n+1) = (turn n).peer := by
  unfold turn
  split_ifs <;> first | rfl | omega

/-- The one whose turn it is has one more character of the first ones. -/
theorem share_succ (p : Party) (n : ℕ) :
    share p (n+1) = share p n+(if turn n = p then 1 else 0) := by
  cases p <;> rcases turn_cases n with ⟨hn, ht⟩ | ⟨hn, ht⟩ <;> simp [share, ht] <;> omega

theorem stores_le {pc : WriterPc} (h : pc.InLoop) : pc.stores ≤ rounds := by
  cases pc <;> simp only [WriterPc.InLoop, WriterPc.stores, rounds] at * <;> omega

section
variable {t : Place} {s : Processes} (hi : Token t s)
include hi

theorem writes_le : s.shared.writes.length ≤ 2*rounds := by
  apply share_le
  exact (hi.fits .a).stores ▸ stores_le (hi.fits .a).inLoop

/-- The turn of a writer that has ended never comes again. -/
theorem ended_turn {p : Party} (hended : (s.procs p).writer = .ended)
    (hturn : turn s.shared.writes.length = p) : s.shared.writes.length = 2*rounds := by
  have hstores := (hi.fits p).stores
  rw [hended] at hstores
  have hle := writes_le hi
  cases p <;> rcases turn_cases s.shared.writes.length with ⟨hn, ht⟩ | ⟨hn, ht⟩ <;>
    simp [WriterPc.stores, share, rounds, ht] at hstores hle hturn ⊢ <;> omega

/-- The writer of one process is outside its loop body while the other one
holds the permission. -/
theorem idle_of_held {p q : Party} {stage : Stage} (ht : t = .held p stage) (hq : q ≠ p) :
    (s.procs q).writer.stage = none := by
  rw [Option.eq_none_iff_forall_ne_some]
  intro st hst
  have hin := (hi.fits q).inside st hst
  rw [ht, Place.stage, if_neg hq] at hin
  cases hin

end

theorem lag_of_idle {pc : WriterPc} (h : pc.stage = none) : pc.lag = 0 := by
  cases pc <;> first | rfl | cases h

/-- The index counts every character but the one that its holder has just
stored. -/
theorem index_of_held {t : Place} {s : Processes} (hi : Token t s) {p : Party} {stage : Stage}
    (ht : t = .held p stage) :
    s.shared.data.writeIndex+(s.procs p).writer.lag = s.shared.writes.length := by
  have hother := lag_of_idle (idle_of_held hi ht (peer_ne p))
  have hindex := hi.index
  cases p with
  | a =>
    rw [show Party.a.peer = .b from rfl] at hother
    omega
  | b =>
    rw [show Party.b.peer = .a from rfl] at hother
    omega

/-- A process without the permission stays as it is when the other one writes. -/
theorem fits_other {q : Party} {pending : Signal → Bool} {n n' : ℕ} {proc : Proc}
    (h : Fits q none pending n proc) (hshare : share q n' = share q n) :
    Fits q none pending n' proc := by
  have hidle : proc.writer.stage = none := by
    rw [Option.eq_none_iff_forall_ne_some]
    intro st hst
    cases h.inside st hst
  refine { h with stores := h.stores.trans hshare.symm, slot := ?_, value := ?_ }
  · intro i slot hw
    rw [hw] at hidle
    cases hidle
  · intro i value hw
    rw [hw] at hidle
    cases hidle

/-- The writer of a process moves on where nothing else of it changes. -/
theorem fits_writer {p : Party} {stage : Option Stage} {pending : Signal → Bool} {n : ℕ}
    {proc : Proc} {pc : WriterPc} (h : Fits p stage pending n proc)
    (hinside : ∀ st, pc.stage = some st → stage = some st)
    (houtside : pc.stage = none → stage ≠ some .used ∧ stage ≠ some .cleared)
    (hloop : pc.InLoop) (hstores : pc.stores = proc.writer.stores)
    (hslot : ∀ i slot, pc = .storeChar i slot → slot = n)
    (hvalue : ∀ i value, pc = .storeIndex i value → value+1 = n) :
    Fits p stage pending n { proc with writer := pc } :=
  { h with
    inside := hinside
    outside := houtside
    inLoop := hloop
    stores := hstores.trans h.stores
    slot := hslot
    value := hvalue }

section
variable {t t' : Place} {s : Processes} {p : Party} {proc : Proc} {k : Machine}

theorem token_update (hself : Fits p (t'.stage p) (k.pending p) k.writes.length proc)
    (hother : Fits p.peer (t'.stage p.peer) (k.pending p.peer) k.writes.length (s.procs p.peer))
    (hindex : k.data.writeIndex+proc.writer.lag+(s.procs p.peer).writer.lag = k.writes.length)
    (hholder : ∀ q stage, t' = .held q stage → turn k.writes.length = stage.next q)
    (hgone : t' = .gone → k.writes.length = 2*rounds)
    (hwrites : k.writes = (List.range k.writes.length).map fun j => ⟨turn j, j, k.data.buffer j⟩)
    (halive : ∀ q, k.life q ≠ .killed) :
    Token t' { procs := Function.update s.procs p proc, shared := k } where
  fits q := by
    dsimp only
    by_cases hq : q = p
    · rw [hq, Function.update_self]
      exact hself
    · rw [Function.update_of_ne hq, eq_peer hq]
      exact hother
  index := by
    cases p with
    | a =>
      simp only [Function.update_self, Function.update_of_ne (show Party.b ≠ .a by decide)]
      exact hindex
    | b =>
      simp only [Function.update_self, Function.update_of_ne (show Party.a ≠ .b by decide)]
      rw [Nat.add_right_comm]
      exact hindex
  holder := hholder
  gone := hgone
  writes := hwrites
  alive := halive

/-- Nothing moves but the process, in a way that the other one does not see. -/
theorem token_quiet (hi : Token t s)
    (hself : Fits p (t.stage p) (s.shared.pending p) s.shared.writes.length proc)
    (hpending : k.pending = s.shared.pending) (hwrites : k.writes = s.shared.writes)
    (hbuffer : k.data.buffer = s.shared.data.buffer)
    (hindex : k.data.writeIndex+proc.writer.lag =
      s.shared.data.writeIndex+(s.procs p).writer.lag)
    (halive : ∀ q, k.life q ≠ .killed) :
    Token t { procs := Function.update s.procs p proc, shared := k } := by
  apply token_update
  · rw [hpending, hwrites]
    exact hself
  · rw [hpending, hwrites]
    exact hi.fits p.peer
  · rw [hindex, hwrites, ← hi.index]
    cases p with
    | a => rfl
    | b => exact Nat.add_right_comm _ _ _
  · rw [hwrites]
    exact hi.holder
  · rw [hwrites]
    exact hi.gone
  · rw [hwrites, hbuffer]
    exact hi.writes
  · exact halive

/-- The permission stays with a process or is lost with it. -/
theorem token_moves (hi : Token t s) {stage : Stage} (ht : t = .held p stage)
    (ht' : t'.stage p.peer = none)
    (hself : Fits p (t'.stage p) (k.pending p) s.shared.writes.length proc)
    (hpending : k.pending p.peer = s.shared.pending p.peer) (hwrites : k.writes = s.shared.writes)
    (hdata : k.data = s.shared.data)
    (hlag : proc.writer.lag = (s.procs p).writer.lag)
    (hholder : ∀ q stage, t' = .held q stage → turn s.shared.writes.length = stage.next q)
    (hgone : t' = .gone → s.shared.writes.length = 2*rounds)
    (halive : ∀ q, k.life q ≠ .killed) :
    Token t' { procs := Function.update s.procs p proc, shared := k } := by
  have hpeer : t.stage p.peer = none := by
    rw [ht]
    exact if_neg (peer_ne p)
  apply token_update
  · rw [hwrites]
    exact hself
  · rw [ht', hpending, hwrites, ← hpeer]
    exact hi.fits p.peer
  · rw [hdata, hwrites, hlag, lag_of_idle (idle_of_held hi ht (peer_ne p))]
    exact index_of_held hi ht
  · rw [hwrites]
    exact hholder
  · rw [hwrites]
    exact hgone
  · rw [hwrites, hdata]
    exact hi.writes
  · exact halive

theorem held_of_stage {stage : Stage} (h : t.stage p = some stage) : t = .held p stage := by
  cases t with
  | held q st =>
    simp only [Place.stage] at h
    split_ifs at h with hp
    cases h
    rw [hp]
  | gone => cases h

/-- A permission at a stage that the writer is using. -/
theorem held_of_inside (hi : Token t s) {stage : Stage}
    (hstage : (s.procs p).writer.stage = some stage) : t = .held p stage :=
  held_of_stage ((hi.fits p).inside stage hstage)

end

end ProgSistema.PingPong
