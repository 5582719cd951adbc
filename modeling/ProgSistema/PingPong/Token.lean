import ProgSistema.PingPong.Permission
import ProgSistema.PingPong.Startup

/-!
# The permission along a run

Each step of a thread leaves the permission where it is or moves it one place
on, as long as every signal finds its target ready. A signal thread that ends
and a signal that comes too late lose it after the last write.
-/

set_option autoImplicit false

namespace ProgSistema.PingPong

section
variable {pids : Pids} {t : Place} {s : Processes} {p : Party} {proc : Proc} {k : Machine}

/-- Nothing is pending for a process that does not hold the permission so. -/
theorem pending_empty (hfits : Fits p (t.stage p) (s.shared.pending p) s.shared.writes.length
    (s.procs p)) (h : t.stage p ≠ some .pending) :
    Function.update s.shared.pending p (fun _ => false) = s.shared.pending := by
  rw [Function.update_eq_iff]
  refine ⟨?_, fun _ _ => rfl⟩
  funext signal
  exact (Bool.eq_false_iff.mpr fun htrue => h ((hfits.pending signal).mp htrue).1).symm

/-- The signal thread ends. A permission that has not come to the flag is then
lost, after the last character. -/
theorem thread_ends (hi : Token t s) (hended : (s.procs p).writer = .ended)
    (hproc : proc = { s.procs p with signalThread := .ended })
    (hpending : k.pending = s.shared.pending ∨
      k.pending = Function.update s.shared.pending p fun _ => false)
    (hwrites : k.writes = s.shared.writes) (hdata : k.data = s.shared.data)
    (halive : ∀ q, k.life q ≠ .killed) :
    ∃ t', Token t' { procs := Function.update s.procs p proc, shared := k } := by
  have hfits := hi.fits p
  have hkeeps : t.stage p ≠ some .taken → k.pending = s.shared.pending →
      Token t { procs := Function.update s.procs p proc, shared := k } := by
    intro hne hsame
    refine token_quiet hi ?_ hsame hwrites (by rw [hdata]) (by rw [hdata, hproc]) halive
    rw [hproc]
    exact { hfits with taken := fun signal => by simp [hne] }
  have hloses : ∀ stage, t.stage p = some stage → stage = .pending ∨ stage = .taken →
      (∀ signal, k.pending p signal = false) →
      Token .gone { procs := Function.update s.procs p proc, shared := k } := by
    intro stage hstage hkind hnone
    have hnext : stage.next p = p := by rcases hkind with rfl | rfl <;> rfl
    have hoff : (s.procs p).canWrite = false := by
      rw [Bool.eq_false_iff]
      intro htrue
      rw [hfits.flag, hstage] at htrue
      rcases hkind with rfl | rfl <;> simp at htrue
    have hheld := held_of_stage hstage
    have hturn := (hi.holder p stage hheld).trans hnext
    refine token_moves hi hheld rfl ?_ ?_ hwrites hdata (by rw [hproc]) (by simp)
      (fun _ => ended_turn hi hended hturn) halive
    · rw [hproc]
      exact ⟨by simp [hoff, Place.stage], by simp [hnone, Place.stage], by simp [Place.stage],
        by simp [hended, WriterPc.stage], by simp [Place.stage], hfits.inLoop, hfits.stores,
        hfits.slot, hfits.value⟩
    · rcases hpending with hsame | hcleared
      · rw [hsame]
      · rw [hcleared, Function.update_of_ne (peer_ne p)]
  by_cases htaken : t.stage p = some .taken
  · refine ⟨.gone, hloses .taken htaken (Or.inr rfl) ?_⟩
    have hempty := pending_empty hfits (by simp [htaken])
    intro signal
    rcases hpending with hsame | hcleared
    · rw [hsame, ← hempty, Function.update_self]
    · rw [hcleared, Function.update_self]
  · rcases hpending with hsame | hcleared
    · exact ⟨t, hkeeps htaken hsame⟩
    · by_cases hpend : t.stage p = some .pending
      · refine ⟨.gone, hloses .pending hpend (Or.inl rfl) fun signal => ?_⟩
        rw [hcleared, Function.update_self]
      · exact ⟨t, hkeeps htaken (hcleared.trans (pending_empty hfits hpend))⟩

theorem main_token (hs : AllStarted pids s) (hi : Token t s)
    (h : mainThread pids p (s.procs p) s.shared = some (proc, k)) :
    ∃ t', Token t' { procs := Function.update s.procs p proc, shared := k } := by
  have hfits := hi.fits p
  have hquiet : ∀ k main, k.pending = s.shared.pending → k.writes = s.shared.writes →
      k.data.buffer = s.shared.data.buffer → k.data.writeIndex = s.shared.data.writeIndex →
      k.life = s.shared.life →
      Token t ⟨Function.update s.procs p { s.procs p with main := main }, k⟩ := by
    intro k main hpending hwrites hbuffer hindex hlife
    exact token_quiet hi { hfits with } hpending hwrites hbuffer (congrArg (· + _) hindex)
      fun q => hlife ▸ hi.alive q
  unfold mainThread at h
  split at h
  case h_5 hmain =>
    cases h
    have hoff := (hs p).signalThread (by rw [hmain]; rfl)
    have htaken : ∀ signal, SignalPc.waiting = .received signal ↔
        t.stage p = some .taken ∧ signal = permission p := by
      intro signal
      rw [← hfits.taken signal, hoff]
      simp
    exact ⟨t, token_quiet hi { hfits with taken := htaken } rfl rfl rfl rfl hi.alive⟩
  case h_6 hmain =>
    cases h
    have hoff := (hs p).writer (by rw [hmain]; rfl)
    have hstart : ∀ pc : WriterPc, pc = .awaitPeer ∨ pc = .loopTest 0 → ∀ main,
        Token t ⟨Function.update s.procs p { s.procs p with main := main, writer := pc },
          s.shared⟩ := by
      intro pc hpc main
      have houtside := hfits.outside (by rw [hoff]; rfl)
      have hnew : Fits p (t.stage p) (s.shared.pending p) s.shared.writes.length
          { s.procs p with writer := pc } ∧ pc.lag = (s.procs p).writer.lag := by
        rw [hoff]
        rcases hpc with rfl | rfl
        · exact ⟨fits_writer hfits (by simp [WriterPc.stage]) (fun _ => houtside) trivial
            (by rw [hoff]; rfl) (by simp) (by simp), rfl⟩
        · exact ⟨fits_writer hfits (by simp [WriterPc.stage]) (fun _ => houtside) (Nat.zero_le _)
            (by rw [hoff]; rfl) (by simp) (by simp), rfl⟩
      exact token_quiet hi { hnew.1 with } rfl rfl rfl (congrArg (_ + ·) hnew.2) hi.alive
    refine ⟨t, hstart _ ?_ _⟩
    cases p
    · exact Or.inl rfl
    · exact Or.inr rfl
  case h_7 =>
    split at h
    · cases h
      exact ⟨t, hquiet _ _ rfl rfl rfl rfl rfl⟩
    · cases h
  case h_9 hmain =>
    cases h
    refine thread_ends hi ((hs p).joined (Or.inr hmain)) rfl (Or.inr rfl) rfl rfl fun q => ?_
    by_cases hq : q = p
    · simp [hq]
    · simpa [hq] using hi.alive q
  all_goals
    cases h
    refine ⟨t, ?_⟩
    apply hquiet <;> rfl

/-- The writer moves on without a store, a lock of the flag or a signal. -/
theorem writer_goes (hi : Token t s) {old : WriterPc} (hw : (s.procs p).writer = old)
    (pc : WriterPc) (hinside : ∀ st, pc.stage = some st → t.stage p = some st)
    (houtside : pc.stage = none → t.stage p ≠ some .used ∧ t.stage p ≠ some .cleared)
    (hloop : pc.InLoop) (hstores : pc.stores = old.stores) (hlag : pc.lag = old.lag)
    (hslot : ∀ i slot, pc = .storeChar i slot → slot = s.shared.writes.length)
    (hvalue : ∀ i value, pc = .storeIndex i value → value+1 = s.shared.writes.length) :
    Token t ⟨Function.update s.procs p { s.procs p with writer := pc }, s.shared⟩ := by
  subst hw
  exact token_quiet hi (fits_writer (hi.fits p) hinside houtside hloop hstores hslot hvalue)
    rfl rfl rfl (congrArg (_ + ·) hlag) hi.alive

/-- The writer moves on with the permission as it has it. -/
theorem writer_passes (hi : Token t s) {old : WriterPc} (hw : (s.procs p).writer = old)
    (pc : WriterPc) (hstage : pc.stage = old.stage) (hloop : pc.InLoop)
    (hstores : pc.stores = old.stores) (hlag : pc.lag = old.lag)
    (hslot : ∀ i slot, pc = .storeChar i slot → slot = s.shared.writes.length)
    (hvalue : ∀ i value, pc = .storeIndex i value → value+1 = s.shared.writes.length) :
    Token t ⟨Function.update s.procs p { s.procs p with writer := pc }, s.shared⟩ := by
  have hsame : pc.stage = (s.procs p).writer.stage := by rw [hw, hstage]
  exact writer_goes hi hw pc (fun st hst => (hi.fits p).inside st (hsame.symm.trans hst))
    (fun hidle => (hi.fits p).outside (hsame.symm.trans hidle)) hloop hstores hlag hslot hvalue

theorem write_appends {writes : List Write} {buffer : ℕ → UInt8} {n : ℕ} {char : UInt8}
    (hwrites : writes = (List.range writes.length).map fun j => ⟨turn j, j, buffer j⟩)
    (hturn : turn writes.length = p) (hn : n = writes.length) :
    writes++[⟨p, n, char⟩] = (List.range (writes++[(⟨p, n, char⟩ : Write)]).length).map
      fun j => ⟨turn j, j, Function.update buffer n char j⟩ := by
  rw [List.length_append, List.length_singleton, List.range_succ, List.map_append, List.map_singleton,
    hn, hturn, Function.update_self]
  congr 1
  conv_lhs => rw [hwrites]
  apply List.map_congr_left
  intro j hj
  rw [Function.update_of_ne (List.mem_range.mp hj).ne]

/-- The character goes into the first free slot. -/
theorem store_token {i slot : ℕ} {char : UInt8} (hi : Token t s)
    (hw : (s.procs p).writer = .storeChar i slot) :
    Token (.held p .used) ⟨Function.update s.procs p { s.procs p with writer := .readIndex i },
      { s.shared with
        data := { s.shared.data with buffer := Function.update s.shared.data.buffer slot char },
        writes := s.shared.writes++[⟨p, slot, char⟩] }⟩ := by
  have hfits := hi.fits p
  have hheld : t = .held p .permitted := held_of_inside hi (by rw [hw]; rfl)
  have hslot := hfits.slot i slot hw
  have hturn : turn s.shared.writes.length = p := hi.holder p .permitted hheld
  have hstage : t.stage p = some .permitted := hfits.inside _ (by rw [hw]; rfl)
  have hindex := index_of_held hi hheld
  have hloop := hfits.inLoop
  have hstores := hfits.stores
  rw [hw] at hindex hloop hstores
  have hlength : (s.shared.writes++[(⟨p, slot, char⟩ : Write)]).length =
      s.shared.writes.length+1 := by simp
  apply token_update
  · rw [hlength]
    have hself : (Place.held p Stage.used).stage p = some .used := if_pos rfl
    rw [hself]
    exact {
      flag := by simp [hfits.flag, hstage]
      pending := fun signal => by simp [hfits.pending, hstage]
      taken := fun signal => by simp [hfits.taken, hstage]
      inside := fun st hst => hst
      outside := by simp [WriterPc.stage]
      inLoop := hloop
      stores := by
        rw [share_succ, if_pos hturn, ← hstores]
        rfl
      slot := by simp
      value := by simp }
  · have hpeer : (Place.held p Stage.used).stage p.peer = none := if_neg (peer_ne p)
    have hnone : t.stage p.peer = none := by
      rw [hheld]
      exact if_neg (peer_ne p)
    rw [hpeer, hlength]
    refine fits_other (n := s.shared.writes.length) ?_ ?_
    · rw [← hnone]
      exact hi.fits p.peer
    · rw [share_succ, if_neg (by rw [hturn]; exact (peer_ne p).symm), Nat.add_zero]
  · rw [hlength, lag_of_idle (idle_of_held hi hheld (peer_ne p)), ← hindex]
    rfl
  · intro q stage hq
    cases hq
    rw [hlength, turn_succ, hturn]
    rfl
  · simp
  · exact write_appends hi.writes hturn hslot
  · exact hi.alive

/-- The flag is reset and the permission is with the writer alone. -/
theorem reset_token {i : ℕ} (hi : Token t s) (hw : (s.procs p).writer = .resetTurn i) :
    Token (.held p .cleared) ⟨Function.update s.procs p
      { s.procs p with writer := .send i, canWrite := false }, s.shared⟩ := by
  have hfits := hi.fits p
  have hheld : t = .held p .used := held_of_inside hi (by rw [hw]; rfl)
  have hstage : t.stage p = some .used := hfits.inside _ (by rw [hw]; rfl)
  have hself : (Place.held p Stage.cleared).stage p = some .cleared := if_pos rfl
  have hloop := hfits.inLoop
  have hstores := hfits.stores
  refine token_moves hi hheld (if_neg (peer_ne p)) ?_ rfl rfl rfl (by rw [hw]; rfl) ?_ (by simp)
    hi.alive
  · rw [hw] at hloop hstores
    rw [hself]
    exact {
      flag := by simp
      pending := fun signal => by simp [hfits.pending, hstage]
      taken := fun signal => by simp [hfits.taken, hstage]
      inside := fun st hst => hst
      outside := by simp [WriterPc.stage]
      inLoop := hloop
      stores := hstores
      slot := by simp
      value := by simp }
  · intro q stage hq
    cases hq
    exact hi.holder p .used hheld

/-- The signal reaches the other process, or has come too late for it. -/
theorem send_token {i : ℕ} {sent : Party → ℕ} (hs : AllStarted pids s) (hi : Token t s)
    (hw : (s.procs p).writer = .send i) (hblocked : s.shared.blocked p.peer = true) :
    ∃ t', Token t' ⟨Function.update s.procs p { s.procs p with writer := .asleep i },
      deliver p.peer (permission p.peer) { s.shared with sent := sent }⟩ := by
  have hfits := hi.fits p
  have hheld : t = .held p .cleared := held_of_inside hi (by rw [hw]; rfl)
  have hstage : t.stage p = some .cleared := hfits.inside _ (by rw [hw]; rfl)
  have hturn : turn s.shared.writes.length = p.peer := hi.holder p .cleared hheld
  have hloop := hfits.inLoop
  have hstores := hfits.stores
  rw [hw] at hloop hstores
  have hself : Fits p none (s.shared.pending p) s.shared.writes.length
      { s.procs p with writer := .asleep i } :=
    { flag := by simp [hfits.flag, hstage]
      pending := fun signal => by simp [hfits.pending, hstage]
      taken := fun signal => by simp [hfits.taken, hstage]
      inside := by simp [WriterPc.stage]
      outside := by simp
      inLoop := hloop
      stores := hstores
      slot := by simp
      value := by simp }
  cases hlife : s.shared.life p.peer with
  | running =>
    unfold deliver
    rw [if_neg (by simp [hlife]), if_pos hblocked]
    refine ⟨.held p.peer .pending, ?_⟩
    have hnone : t.stage p.peer = none := by
      rw [hheld]
      exact if_neg (peer_ne p)
    have hother := hi.fits p.peer
    rw [hnone] at hother
    have hpeer : (Place.held p.peer Stage.pending).stage p.peer = some .pending := if_pos rfl
    have hgives : (Place.held p.peer Stage.pending).stage p = none := if_neg (peer_ne p).symm
    apply token_update
    · dsimp only
      rw [hgives, Function.update_of_ne (peer_ne p).symm]
      exact hself
    · dsimp only
      rw [hpeer, Function.update_self]
      exact { hother with
        flag := by simp [hother.flag]
        pending := by
          intro signal
          by_cases hsignal : signal = permission p.peer
          · simp [hsignal]
          · simp [hsignal, hother.pending]
        taken := by simp [hother.taken]
        inside := fun st hst => by cases hother.inside st hst
        outside := by simp }
    · have hindex := index_of_held hi hheld
      rw [hw] at hindex
      rw [lag_of_idle (idle_of_held hi hheld (peer_ne p))]
      exact hindex
    · intro q stage hq
      cases hq
      exact hturn
    · simp
    · exact hi.writes
    · exact hi.alive
  | exited =>
    have hended := (hs p.peer).joined (Or.inr ((hs p.peer).exited hlife))
    unfold deliver
    rw [if_pos (by simp [hlife])]
    exact ⟨.gone, token_moves hi hheld rfl hself rfl rfl rfl (by rw [hw]; rfl) (by simp)
      (fun _ => ended_turn hi hended hturn) hi.alive⟩
  | killed => exact absurd hlife (hi.alive p.peer)

/-- The test of the loop, which the writer leaves after its last round. -/
theorem loop_token {i : ℕ} (hi : Token t s) (hw : (s.procs p).writer = .loopTest i) :
    Token t ⟨Function.update s.procs p
      { s.procs p with writer := if i < rounds then .awaitTurn i else .ended }, s.shared⟩ := by
  have hloop := (hi.fits p).inLoop
  rw [hw] at hloop
  split
  · rename_i hlt
    exact writer_passes hi hw (.awaitTurn i) rfl hlt rfl rfl (by simp) (by simp)
  · rename_i hge
    have hlast : rounds = i := le_antisymm (not_lt.mp hge) hloop
    exact writer_passes hi hw .ended rfl trivial hlast rfl (by simp) (by simp)

/-- The flag that has been seen is the permission, which the writer now uses. -/
theorem turn_token {i : ℕ} (hi : Token t s) (hw : (s.procs p).writer = .awaitTurn i)
    (hcan : (s.procs p).canWrite = true) :
    Token t ⟨Function.update s.procs p { s.procs p with writer := .checkFull i }, s.shared⟩ := by
  have hloop := (hi.fits p).inLoop
  have hout := (hi.fits p).outside
  rw [hw] at hloop hout
  have hstage := ((hi.fits p).flag.mp hcan).resolve_right (hout rfl).1
  exact writer_goes hi hw (.checkFull i) (fun st hst => by cases hst; exact hstage)
    (by simp [WriterPc.stage]) hloop rfl rfl (by simp) (by simp)

/-- A writer with the permission reads where the next character goes. -/
theorem index_of_permitted (hi : Token t s) (hstage : (s.procs p).writer.stage = some .permitted)
    (hlag : (s.procs p).writer.lag = 0) : s.shared.data.writeIndex = s.shared.writes.length := by
  have hindex := index_of_held hi (held_of_inside hi hstage)
  rwa [hlag, Nat.add_zero] at hindex

/-- The buffer is never full. -/
theorem room_token {i : ℕ} (hi : Token t s) (hw : (s.procs p).writer = .checkFull i) :
    Token t ⟨Function.update s.procs p { s.procs p with
      writer := if bufferSize ≤ s.shared.data.writeIndex then .ended else .readSlot i },
      s.shared⟩ := by
  have hloop := (hi.fits p).inLoop
  have hindex := index_of_permitted hi (by rw [hw]; rfl) (by rw [hw]; rfl)
  have hroom : ¬ bufferSize ≤ s.shared.data.writeIndex := by
    have hle := writes_le hi
    rw [hindex]
    unfold rounds at hle
    unfold bufferSize
    omega
  rw [hw] at hloop
  rw [if_neg hroom]
  exact writer_passes hi hw (.readSlot i) rfl hloop rfl rfl (by simp) (by simp)

theorem slot_token {i : ℕ} (hi : Token t s) (hw : (s.procs p).writer = .readSlot i) :
    Token t ⟨Function.update s.procs p
      { s.procs p with writer := .storeChar i s.shared.data.writeIndex }, s.shared⟩ := by
  have hloop := (hi.fits p).inLoop
  have hindex := index_of_permitted hi (by rw [hw]; rfl) (by rw [hw]; rfl)
  rw [hw] at hloop
  refine writer_passes hi hw (.storeChar i s.shared.data.writeIndex) rfl hloop rfl rfl ?_ (by simp)
  intro j slot hpc
  cases hpc
  exact hindex

/-- The index is read while it lags behind the character. -/
theorem read_token {i : ℕ} (hi : Token t s) (hw : (s.procs p).writer = .readIndex i) :
    Token t ⟨Function.update s.procs p
      { s.procs p with writer := .storeIndex i s.shared.data.writeIndex }, s.shared⟩ := by
  have hloop := (hi.fits p).inLoop
  have hindex := index_of_held hi (held_of_inside hi (by rw [hw]; rfl))
  rw [hw] at hloop hindex
  refine writer_passes hi hw (.storeIndex i s.shared.data.writeIndex) rfl hloop rfl rfl (by simp) ?_
  intro j value hpc
  cases hpc
  exact hindex

theorem index_token {i value : ℕ} (hi : Token t s) (hw : (s.procs p).writer = .storeIndex i value) :
    Token t ⟨Function.update s.procs p { s.procs p with writer := .resetTurn i },
      { s.shared with data := { s.shared.data with writeIndex := value+1 } }⟩ := by
  have hfits := hi.fits p
  have hindex := index_of_held hi (held_of_inside hi (by rw [hw]; rfl))
  have hvalue := hfits.value i value hw
  have hloop := hfits.inLoop
  have hin := hfits.inside
  rw [hw] at hin hloop hindex
  refine token_quiet hi (fits_writer hfits hin (by simp [WriterPc.stage]) hloop (by rw [hw]; rfl)
    (by simp) (by simp)) rfl rfl rfl ?_ hi.alive
  rw [hw, hindex]
  exact hvalue

theorem writer_token {rand : ℕ} (hs : AllStarted pids s) (hi : Token t s)
    (hblocked : (s.procs p).writer.stage = some .cleared → s.shared.blocked p.peer = true)
    (h : writerThread pids p rand (s.procs p) s.shared = some (proc, k)) :
    ∃ t', Token t' { procs := Function.update s.procs p proc, shared := k } := by
  cases hw : (s.procs p).writer with
  | off | ended => simp [writerThread, hw] at h
  | awaitPeer =>
    simp only [writerThread, hw] at h
    split at h
    · cases h
    · cases h
      exact ⟨t, writer_passes hi hw (.loopTest 0) rfl (Nat.zero_le _) rfl rfl (by simp) (by simp)⟩
  | loopTest i =>
    simp only [writerThread, hw] at h
    cases h
    exact ⟨t, loop_token hi hw⟩
  | awaitTurn i =>
    simp only [writerThread, hw] at h
    split at h
    · rename_i hcan
      cases h
      exact ⟨t, turn_token hi hw hcan⟩
    · cases h
  | checkFull i =>
    simp only [writerThread, hw] at h
    cases h
    exact ⟨t, room_token hi hw⟩
  | readSlot i =>
    simp only [writerThread, hw] at h
    cases h
    exact ⟨t, slot_token hi hw⟩
  | storeChar i slot =>
    simp only [writerThread, hw] at h
    cases h
    exact ⟨.held p .used, store_token hi hw⟩
  | readIndex i =>
    simp only [writerThread, hw] at h
    cases h
    exact ⟨t, read_token hi hw⟩
  | storeIndex i value =>
    simp only [writerThread, hw] at h
    cases h
    exact ⟨t, index_token hi hw⟩
  | resetTurn i =>
    simp only [writerThread, hw] at h
    cases h
    exact ⟨.held p .cleared, reset_token hi hw⟩
  | send i =>
    rw [send_reaches pids (hs p) hw] at h
    cases h
    exact send_token hs hi hw (hblocked (by rw [hw]; rfl))
  | asleep i =>
    have hloop := (hi.fits p).inLoop
    rw [hw] at hloop
    simp only [writerThread, hw] at h
    cases h
    exact ⟨t, writer_passes hi hw (.loopTest (i+1)) rfl hloop rfl rfl (by simp) (by simp)⟩

/-- The writer is outside its round while the permission has not come to the
flag. -/
theorem idle_of_signal {stage : Option Stage} {pending : Signal → Bool} {n : ℕ}
    (hfits : Fits p stage pending n proc) (h : stage = some .pending ∨ stage = some .taken) :
    proc.writer.stage = none := by
  rw [Option.eq_none_iff_forall_ne_some]
  intro st hst
  have hin := hfits.inside st hst
  cases hw : proc.writer <;> rw [hw] at hst <;> cases hst <;> rcases h with rfl | rfl <;> cases hin

/-- `sigwait` takes the permission. -/
theorem sigwait_token {signal : Signal} {received : Party → ℕ} (hi : Token t s)
    (hpending : s.shared.pending p signal = true) :
    Token (.held p .taken)
      ⟨Function.update s.procs p { s.procs p with signalThread := .received signal },
        { s.shared with
          pending := Function.update s.shared.pending p
            (Function.update (s.shared.pending p) signal false),
          received := received }⟩ := by
  have hfits := hi.fits p
  obtain ⟨hstage, hsignal⟩ := (hfits.pending signal).mp hpending
  have hheld := held_of_stage hstage
  have hidle := idle_of_signal hfits (Or.inl hstage)
  have hself : (Place.held p Stage.taken).stage p = some .taken := if_pos rfl
  refine token_moves hi hheld (if_neg (peer_ne p)) ?_ (Function.update_of_ne (peer_ne p) _ _) rfl rfl
    rfl ?_ (by simp) hi.alive
  · dsimp only
    rw [hself, Function.update_self]
    exact { hfits with
      flag := by simp [hfits.flag, hstage]
      pending := by
        intro other
        by_cases hother : other = signal
        · simp [hother]
        · simp [hother, hfits.pending, hstage, ← hsignal]
      taken := by
        intro other
        simp [hsignal, eq_comm]
      inside := fun st hst => by simp [hidle] at hst
      outside := by simp }
  · intro q stage hq
    cases hq
    exact hi.holder p .pending hheld

/-- The signal thread sets the flag. -/
theorem handle_token (hi : Token t s) (h : signalThread p (s.procs p) = some proc) :
    Token (.held p .permitted) ⟨Function.update s.procs p proc, s.shared⟩ := by
  have hfits := hi.fits p
  unfold signalThread at h
  split at h
  · rename_i signal hreceived
    obtain ⟨hstage, hsignal⟩ := (hfits.taken signal).mp hreceived
    have hheld := held_of_stage hstage
    have hidle := idle_of_signal hfits (Or.inr hstage)
    have hself : (Place.held p Stage.permitted).stage p = some .permitted := if_pos rfl
    rw [if_pos hsignal] at h
    cases h
    refine token_moves hi hheld (if_neg (peer_ne p)) ?_ rfl rfl rfl rfl ?_ (by simp) hi.alive
    · rw [hself]
      exact { hfits with
        flag := by simp
        pending := by simp [hfits.pending, hstage]
        taken := by simp
        inside := fun st hst => by simp [hidle] at hst
        outside := by simp }
    · intro q stage hq
      cases hq
      exact hi.holder p .taken hheld
  · cases h

def TargetBlocked (e : Event) (s : Processes) : Prop :=
  sends e s = true → s.shared.blocked e.1.peer = true

theorem sends_of_cleared {rand : ℕ} (h : (s.procs p).writer.stage = some .cleared) :
    sends (p, .write rand) s = true := by
  unfold sends
  dsimp only
  cases hw : (s.procs p).writer <;> rw [hw] at h <;> cases h

theorem token_step {e : Event} {s' : Processes} (hs : AllStarted pids s) (hok : TargetBlocked e s)
    (hi : Token t s) (h : Sharing.step (act pids) e s = some s') : ∃ t', Token t' s' := by
  obtain ⟨p, action⟩ := e
  obtain ⟨proc, k, hact, rfl⟩ := Sharing.step_next (act pids) h
  have hlife := act_running hact
  unfold act at hact
  rw [if_neg (not_not.mpr hlife)] at hact
  dsimp only at hact ⊢
  cases action with
  | main => exact main_token hs hi hact
  | write rand =>
    exact writer_token hs hi (fun hstage => hok (sends_of_cleared hstage)) hact
  | sigwait signal =>
    dsimp only at hact
    split at hact
    · rename_i hwait
      cases hact
      exact ⟨_, sigwait_token hi hwait.2⟩
    · cases hact
  | handle =>
    obtain ⟨next, hnext, heq⟩ := Option.map_eq_some_iff.mp hact
    cases heq
    exact ⟨_, handle_token hi hnext⟩
  | cancelled =>
    dsimp only at hact
    split at hact
    · rename_i hcancel
      cases hact
      exact thread_ends hi ((hs p).joined (Or.inr hcancel.1)) rfl (Or.inl rfl) rfl rfl hi.alive
    · cases hact

end

theorem segment_token (pids : Pids) (buffer : ℕ → UInt8) (readyFlag : ℤ) :
    Token (.held .a .permitted) (segmentReady pids buffer readyFlag) where
  fits p := by
    cases p with
    | a =>
      have hstage : (Place.held .a .permitted).stage .a = some .permitted := rfl
      rw [hstage]
      exact ⟨by simp [segmentReady], by simp [segmentReady], by simp [segmentReady],
        by simp [segmentReady, WriterPc.stage], by simp, trivial,
        by simp [segmentReady, WriterPc.stores, share], by simp [segmentReady],
        by simp [segmentReady]⟩
    | b =>
      have hstage : (Place.held .a .permitted).stage .b = none := rfl
      rw [hstage]
      exact ⟨by simp [segmentReady], by simp [segmentReady], by simp [segmentReady],
        by simp [segmentReady, WriterPc.stage], by simp, trivial,
        by simp [segmentReady, WriterPc.stores, share], by simp [segmentReady],
        by simp [segmentReady]⟩
  index := rfl
  holder p stage h := by
    cases h
    rfl
  gone h := by cases h
  writes := rfl
  alive p := by simp [segmentReady]

def Passing (pids : Pids) (s : Processes) : Prop :=
  AllStarted pids s ∧ ∃ t, Token t s

theorem passing_step {pids : Pids} {e : Event} {s s' : Processes} (hs : Passing pids s)
    (hok : TargetBlocked e s) (h : Sharing.step (act pids) e s = some s') : Passing pids s' := by
  obtain ⟨hstarted, t, ht⟩ := hs
  exact ⟨started_step hstarted h, token_step hstarted hok ht h⟩

theorem segment_passing (pids : Pids) (buffer : ℕ → UInt8) (readyFlag : ℤ) :
    Passing pids (segmentReady pids buffer readyFlag) :=
  ⟨segment_started pids buffer readyFlag, _, segment_token pids buffer readyFlag⟩

end ProgSistema.PingPong
