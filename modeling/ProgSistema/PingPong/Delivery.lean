import ProgSistema.PingPong.Alternation

/-!
# A signal before the mask

`processo_b` publishes its identifier, which is what the writer of `processo_a`
waits for, before it blocks the signals. A signal that is sent in between ends
`processo_b`. Where the wait is over only after `processo_b` has blocked them,
every signal finds its target blocked, and each is taken by `sigwait` or still
pending, save for the last one if `processo_a` does not wait for it.
-/

set_option autoImplicit false

namespace ProgSistema.PingPong

/-- The signals sent to a process that its `sigwait` has not taken are pending,
and it has taken all of them when it has ended. -/
structure Lossless (p : Party) (s : Processes) : Prop where
  count : s.shared.sent p.peer = s.shared.received p+(s.shared.pending p (permission p)).toNat
  taken : s.shared.life p = .exited → s.shared.sent p.peer = s.shared.received p

/-- The last signal for `processo_a` may find that it has ended. -/
def Counted (s : Processes) : Prop :=
  ∀ p, p = .b ∨ s.shared.life p ≠ .exited →
    s.shared.sent p.peer = s.shared.received p+(s.shared.pending p (permission p)).toNat

/-- The writer of `processo_a` leaves its wait only when the `pthread_sigmask`
of `processo_b` has returned. -/
def StartsInOrder (e : Event) (s : Processes) : Prop :=
  match e with
  | (.a, .write _) => (s.procs .a).writer = .awaitPeer → (s.procs .b).main.unblocked = false
  | _ => True

def WriterPc.spent : WriterPc → Bool
  | .asleep i => rounds ≤ i+1
  | .loopTest i => rounds ≤ i
  | .ended => true
  | _ => false

def Quiet (s : Processes) : Prop :=
  (s.procs .b).writer.spent = true ∧ s.shared.pending .a (permission .a) = false

/-- `processo_a` cancels its signal thread only when `processo_b` has sent its
last signal and that one has been taken. -/
def EndsInOrder (e : Event) (s : Processes) : Prop :=
  match e with
  | (.a, .main) => (s.procs .a).main = .cancel → Quiet s
  | _ => True

instance (s : Processes) : Decidable (Quiet s) := inferInstanceAs (Decidable (_ ∧ _))

instance (e : Event) (s : Processes) : Decidable (StartsInOrder e s) := by
  unfold StartsInOrder
  split <;> infer_instance

instance (e : Event) (s : Processes) : Decidable (EndsInOrder e s) := by
  unfold EndsInOrder
  split <;> infer_instance

theorem counted_same {s t : Processes} (hs : Counted s) (hsent : t.shared.sent = s.shared.sent)
    (hreceived : t.shared.received = s.shared.received)
    (hpending : t.shared.pending = s.shared.pending)
    (hlife : ∀ p, s.shared.life p = .exited → t.shared.life p = .exited) : Counted t := by
  intro p hp
  rw [hsent, hreceived, hpending]
  exact hs p (hp.imp_right fun hne hexit => hne (hlife p hexit))

section
variable {pids : Pids} {t : Place} {s : Processes} {p : Party} {proc : Proc} {k : Machine}

/-- `processo_b` never ends with the turn. -/
theorem turn_left (hi : Token t s) (hended : (s.procs p).writer = .ended)
    (hturn : turn s.shared.writes.length = p) : p = .a := by
  rw [ended_turn hi hended hturn] at hturn
  exact hturn.symm

theorem finish_counted (hi : Token t s) (hc : Counted s) (hended : (s.procs p).writer = .ended) :
    Counted ⟨Function.update s.procs p { s.procs p with signalThread := .ended },
      { s.shared with
        life := Function.update s.shared.life p .exited,
        pending := Function.update s.shared.pending p fun _ => false }⟩ := by
  intro q hq
  dsimp only at hq ⊢
  by_cases hqp : q = p
  · subst hqp
    have hb : q = .b := hq.resolve_right fun hne => hne (Function.update_self q _ _)
    have hnone : s.shared.pending q (permission q) = false := by
      rw [Bool.eq_false_iff]
      intro hpending
      have hstage := (((hi.fits q).pending _).mp hpending).1
      have hturn := hi.holder q .pending (held_of_stage hstage)
      exact absurd (hb.symm.trans (turn_left hi hended hturn)) (by decide)
    rw [hc q (Or.inl hb), hnone, Function.update_self]
  · rw [Function.update_of_ne hqp] at hq ⊢
    exact hc q hq

theorem main_counted (hs : AllStarted pids s) (hi : Token t s) (hc : Counted s)
    (h : mainThread pids p (s.procs p) s.shared = some (proc, k)) :
    Counted { procs := Function.update s.procs p proc, shared := k } := by
  unfold mainThread at h
  split at h
  case h_7 =>
    split at h
    · cases h
      exact counted_same hc rfl rfl rfl fun _ hexit => hexit
    · cases h
  case h_9 hmain =>
    cases h
    exact finish_counted hi hc ((hs p).joined (Or.inr hmain))
  all_goals
    cases h
    exact counted_same hc rfl rfl rfl fun _ hexit => hexit

/-- A signal becomes pending where none of its kind was. -/
theorem send_counted {i : ℕ} (hs : AllStarted pids s) (hi : Token t s) (hc : Counted s)
    (hw : (s.procs p).writer = .send i) (hblocked : s.shared.blocked p.peer = true) :
    Counted ⟨Function.update s.procs p { s.procs p with writer := .asleep i },
      deliver p.peer (permission p.peer)
        { s.shared with sent := Function.update s.shared.sent p (s.shared.sent p+1) }⟩ := by
  have hheld : t = .held p .cleared := held_of_inside hi (by rw [hw]; rfl)
  have hnone : s.shared.pending p.peer (permission p.peer) = false := by
    rw [Bool.eq_false_iff]
    intro hpending
    have hstage := (((hi.fits p.peer).pending _).mp hpending).1
    rw [hheld] at hstage
    simp [Place.stage, peer_ne] at hstage
  unfold deliver
  by_cases hlife : s.shared.life p.peer = .running
  · rw [if_neg (by simp [hlife]), if_pos hblocked]
    intro q hq
    have hold := hc q hq
    by_cases hqp : q = p.peer
    · subst hqp
      dsimp only
      rw [peer_peer] at hold ⊢
      rw [Function.update_self, Function.update_self, Function.update_self, hold, hnone]
      rfl
    · have hsame : q = p := by
        rw [eq_peer hqp, peer_peer]
      subst hsame
      dsimp only
      rw [Function.update_of_ne (peer_ne q), Function.update_of_ne hqp]
      exact hold
  · rw [if_pos hlife]
    have hexited : s.shared.life p.peer = .exited := by
      cases hl : s.shared.life p.peer with
      | running => exact absurd hl hlife
      | exited => rfl
      | killed => exact absurd hl (hi.alive p.peer)
    have hended := (hs p.peer).joined (Or.inr ((hs p.peer).exited hexited))
    have ha : p.peer = .a := turn_left hi hended (hi.holder p .cleared hheld)
    intro q hq
    have hq' : q = p := by
      rcases hq with hb | hne
      · rw [eq_peer (show q ≠ p.peer by rw [ha, hb]; decide), peer_peer]
      · rw [eq_peer (show q ≠ p.peer by rintro rfl; exact hne hexited), peer_peer]
    subst hq'
    dsimp only
    rw [Function.update_of_ne (peer_ne q)]
    exact hc q hq

theorem writer_counted {rand : ℕ} (hs : AllStarted pids s) (hi : Token t s) (hc : Counted s)
    (hblocked : (s.procs p).writer.stage = some .cleared → s.shared.blocked p.peer = true)
    (h : writerThread pids p rand (s.procs p) s.shared = some (proc, k)) :
    Counted { procs := Function.update s.procs p proc, shared := k } := by
  cases hw : (s.procs p).writer with
  | send i =>
    rw [send_reaches pids (hs p) hw] at h
    cases h
    exact send_counted hs hi hc hw (hblocked (by rw [hw]; rfl))
  | awaitPeer | awaitTurn =>
    simp only [writerThread, hw] at h
    split at h <;> cases h
    exact counted_same hc rfl rfl rfl fun _ hexit => hexit
  | off | ended => simp [writerThread, hw] at h
  | loopTest | checkFull | readSlot | storeChar | readIndex | storeIndex | resetTurn | asleep =>
    simp only [writerThread, hw] at h
    cases h
    exact counted_same hc rfl rfl rfl fun _ hexit => hexit

theorem sigwait_counted {signal : Signal} (hi : Token t s) (hc : Counted s)
    (hpending : s.shared.pending p signal = true) :
    Counted ⟨Function.update s.procs p { s.procs p with signalThread := .received signal },
      { s.shared with
        pending := Function.update s.shared.pending p
          (Function.update (s.shared.pending p) signal false),
        received := Function.update s.shared.received p (s.shared.received p+1) }⟩ := by
  have hsignal := (((hi.fits p).pending signal).mp hpending).2
  intro q hq
  by_cases hqp : q = p
  · subst hqp
    have hold := hc q hq
    rw [← hsignal, hpending] at hold
    dsimp only
    rw [Function.update_self, Function.update_self, ← hsignal, Function.update_self, hold]
    rfl
  · dsimp only
    rw [Function.update_of_ne hqp, Function.update_of_ne hqp]
    exact hc q hq

theorem blocked_of_writer (hs : Started pids p proc k) (hw : proc.writer ≠ .off) :
    k.blocked p = true := by
  rw [hs.blocked]
  cases hmain : proc.main <;> first | rfl | exact absurd (hs.writer (by rw [hmain]; rfl)) hw

/-- `processo_b` sends after characters of `processo_a` only. -/
theorem sender_blocked (hs : AllStarted pids s) (hi : Token t s)
    (hstage : (s.procs .b).writer.stage = some .cleared) : s.shared.blocked .a = true := by
  apply blocked_of_writer (hs .a)
  intro hoff
  have hb := (hi.fits .b).stores
  have ha := (hi.fits .a).stores
  have hone : 1 ≤ (s.procs .b).writer.stores := by
    cases hw : (s.procs .b).writer <;> rw [hw] at hstage <;> cases hstage
    exact Nat.succ_le_succ (Nat.zero_le _)
  rw [hoff] at ha
  have ha' : 0 = (s.shared.writes.length+1)/2 := ha
  have hb' : (s.procs .b).writer.stores = s.shared.writes.length/2 := hb
  omega

def Masked (s : Processes) : Prop :=
  (s.procs .a).writer.turning = true → (s.procs .b).main.unblocked = false

theorem target_blocked {e : Event} (hs : AllStarted pids s) (hi : Token t s) (hm : Masked s) :
    TargetBlocked e s := by
  obtain ⟨p, action⟩ := e
  intro hsends
  have hstage : (s.procs p).writer.stage = some .cleared := by
    unfold sends at hsends
    split at hsends
    · rename_i hw
      dsimp only at hw
      rw [hw]
      rfl
    · cases hsends
  cases p with
  | b => exact sender_blocked hs hi hstage
  | a =>
    have hturning : (s.procs .a).writer.turning = true := by
      cases hw : (s.procs .a).writer <;> rw [hw] at hstage <;> cases hstage
      rfl
    show s.shared.blocked .b = true
    rw [(hs .b).blocked, hm hturning]
    rfl

structure Keeps (p : Party) (action : Action) (proc proc' : Proc) (k k' : Machine) : Prop where
  blocked : proc.main.unblocked = false → proc'.main.unblocked = false
  turning : proc'.writer.turning = true → proc.writer.turning = true ∨ p = .b ∨
    (∃ rand, action = .write rand) ∧ proc.writer = .awaitPeer
  finishing : proc'.main = .finish → proc.main = .finish ∨ action = .main ∧ proc.main = .cancel
  spent : proc.writer.spent = true → proc'.writer.spent = true ∧ k'.sent = k.sent ∧
    k'.pending p.peer = k.pending p.peer
  sent : k'.sent p.peer = k.sent p.peer
  received : k'.received p.peer = k.received p.peer
  pending : ∀ signal, k'.pending p signal = true → k.pending p signal = true
  exits : k'.life p = .exited → proc.main = .finish ∧ k'.received p = k.received p

section Kept
variable {proc' : Proc} {k' : Machine} {action : Action}

theorem Keeps.of_same (hmain : proc'.main = proc.main) (hwriter : proc'.writer = proc.writer)
    (hsent : k'.sent = k.sent) (hreceived : k'.received p.peer = k.received p.peer)
    (hpeer : k'.pending p.peer = k.pending p.peer)
    (hpending : ∀ signal, k'.pending p signal = true → k.pending p signal = true)
    (hexits : k'.life p = .exited → proc.main = .finish ∧ k'.received p = k.received p) :
    Keeps p action proc proc' k k' where
  blocked := hmain ▸ id
  turning h := Or.inl (hwriter ▸ h)
  finishing h := Or.inl (hmain ▸ h)
  spent h := ⟨hwriter ▸ h, hsent, hpeer⟩
  sent := congrFun hsent _
  received := hreceived
  pending := hpending
  exits := hexits

theorem not_exits (hlife : k.life p = .running) {P : Prop} (hexit : k.life p = .exited) : P := by
  rw [hlife] at hexit
  cases hexit

theorem main_keeps (hlife : k.life p = .running) (hs : Started pids p proc k)
    (h : mainThread pids p proc k = some (proc', k')) : Keeps p .main proc proc' k k' := by
  unfold mainThread at h
  split at h
  case h_6 hmain =>
    cases h
    have hoff := hs.writer (by rw [hmain]; rfl)
    refine ⟨fun _ => rfl, ?_, by simp, fun hspent => ?_, rfl, rfl, fun _ => id, not_exits hlife⟩
    · cases p
      · exact fun hturning => absurd hturning Bool.false_ne_true
      · exact fun _ => Or.inr (Or.inl rfl)
    · rw [hoff] at hspent
      cases hspent
  case h_7 =>
    split at h
    · cases h
      exact ⟨fun _ => rfl, Or.inl, by simp, fun hspent => ⟨hspent, rfl, rfl⟩, rfl, rfl, fun _ => id,
        not_exits hlife⟩
    · cases h
  case h_8 hmain =>
    cases h
    exact ⟨fun _ => rfl, Or.inl, fun _ => Or.inr ⟨rfl, hmain⟩, fun hspent => ⟨hspent, rfl, rfl⟩,
      rfl, rfl, fun _ => id, not_exits hlife⟩
  case h_9 hmain =>
    cases h
    refine Keeps.of_same rfl rfl rfl rfl (Function.update_of_ne (peer_ne p) _ _) (fun signal h => ?_)
      fun _ => ⟨hmain, rfl⟩
    dsimp only at h
    rw [Function.update_self] at h
    cases h
  all_goals
    rename_i hmain
    cases h
    exact ⟨by simp [hmain, MainPc.unblocked], Or.inl, by simp, fun hspent => ⟨hspent, rfl, rfl⟩,
      rfl, rfl, fun _ => id, not_exits hlife⟩

/-- A writer that is spent goes to its end and sends nothing. -/
theorem writer_spent {rand : ℕ} (hspent : proc.writer.spent = true)
    (h : writerThread pids p rand proc k = some (proc', k')) :
    proc'.writer.spent = true ∧ k' = k := by
  cases hw : proc.writer with
  | asleep i =>
    simp only [writerThread, hw] at h
    cases h
    rw [hw] at hspent
    exact ⟨hspent, rfl⟩
  | loopTest i =>
    rw [hw] at hspent
    simp only [writerThread, hw, not_lt_of_ge (of_decide_eq_true hspent), if_false] at h
    cases h
    exact ⟨rfl, rfl⟩
  | ended => simp [writerThread, hw] at h
  | off | awaitPeer | awaitTurn | checkFull | readSlot | storeChar | readIndex | storeIndex
  | resetTurn | send =>
    rw [hw] at hspent
    cases hspent

theorem writer_keeps {rand : ℕ} (hlife : k.life p = .running) (hs : Started pids p proc k)
    (h : writerThread pids p rand proc k = some (proc', k')) :
    Keeps p (.write rand) proc proc' k k' := by
  have hspent : proc.writer.spent = true → proc'.writer.spent = true ∧ k'.sent = k.sent ∧
      k'.pending p.peer = k.pending p.peer := by
    intro hspent
    obtain ⟨hnext, rfl⟩ := writer_spent hspent h
    exact ⟨hnext, rfl, rfl⟩
  have hgoes : proc.writer.turning = true ∨ proc.writer = .awaitPeer → proc'.main = proc.main →
      k'.received = k.received → k'.sent p.peer = k.sent p.peer → k'.pending p = k.pending p →
      k'.life p = k.life p → Keeps p (.write rand) proc proc' k k' := by
    intro hturning hmain hreceived hsent hpending hsame
    refine ⟨hmain ▸ id, fun _ => ?_, fun hfinish => Or.inl (hmain ▸ hfinish), hspent, hsent,
      congrFun hreceived _, fun signal => hpending ▸ id, fun hexit => not_exits hlife (hsame ▸ hexit)⟩
    exact hturning.imp_right fun hwait => Or.inr ⟨⟨rand, rfl⟩, hwait⟩
  cases hw : proc.writer with
  | send i =>
    rw [send_reaches pids hs hw] at h
    cases h
    apply hgoes (Or.inl (by rw [hw]; rfl)) rfl <;> unfold deliver <;> split_ifs
    all_goals
      first
        | rfl
        | exact Function.update_of_ne (peer_ne p) _ _
        | exact Function.update_of_ne (peer_ne p).symm _ _
  | awaitPeer =>
    simp only [writerThread, hw] at h
    split at h <;> cases h
    exact hgoes (Or.inr hw) rfl rfl rfl rfl rfl
  | awaitTurn =>
    simp only [writerThread, hw] at h
    split at h <;> cases h
    exact hgoes (Or.inl (by rw [hw]; rfl)) rfl rfl rfl rfl rfl
  | off | ended => simp [writerThread, hw] at h
  | loopTest | checkFull | readSlot | storeChar | readIndex | storeIndex | resetTurn | asleep =>
    simp only [writerThread, hw] at h
    cases h
    exact hgoes (Or.inl (by rw [hw]; rfl)) rfl rfl rfl rfl rfl

theorem act_keeps (hs : Started pids p proc k) (h : act pids p action proc k = some (proc', k')) :
    Keeps p action proc proc' k k' := by
  have hlife := act_running h
  unfold act at h
  rw [if_neg (not_not.mpr hlife)] at h
  cases action with
  | main => exact main_keeps hlife hs h
  | write rand => exact writer_keeps hlife hs h
  | sigwait signal =>
    dsimp only at h
    split at h
    · cases h
      refine Keeps.of_same rfl rfl rfl (Function.update_of_ne (peer_ne p) _ _)
        (Function.update_of_ne (peer_ne p) _ _) (fun signal' hpending => ?_) (not_exits hlife)
      dsimp only at hpending
      rw [Function.update_self] at hpending
      by_cases heq : signal' = signal
      · rw [heq, Function.update_self] at hpending
        cases hpending
      · rwa [Function.update_of_ne heq] at hpending
    · cases h
  | handle =>
    obtain ⟨next, hnext, heq⟩ := Option.map_eq_some_iff.mp h
    cases heq
    unfold signalThread at hnext
    split at hnext
    · split_ifs at hnext <;> cases hnext <;>
        exact Keeps.of_same rfl rfl rfl rfl rfl (fun _ => id) (not_exits hlife)
    · cases hnext
  | cancelled =>
    dsimp only at h
    split at h
    · cases h
      exact Keeps.of_same rfl rfl rfl rfl rfl (fun _ => id) (not_exits hlife)
    · cases h

end Kept

theorem masked_step {e : Event} {s' : Processes} (hs : AllStarted pids s) (hm : Masked s)
    (hok : StartsInOrder e s) (h : Sharing.step (act pids) e s = some s') : Masked s' := by
  obtain ⟨q, action⟩ := e
  obtain ⟨proc, k, hact, rfl⟩ := Sharing.step_next (act pids) h
  have hkeeps := act_keeps (hs q) hact
  intro hturning
  cases q with
  | a =>
    dsimp only at hturning ⊢
    rw [Function.update_self] at hturning
    rw [Function.update_of_ne (by decide)]
    rcases hkeeps.turning hturning with hold | hb | ⟨⟨rand, rfl⟩, hwait⟩
    · exact hm hold
    · cases hb
    · exact hok hwait
  | b =>
    dsimp only at hturning ⊢
    rw [Function.update_of_ne (by decide)] at hturning
    rw [Function.update_self]
    exact hkeeps.blocked (hm hturning)

theorem quiet_step {e : Event} {s' : Processes} (hs : AllStarted pids s) (hq : Quiet s)
    (h : Sharing.step (act pids) e s = some s') :
    Quiet s' ∧ s'.shared.sent .b = s.shared.sent .b := by
  obtain ⟨q, action⟩ := e
  obtain ⟨proc, k, hact, rfl⟩ := Sharing.step_next (act pids) h
  have hkeeps := act_keeps (hs q) hact
  cases q with
  | a =>
    refine ⟨⟨?_, Bool.eq_false_iff.mpr fun hpending => ?_⟩, hkeeps.sent⟩
    · dsimp only
      rw [Function.update_of_ne (by decide)]
      exact hq.1
    · exact Bool.eq_false_iff.mp hq.2 (hkeeps.pending _ hpending)
  | b =>
    obtain ⟨hspent, hsent, hpending⟩ := hkeeps.spent hq.1
    refine ⟨⟨?_, (congrFun hpending _).trans hq.2⟩, congrFun hsent _⟩
    dsimp only
    rw [Function.update_self]
    exact hspent

/-- Once `processo_a` has cancelled its signal thread, nothing more comes. -/
theorem finishing_step {e : Event} {s' : Processes} (hs : AllStarted pids s)
    (hf : (s.procs .a).main = .finish → Quiet s) (hok : EndsInOrder e s)
    (h : Sharing.step (act pids) e s = some s') : (s'.procs .a).main = .finish → Quiet s' := by
  intro hfinish
  refine (quiet_step hs ?_ h).1
  obtain ⟨q, action⟩ := e
  obtain ⟨proc, k, hact, rfl⟩ := Sharing.step_next (act pids) h
  cases q with
  | a =>
    dsimp only at hfinish
    rw [Function.update_self] at hfinish
    rcases (act_keeps (hs .a) hact).finishing hfinish with hold | ⟨rfl, hcancel⟩
    · exact hf hold
    · exact hok hcancel
  | b =>
    dsimp only at hfinish
    rw [Function.update_of_ne (by decide)] at hfinish
    exact hf hfinish

theorem counted_step {e : Event} {s' : Processes} (hs : AllStarted pids s) (hok : TargetBlocked e s)
    (hi : Token t s) (hc : Counted s) (h : Sharing.step (act pids) e s = some s') :
    Counted s' := by
  obtain ⟨p, action⟩ := e
  obtain ⟨proc, k, hact, rfl⟩ := Sharing.step_next (act pids) h
  have hlife := act_running hact
  unfold act at hact
  rw [if_neg (not_not.mpr hlife)] at hact
  cases action with
  | main => exact main_counted hs hi hc hact
  | write rand =>
    exact writer_counted hs hi hc (fun hstage => hok (sends_of_cleared hstage)) hact
  | sigwait signal =>
    dsimp only at hact
    split at hact
    · rename_i hwait
      cases hact
      exact sigwait_counted hi hc hwait.2
    · cases hact
  | handle =>
    obtain ⟨next, -, heq⟩ := Option.map_eq_some_iff.mp hact
    cases heq
    exact counted_same hc rfl rfl rfl fun _ hexit => hexit
  | cancelled =>
    dsimp only at hact
    split at hact
    · cases hact
      exact counted_same hc rfl rfl rfl fun _ hexit => hexit
    · cases hact

end

structure StartupInv (pids : Pids) (s : Processes) : Prop where
  started : AllStarted pids s
  token : ∃ t, Token t s
  counted : Counted s
  masked : Masked s

theorem startup_step {pids : Pids} {e : Event} {s s' : Processes} (hs : StartupInv pids s)
    (hok : StartsInOrder e s) (h : Sharing.step (act pids) e s = some s') :
    StartupInv pids s' := by
  obtain ⟨hstarted, ⟨t, ht⟩, hc, hm⟩ := hs
  have htarget := target_blocked (e := e) hstarted ht hm
  exact ⟨started_step hstarted h, token_step hstarted htarget ht h,
    counted_step hstarted htarget ht hc h, masked_step hstarted hm hok h⟩

theorem segment_startup (pids : Pids) (buffer : ℕ → UInt8) (readyFlag : ℤ) :
    StartupInv pids (segmentReady pids buffer readyFlag) := by
  obtain ⟨hstarted, ht⟩ := segment_passing pids buffer readyFlag
  exact ⟨hstarted, ht, fun _ _ => rfl, fun h => absurd h Bool.false_ne_true⟩

structure Closing (s : Processes) : Prop where
  finishing : (s.procs .a).main = .finish → Quiet s
  count : s.shared.sent .b = s.shared.received .a+(s.shared.pending .a (permission .a)).toNat

theorem count_of_quiet {s s' : Processes} (hc : Closing s) (hq : Quiet s) (hq' : Quiet s')
    (hsent : s'.shared.sent .b = s.shared.sent .b)
    (hreceived : s'.shared.received .a = s.shared.received .a) :
    s'.shared.sent .b = s'.shared.received .a+(s'.shared.pending .a (permission .a)).toNat := by
  rw [hsent, hreceived, hq'.2, hc.count, hq.2]

theorem closing_step {pids : Pids} {e : Event} {s s' : Processes} (hs : StartupInv pids s)
    (hs' : StartupInv pids s') (hc : Closing s) (hok : EndsInOrder e s)
    (h : Sharing.step (act pids) e s = some s') : Closing s' := by
  have hfinishing := finishing_step hs.started hc.finishing hok h
  refine ⟨hfinishing, ?_⟩
  by_cases hexit : s'.shared.life .a = .exited
  · have hquiet' := hfinishing ((hs'.started .a).exited hexit)
    obtain ⟨q, action⟩ := e
    obtain ⟨proc, k, hact, rfl⟩ := Sharing.step_next (act pids) h
    have hkeeps := act_keeps (hs.started q) hact
    cases q with
    | a =>
      obtain ⟨hmain, hreceived⟩ := hkeeps.exits hexit
      exact count_of_quiet hc (hc.finishing hmain) hquiet' hkeeps.sent hreceived
    | b =>
      have hold : s.shared.life .a = .exited := by
        rcases (act_started (hs.started .b) hact).2.life .a (by decide) with hsame | ⟨-, hkilled⟩
        · exact hsame ▸ hexit
        · rw [hkilled] at hexit
          cases hexit
      have hquiet := hc.finishing ((hs.started .a).exited hold)
      exact count_of_quiet hc hquiet hquiet' (congrFun (hkeeps.spent hquiet.1).2.1 _)
        hkeeps.received
  · exact hs'.counted .a (Or.inr hexit)

/-- `processo_b` never ends with a signal that it has not taken. -/
theorem lossless_b {pids : Pids} {s : Processes} (hs : StartupInv pids s) : Lossless .b s := by
  obtain ⟨t, ht⟩ := hs.token
  have hcount := hs.counted .b (Or.inl rfl)
  refine ⟨hcount, fun hexit => ?_⟩
  have hended := (hs.started .b).joined (Or.inr ((hs.started .b).exited hexit))
  have hnone : s.shared.pending .b (permission .b) = false := by
    rw [Bool.eq_false_iff]
    intro hpending
    have hstage := (((ht.fits .b).pending _).mp hpending).1
    have hturn := ht.holder .b .pending (held_of_stage hstage)
    exact absurd (turn_left ht hended hturn) (by decide)
  rw [hcount, hnone]
  rfl

theorem lossless_a {pids : Pids} {s : Processes} (hs : StartupInv pids s) (hc : Closing s) :
    Lossless .a s := by
  refine ⟨hc.count, fun hexit => ?_⟩
  have hquiet := hc.finishing ((hs.started .a).exited hexit)
  show s.shared.sent .b = s.shared.received .a
  rw [hc.count, hquiet.2]
  rfl

/-- Where the writer of `processo_a` leaves its wait after the `pthread_sigmask`
of `processo_b`, no signal is sent to a process that has not blocked it, none
ends a process and `processo_b` gets each one sent to it; where `processo_a`
also waits for the last signal of `processo_b`, it gets each one as well. -/
theorem startup_delivers (pids : Pids) (buffer : ℕ → UInt8) (readyFlag : ℤ) (es : List Event)
    (s : Processes)
    (h : Runs.exec (Sharing.step (act pids)) es (segmentReady pids buffer readyFlag) = some s)
    (hstart : Runs.Along (Sharing.step (act pids)) StartsInOrder es
      (segmentReady pids buffer readyFlag)) :
    Runs.Along (Sharing.step (act pids)) TargetBlocked es (segmentReady pids buffer readyFlag) ∧
      (∀ p, s.shared.life p ≠ .killed) ∧ Lossless .b s ∧
      (Runs.Along (Sharing.step (act pids)) EndsInOrder es (segmentReady pids buffer readyFlag) →
        Lossless .a s) := by
  have hinit := segment_startup pids buffer readyFlag
  have hinv : StartupInv pids s :=
    Runs.exec_preserves_along _ StartsInOrder (StartupInv pids)
      (fun _ _ _ hs hok hstep => startup_step hs hok hstep) es _ s hinit hstart h
  obtain ⟨t, ht⟩ := hinv.token
  refine ⟨?_, ht.alive, lossless_b hinv, fun hend => ?_⟩
  · refine Runs.along_of_invariant _ (StartupInv pids) (fun _ _ _ hs hok => startup_step hs hok) ?_
      hinit hstart
    intro e u hu _
    obtain ⟨t, ht⟩ := hu.token
    exact target_blocked hu.started ht hu.masked
  · have hclosing := Runs.exec_preserves_along _ (fun e u => StartsInOrder e u ∧ EndsInOrder e u)
      (fun u => StartupInv pids u ∧ Closing u) ?_ es _ s
      ⟨hinit, ⟨fun hfinish => MainPc.noConfusion hfinish, rfl⟩⟩ (Runs.along_and _ hstart hend) h
    · exact lossless_a hinv hclosing.2
    · rintro e u v ⟨hu, hc⟩ ⟨hok, hok'⟩ hstep
      have hv := startup_step hu hok hstep
      exact ⟨hv, closing_step hu hv hc hok' hstep⟩

def toTheExit : List Event :=
  toTheEnd++(List.replicate 3 (.a, .main)++List.replicate 3 (.b, .main))

theorem to_the_exit_run : (Runs.exec (Sharing.step (act somePids)) toTheExit
    (segmentReady somePids (fun _ => 0) 0)).isSome = true := by
  decide +kernel

theorem to_the_exit_delivers :
    let s := (Runs.exec (Sharing.step (act somePids)) toTheExit
      (segmentReady somePids (fun _ => 0) 0)).get to_the_exit_run
    s.shared.sent .a = 5 ∧ s.shared.received .b = 5 ∧ s.shared.sent .b = 5 ∧
      s.shared.received .a = 5 := by
  intro s
  obtain ⟨-, -, hb, ha⟩ := startup_delivers somePids (fun _ => 0) 0 toTheExit s
    (Option.some_get to_the_exit_run).symm (by decide +kernel)
  have hsent : s.shared.sent .a = 5 ∧ s.shared.sent .b = 5 := by decide +kernel
  have htaken := hb.taken (by decide +kernel)
  have htaken' := (ha (by decide +kernel)).taken (by decide +kernel)
  exact ⟨hsent.1, htaken ▸ hsent.1, hsent.2, htaken' ▸ hsent.2⟩

def earlySignal : List Event :=
  startA++List.replicate 2 (.b, .main)++List.replicate 10 (.a, .write 0)

theorem early_signal_kills :
    (Runs.exec (Sharing.step (act somePids)) earlySignal
      (segmentReady somePids (fun _ => 0) 0)).map (fun s =>
        (s.shared.life .b, s.shared.blocked .b, s.shared.sent .a, s.shared.received .b)) =
      some (.killed, false, 1, 0) := by
  decide +kernel

end ProgSistema.PingPong
