import ProgSistema.PingPong.Token

/-!
# The two writers alternate

Where no signal comes before both processes have blocked it, the permission is
in one place at most, the characters are those of the two processes in turn,
and two writers that have ended have stored ten of them.
-/

set_option autoImplicit false

namespace ProgSistema.PingPong

def WriterPc.hasCleared : WriterPc → Bool
  | .send _ => true
  | _ => false

def tokensOf (p : Party) (proc : Proc) (k : Machine) : ℕ :=
  proc.canWrite.toNat+(k.pending p (permission p)).toNat+
    (decide (proc.signalThread = .received (permission p))).toNat+proc.writer.hasCleared.toNat

def tokens (s : Processes) : ℕ :=
  tokensOf .a (s.procs .a) s.shared+tokensOf .b (s.procs .b) s.shared

theorem tokens_of_fits {p : Party} {stage : Option Stage} {n : ℕ} {proc : Proc} {k : Machine}
    (h : Fits p stage (k.pending p) n proc) : tokensOf p proc k = if stage = none then 0 else 1 := by
  have hflag := h.flag
  have hpending := h.pending (permission p)
  have htaken := h.taken (permission p)
  have hcleared : proc.writer.hasCleared = true ↔ stage = some .cleared := by
    have hin := h.inside
    have hout := h.outside
    cases hw : proc.writer <;> rw [hw] at hin hout <;>
      simp [WriterPc.stage, WriterPc.hasCleared] at hin hout ⊢ <;> simp [hin, hout]
  unfold tokensOf
  cases stage with
  | none => simp_all
  | some stage => cases stage <;> simp_all

theorem tokens_eq {t : Place} {s : Processes} (hi : Token t s) :
    tokens s = if t = .gone then 0 else 1 := by
  unfold tokens
  rw [tokens_of_fits (hi.fits .a), tokens_of_fits (hi.fits .b)]
  cases t with
  | held p stage => cases p <;> simp [Place.stage]
  | gone => rfl

/-- Half of the characters, rounded down, are those of `processo_b`. -/
theorem count_alternate (char : ℕ → UInt8) (n : ℕ) :
    ((List.range n).map fun k => (⟨turn k, k, char k⟩ : Write)).countP (·.party = .b) =
      share .b n := by
  induction n with
  | zero => rfl
  | succ n ih =>
    rw [List.range_succ, List.map_append, List.countP_append, ih, share_succ, List.map_singleton,
      List.countP_singleton]
    simp only [decide_eq_true_eq]

/-- No signal is sent before both processes have blocked it. -/
def BothBlocked (e : Event) (s : Processes) : Prop :=
  sends e s = true → s.shared.blocked .a = true ∧ s.shared.blocked .b = true

instance (e : Event) (s : Processes) : Decidable (BothBlocked e s) := by
  unfold BothBlocked
  infer_instance

theorem blocked_passing {pids : Pids} {buffer : ℕ → UInt8} {readyFlag : ℤ} {s : Processes}
    (h : Runs.ReachableAlong (Sharing.step (act pids)) BothBlocked
      (segmentReady pids buffer readyFlag) s) : Passing pids s := by
  refine Runs.reachable_along_invariant _ (Passing pids) (segment_passing pids buffer readyFlag) ?_ h
  intro e s s' hs hok hstep
  refine passing_step hs (fun hsends => ?_) hstep
  obtain ⟨ha, hb⟩ := hok hsends
  cases e.1.peer <;> assumption

theorem writers_alternate (pids : Pids) (buffer : ℕ → UInt8) (readyFlag : ℤ) (s : Processes)
    (h : Runs.ReachableAlong (Sharing.step (act pids)) BothBlocked
      (segmentReady pids buffer readyFlag) s) :
    tokens s ≤ 1 ∧
    (s.shared.writes.countP (·.party = .b) < 5 → tokens s = 1) ∧
    (∀ k w, s.shared.writes[k]? = some w →
      w.party = (if k % 2 = 0 then .a else .b) ∧ w.slot = k ∧ s.shared.data.buffer k = w.char) ∧
    ((∀ p, (s.procs p).writer = .ended) →
      s.shared.writes.length = 10 ∧ s.shared.data.writeIndex = 10) := by
  obtain ⟨-, t, ht⟩ := blocked_passing h
  have htokens := tokens_eq ht
  refine ⟨?_, ?_, ?_, ?_⟩
  · rw [htokens]
    split <;> decide
  · intro hcount
    rw [htokens, if_neg]
    intro hgone
    rw [ht.writes, count_alternate, ht.gone hgone] at hcount
    exact absurd hcount (by decide)
  · intro k w hw
    rw [ht.writes, List.getElem?_map] at hw
    obtain ⟨j, hj, rfl⟩ := Option.map_eq_some_iff.mp hw
    obtain ⟨-, rfl⟩ := List.getElem?_eq_some_iff.mp hj
    simp [turn]
  · intro hended
    have hlength : s.shared.writes.length = 10 := by
      have ha := (ht.fits .a).stores
      have hb := (ht.fits .b).stores
      rw [hended] at ha hb
      simp only [WriterPc.stores, share, rounds] at ha hb
      omega
    refine ⟨hlength, ?_⟩
    have hindex := ht.index
    rw [hended, hended, hlength] at hindex
    exact hindex

/-! A run to the end: the two processes start, and each turn is taken at once. -/

def somePids : Pids where
  getpid
    | .a => 200
    | .b => 201
  positive p := by cases p <;> decide
  distinct := by decide

def startA : List Event := List.replicate 3 (.a, .main)

def startB : List Event := List.replicate 6 (.b, .main)

def takeTurn (p : Party) : List Event :=
  List.replicate 10 (p, .write 0)++[(p.peer, .sigwait (permission p.peer)), (p.peer, .handle)]

def toTheEnd : List Event :=
  startA++startB++[(.a, .write 0)]++(List.replicate 5 (takeTurn .a++takeTurn .b)).flatten++
    [(.a, .write 0), (.b, .write 0)]

theorem to_the_end_run : (Runs.exec (Sharing.step (act somePids)) toTheEnd
    (segmentReady somePids (fun _ => 0) 0)).isSome = true := by
  decide +kernel

theorem to_the_end_alternates :
    ((Runs.exec (Sharing.step (act somePids)) toTheEnd
      (segmentReady somePids (fun _ => 0) 0)).get to_the_end_run).shared.writes.length = 10 :=
  ((writers_alternate somePids (fun _ => 0) 0 _
    (Runs.reachable_along_get to_the_end_run (by decide +kernel))).2.2.2
    (by intro p; cases p <;> decide +kernel)).1

end ProgSistema.PingPong
