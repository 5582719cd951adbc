import ProgSistema.WordBuffer.Rounds

/-!
# Departures

A client can write again, whoever has left, if each identifier from the turn
up to its own belongs to a client that goes on. Where no client is left with
the identifier of the turn, the others go round their loops for ever.
-/

set_option autoImplicit false

namespace ProgSistema.WordBuffer.Clients
open Runs Semaphore CRuntime

section Ways
variable {ι : Type} {clientId : ι → ℕ} {s t : Processes ι}

def Progress (s t : Processes ι) (c : ι) : Prop :=
  (s.procs c).wrote < (t.procs c).wrote ∨ (t.procs c).pc.inLoop = false

def Client.enters (c : Client) : Prop :=
  (c.running = true ∨ c.pc = .waitTurn) ∧ c.pc.inLoop = true

def Covered (clientId : ι → ℕ) (s : Processes ι) (c : ι) (turn : ℕ) : Prop :=
  ∀ n < (clientId c+numProcesses-turn) % numProcesses, ∃ d,
    clientId d = (turn+n) % numProcesses ∧ (s.procs d).enters

def Passing (clientId : ι → ℕ) (s : Processes ι) (c : ι) : Prop :=
  ∃ h, h ≠ c ∧ (s.procs h).pc.entered = true ∧ clientId h = s.shared.data.turn

def Way (clientId : ι → ℕ) (s : Processes ι) (c : ι) : Prop :=
  Passing clientId s c ∧ Covered clientId s c ((s.shared.data.turn+1) % numProcesses) ∨
    ¬ Passing clientId s c ∧ Covered clientId s c s.shared.data.turn

def Stopped (s : Processes ι) (c : ι) : Prop :=
  (s.procs c).running = false ∨ s.shared.shutdownRequested = true

/-- A client that goes on, to which nobody will bring the turn. -/
structure Hopeless (clientId : ι → ℕ) (s : Processes ι) (c : ι) : Prop where
  runs : (s.procs c).running = true
  inLoop : (s.procs c).pc.inLoop = true
  opened : s.shared.shutdownRequested = false
  way : ¬ Way clientId s c

theorem hopeless_of {c : ι}
    (hno : ¬ ((s.procs c).pc.inLoop = false ∨ Stopped s c ∨ Way clientId s c)) :
    Hopeless clientId s c := by
  obtain ⟨hloop, hno⟩ := not_or.mp hno
  obtain ⟨hstop, hway⟩ := not_or.mp hno
  obtain ⟨hruns, hopened⟩ := not_or.mp hstop
  exact ⟨by simpa using hruns, by simpa using hloop, by simpa using hopened, hway⟩

theorem Covered.mono {c : ι} {turn : ℕ} (h : Covered clientId s c turn)
    (henters : ∀ d, (s.procs d).enters → (t.procs d).enters) : Covered clientId t c turn := by
  intro n hn
  obtain ⟨d, hd, hs⟩ := h n hn
  exact ⟨d, hd, henters d hs⟩

/-- The clients with the identifier of the turn are not needed any more when
it has been passed on. -/
theorem Covered.next {c : ι} {turn : ℕ} (h : Covered clientId s c turn)
    (hturn : turn < numProcesses) (hdist : (clientId c+numProcesses-turn) % numProcesses ≠ 0)
    (henters : ∀ d, clientId d ≠ turn → (s.procs d).enters → (t.procs d).enters) :
    Covered clientId t c ((turn+1) % numProcesses) := by
  intro n hn
  obtain ⟨d, hd, hs⟩ := h (n+1) (by unfold numProcesses at *; omega)
  refine ⟨d, ?_, henters d ?_ hs⟩
  · rw [hd]
    unfold numProcesses
    omega
  · rw [hd]
    unfold numProcesses at *
    omega

theorem Covered.self {c : ι} {turn : ℕ} (h : clientId c = turn) : Covered clientId s c turn := by
  intro n hn
  rw [h, Nat.add_sub_cancel_left, Nat.mod_self] at hn
  exact absurd hn (Nat.not_lt_zero n)

/-- A client with the identifier of the turn adds itself to the way. -/
theorem Covered.prepend {c d : ι} {turn : ℕ}
    (h : Covered clientId t c ((turn+1) % numProcesses)) (hturn : turn < numProcesses)
    (hid : clientId d = turn) (hd : (s.procs d).enters)
    (henters : ∀ d, (t.procs d).enters → (s.procs d).enters) : Covered clientId s c turn := by
  intro n hn
  cases n with
  | zero => exact ⟨d, by rw [hid, Nat.add_zero, Nat.mod_eq_of_lt hturn], hd⟩
  | succ n =>
    obtain ⟨d', hid', hd'⟩ := h n (by unfold numProcesses at *; omega)
    refine ⟨d', ?_, henters d' hd'⟩
    rw [hid']
    unfold numProcesses
    omega

theorem not_passing {words : List Bytes} {c h : ι} (hi : Inv words clientId s)
    (hholds : (s.procs h).pc.holdsTurn = some ())
    (hnot : h = c ∨ (s.procs h).pc.entered = false ∨ clientId h ≠ s.shared.data.turn) :
    ¬ Passing clientId s c := by
  rintro ⟨h', hne, hentered, hid⟩
  have heq := holder_unique hi hholds hentered
  rw [heq] at hne hentered hid
  rcases hnot with hc | hout | hother
  · exact hne hc
  · rw [hentered] at hout
    cases hout
  · exact hother hid

theorem finish_keeps {h : ι} {p : Client} {k : Shared}
    (hfinish : (s.procs h).pc.entered = true ∧ Passed (clientId h) (s.procs h) p s.shared k ∨
      (s.procs h).pc.entered = false ∧ Left (s.procs h) p s.shared k) :
    p.running = (s.procs h).running ∧
      (s.shared.shutdownRequested = true → k.shutdownRequested = true) := by
  rcases hfinish with ⟨-, hp⟩ | ⟨-, hl⟩
  · exact ⟨hp.running, hp.shutdown⟩
  · exact ⟨hl.running, fun hshut => hl.shutdown.trans hshut⟩

/-- A holder that would enter again still does, while nobody asks for the
shutdown. -/
theorem finish_enters {h : ι} {p : Client} {k : Shared}
    (hholds : (s.procs h).pc.holdsTurn = some ())
    (hfinish : (s.procs h).pc.entered = true ∧ Passed (clientId h) (s.procs h) p s.shared k ∨
      (s.procs h).pc.entered = false ∧ Left (s.procs h) p s.shared k)
    (hopen : k.shutdownRequested = false) (henters : (s.procs h).enters) : p.enters := by
  obtain ⟨hruns | hwaits, -⟩ := henters
  · refine ⟨Or.inl ((finish_keeps hfinish).1.trans hruns), ?_⟩
    rcases hfinish with ⟨-, hp⟩ | ⟨-, hl⟩
    · rw [hp.pc, hopen]
      rfl
    · rcases hl.pc with hpc | ⟨-, hshut⟩
      · rw [hpc]
        rfl
      · rw [hopen] at hshut
        cases hshut
  · rw [hwaits] at hholds
    cases hholds

end Ways

section Free
variable {ι : Type} [DecidableEq ι] {words : List Bytes} {clientId : ι → ℕ} {s t : Processes ι}
  {i c : ι}

theorem progress_moved {p : Client} {k : Shared}
    (h : (s.procs c).wrote < p.wrote ∨ p.pc.inLoop = false) :
    Progress s { procs := Function.update s.procs c p, shared := k } c := by
  unfold Progress
  dsimp only
  rw [Function.update_self]
  exact h

/-- A client that passes through the critical section with the turn, or after
the shutdown, has written a word or ends its loop. -/
theorem passed_progress {id : ℕ} {q p : Client} {k k' : Shared} (hp : Passed id q p k k')
    (h : k.shutdownRequested = true ∨ k.data.turn = id) :
    q.wrote < p.wrote ∨ p.pc.inLoop = false := by
  have hshut : k'.shutdownRequested = true → p.pc.inLoop = false := by
    intro hshut
    rw [hp.pc, if_pos hshut]
    rfl
  by_cases hk : k.shutdownRequested = true
  · exact Or.inr (hshut (hp.shutdown hk))
  · have hk' : k.shutdownRequested = false := by simpa using hk
    rcases hp.serves hk' (h.resolve_left hk) with ⟨hwrote, -, -⟩ | hshut'
    · left
      omega
    · exact Or.inr (hshut hshut')

theorem progress_after (hmove : Continues words clientId s t)
    (hwrote : (t.procs c).wrote = (s.procs c).wrote)
    (h : ∃ u, Continues words clientId t u ∧ Progress t u c) :
    ∃ u, Continues words clientId s u ∧ Progress s u c := by
  obtain ⟨u, hu, hprogress⟩ := h
  refine ⟨u, reachable_along_trans hmove hu, ?_⟩
  unfold Progress at hprogress ⊢
  rwa [hwrote] at hprogress

theorem stopped_progress (hi : Inv words clientId s) (hfree : Free s)
    (hloop : (s.procs c).pc.inLoop = true) (hstop : Stopped s c) :
    ∃ t, Continues words clientId s t ∧ Progress s t c := by
  have hwords := ((hi.knows c).started hloop).2
  have hround : ∃ p k, Goes words clientId c (s.procs c, s.shared) (p, k) ∧ _ :=
    goes_round hwords (free_loop hi hfree hloop) hfree.1 hfree.2
  obtain ⟨p, k, hgoes, -, hp | ⟨⟨hpc, -⟩, -⟩⟩ := hround
  · by_cases hnow : s.shared.shutdownRequested = true ∨ s.shared.data.turn = clientId c
    · exact ⟨_, continues_alone hgoes, progress_moved (passed_progress hp hnow)⟩
    -- it has found the turn of another one, and comes to the loop test
    · obtain ⟨hshut, hturn⟩ := not_or.mp hnow
      obtain ⟨-, -, hsame⟩ := hp.skips (Or.inr hturn)
      have hpc : p.pc = .loopTest := by
        rw [hp.pc, hsame, if_neg hshut]
      have hrunning : p.running = false := hp.running.trans (hstop.resolve_right hshut)
      have hleave : Goes words clientId c (p, k) ({ p with pc := .unregisterWait }, k) :=
        goes_leave hpc (Or.inl hrunning)
      exact ⟨_, continues_alone (Relation.ReflTransGen.trans hgoes hleave),
        progress_moved (Or.inr rfl)⟩
  · exact ⟨_, continues_alone hgoes, progress_moved (Or.inr (by rw [hpc]; rfl))⟩

theorem enters_moved {p : Client} (hmoved : (s.procs i).enters → p.enters) (d : ι)
    (hd : (s.procs d).enters) : (Function.update s.procs i p d).enters := by
  by_cases hdi : d = i
  · rw [hdi, Function.update_self]
    exact hmoved (hdi ▸ hd)
  · rw [Function.update_of_ne hdi]
    exact hd

/-- With both semaphores free, the turn is passed on until it comes to the
client. The induction is on the identifiers still before its own. -/
theorem covered_progress (n : ℕ) (hi : Inv words clientId s) (hfree : Free s)
    (hloop : (s.procs c).pc.inLoop = true)
    (hn : (clientId c+numProcesses-s.shared.data.turn) % numProcesses = n)
    (hcovered : Covered clientId s c s.shared.data.turn) :
    ∃ t, Continues words clientId s t ∧ Progress s t c := by
  induction n generalizing s with
  | zero =>
    by_cases hstop : Stopped s c
    · exact stopped_progress hi hfree hloop hstop
    · have hid := ((hi.knows c).started hloop).1
      have hturn : s.shared.data.turn = clientId c := by
        have hlt := hi.turn
        unfold numProcesses at *
        omega
      have hround : ∃ p k, Goes words clientId c (s.procs c, s.shared) (p, k) ∧ _ :=
        goes_round ((hi.knows c).started hloop).2 (free_loop hi hfree hloop) hfree.1 hfree.2
      obtain ⟨p, k, hgoes, -, hp | ⟨-, hmust⟩⟩ := hround
      · exact ⟨_, continues_alone hgoes, progress_moved (passed_progress hp (Or.inr hturn))⟩
      · exact absurd hmust hstop
  | succ n ih =>
    by_cases hstop : Stopped s c
    · exact stopped_progress hi hfree hloop hstop
    · obtain ⟨d, hd, henters⟩ := hcovered 0 (by omega)
      have hlt := hi.turn
      have hid := ((hi.knows c).started hloop).1
      have hturn : s.shared.data.turn = clientId d := by
        rw [hd, Nat.add_zero, Nat.mod_eq_of_lt hlt]
      have hne : c ≠ d := by
        rintro rfl
        rw [hturn, Nat.add_sub_cancel_left, Nat.mod_self] at hn
        cases hn
      have hround : ∃ p k, Goes words clientId d (s.procs d, s.shared) (p, k) ∧ _ :=
        goes_round ((hi.knows c).started hloop).2 (free_loop hi hfree henters.2) hfree.1 hfree.2
      obtain ⟨p, k, hgoes, hsems, hp | ⟨⟨-, hpc⟩, hmust⟩⟩ := hround
      · have hmove := continues_alone hgoes
        have hi' := continues_inv hi hmove
        have hsame : Function.update s.procs d p c = s.procs c := Function.update_of_ne hne _ _
        have hfree' : Free { procs := Function.update s.procs d p, shared := k } :=
          ⟨by rw [hsems.1]; exact hfree.1, by rw [hsems.2]; exact hfree.2⟩
        have hloop' : (Function.update s.procs d p c).pc.inLoop = true := by
          rw [hsame]
          exact hloop
        have hshut : s.shared.shutdownRequested = false := by
          simpa using (not_or.mp hstop).2
        apply progress_after hmove (congrArg Client.wrote hsame)
        rcases hp.serves hshut hturn with ⟨-, hnext, hshut'⟩ | hshut'
        · have hdist : (clientId c+numProcesses-k.data.turn) % numProcesses = n := by
            rw [hnext]
            unfold numProcesses at *
            omega
          apply ih hi' hfree' hloop' hdist
          show Covered clientId { procs := Function.update s.procs d p, shared := k } c k.data.turn
          rw [hnext]
          apply hcovered.next hlt (by omega)
          intro d' hother hd'
          have hne' : d' ≠ d := by
            rintro rfl
            exact hother hturn.symm
          show (Function.update s.procs d p d').enters
          rw [Function.update_of_ne hne']
          exact hd'
        · exact stopped_progress hi' hfree' hloop' (Or.inr hshut')
      · exfalso
        rcases hmust with hrunning | hshut
        · rcases henters.1 with hyes | hwaits
          · rw [hyes] at hrunning
            cases hrunning
          · rw [hpc] at hwaits
            cases hwaits
        · exact hstop (Or.inr hshut)

theorem stopped_moved {h : ι} {p : Client} {k : Shared} (hrunning : p.running = (s.procs h).running)
    (hmono : s.shared.shutdownRequested = true → k.shutdownRequested = true) (hstop : Stopped s c) :
    Stopped { procs := Function.update s.procs h p, shared := k } c := by
  rcases hstop with hstop | hshut
  · left
    show (Function.update s.procs h p c).running = false
    by_cases hc : c = h
    · rw [hc, Function.update_self, hrunning, ← hc]
      exact hstop
    · rw [Function.update_of_ne hc]
      exact hstop
  · exact Or.inr (hmono hshut)

/-- When the holder of the turn semaphore has left it behind, the turn is the
one from which the way of the client was covered. -/
theorem finished_ready {h : ι} {p : Client} {k : Shared} (hi : Inv words clientId s)
    (hholds : (s.procs h).pc.holdsTurn = some ())
    (hfinish : (s.procs h).pc.entered = true ∧ Passed (clientId h) (s.procs h) p s.shared k ∨
      (s.procs h).pc.entered = false ∧ Left (s.procs h) p s.shared k)
    (hope : Stopped s c ∨ Way clientId s c) :
    ((s.procs c).wrote < (Function.update s.procs h p c).wrote ∨
      (Function.update s.procs h p c).pc.inLoop = false) ∨
    ((Function.update s.procs h p c).wrote = (s.procs c).wrote ∧
      (Stopped { procs := Function.update s.procs h p, shared := k } c ∨
        Covered clientId { procs := Function.update s.procs h p, shared := k } c k.data.turn)) := by
  obtain ⟨hrunning, hmono⟩ := finish_keeps hfinish
  by_cases hshut : k.shutdownRequested = true
  · by_cases hc : c = h
    · rw [hc, Function.update_self]
      rcases hfinish with ⟨-, hp⟩ | ⟨-, hl⟩
      · exact Or.inl (Or.inr (by rw [hp.pc, if_pos hshut]; rfl))
      · exact Or.inr ⟨hl.wrote, Or.inl (Or.inr hshut)⟩
    · rw [Function.update_of_ne hc]
      exact Or.inr ⟨rfl, Or.inl (Or.inr hshut)⟩
  · have hopen : k.shutdownRequested = false := by simpa using hshut
    have hopen' : s.shared.shutdownRequested = false := by simpa using mt hmono hshut
    have henters : (s.procs h).enters → p.enters := finish_enters hholds hfinish hopen
    by_cases hserve : (s.procs h).pc.entered = true ∧ clientId h = s.shared.data.turn
    -- the holder has the turn, and passes it on
    · obtain ⟨hentered, hid⟩ := hserve
      have hp : Passed (clientId h) (s.procs h) p s.shared k := by
        rcases hfinish with ⟨-, hp⟩ | ⟨hout, -⟩
        · exact hp
        · rw [hentered] at hout
          cases hout
      obtain ⟨hwrote, hnext, -⟩ := (hp.serves hopen' hid.symm).resolve_right hshut
      by_cases hc : c = h
      · rw [hc, Function.update_self]
        exact Or.inl (Or.inl (by omega))
      · rw [Function.update_of_ne hc]
        refine Or.inr ⟨rfl, ?_⟩
        rcases hope with hstop | ⟨-, hway⟩ | ⟨hno, -⟩
        · exact Or.inl (stopped_moved hrunning hmono hstop)
        · right
          rw [hnext]
          exact hway.mono (enters_moved henters)
        · exact absurd ⟨h, Ne.symm hc, hentered, hid⟩ hno
    -- nobody passes the turn on
    · have hsame : p.wrote = (s.procs h).wrote ∧ k.data.turn = s.shared.data.turn := by
        rcases hfinish with ⟨hentered, hp⟩ | ⟨-, hl⟩
        · have hother : s.shared.data.turn ≠ clientId h := fun heq => hserve ⟨hentered, heq.symm⟩
          obtain ⟨hwrote, hturn, -⟩ := hp.skips (Or.inr hother)
          exact ⟨hwrote, hturn⟩
        · exact ⟨hl.wrote, congrArg SharedData.turn hl.data⟩
      have hwrote : (Function.update s.procs h p c).wrote = (s.procs c).wrote := by
        by_cases hc : c = h
        · rw [hc, Function.update_self]
          exact hsame.1
        · rw [Function.update_of_ne hc]
      refine Or.inr ⟨hwrote, ?_⟩
      rcases hope with hstop | ⟨hpassing, -⟩ | ⟨-, hway⟩
      · exact Or.inl (stopped_moved hrunning hmono hstop)
      · refine absurd hpassing (not_passing hi hholds (Or.inr ?_))
        rw [← Bool.not_eq_true]
        exact not_and_or.mp hserve
      · right
        rw [hsame.2]
        exact hway.mono (enters_moved henters)

theorem ready_progress (hi : Inv words clientId s) (hfree : Free s)
    (hloop : (s.procs c).pc.inLoop = true)
    (hready : Stopped s c ∨ Covered clientId s c s.shared.data.turn) :
    ∃ t, Continues words clientId s t ∧ Progress s t c := by
  rcases hready with hstop | hcovered
  · exact stopped_progress hi hfree hloop hstop
  · exact covered_progress _ hi hfree hloop rfl hcovered

theorem holder_progress {h : ι} (hi : Inv words clientId s) (hope : Stopped s c ∨ Way clientId s c)
    (hholds : (s.procs h).pc.holdsTurn = some ())
    (hmutex : (s.procs h).pc.holdsMutex = none → s.shared.mutexSem ≠ 0) :
    ∃ t, Continues words clientId s t ∧ Progress s t c := by
  obtain ⟨p, k, hgoes, hfree, hfinish⟩ := holder_finishes hi hholds hmutex
  have hmove := continues_alone hgoes
  rcases finished_ready hi hholds hfinish hope with hprogress | ⟨hwrote, hready⟩
  · exact ⟨_, hmove, hprogress⟩
  · by_cases hloop' : (Function.update s.procs h p c).pc.inLoop = true
    · exact progress_after hmove hwrote
        (ready_progress (continues_inv hi hmove) hfree hloop' hready)
    · exact ⟨_, hmove, Or.inr (by simpa using hloop')⟩

theorem open_progress (hi : Inv words clientId s) (hmutex : s.shared.mutexSem ≠ 0)
    (hloop : (s.procs c).pc.inLoop = true) (hope : Stopped s c ∨ Way clientId s c) :
    ∃ t, Continues words clientId s t ∧ Progress s t c := by
  by_cases hturnSem : s.shared.turnSem = 0
  · obtain ⟨h, hholds⟩ := hi.turnSem.owner () hturnSem
    exact holder_progress hi hope hholds fun _ => hmutex
  · apply ready_progress hi ⟨hmutex, hturnSem⟩ hloop
    apply hope.imp (fun hstop => hstop)
    rintro (⟨⟨h, -, hentered, -⟩, -⟩ | ⟨-, hcovered⟩)
    · exfalso
      apply hturnSem
      exact hi.turnSem.taken h () (entered_holds hentered)
    · exact hcovered

theorem hopeful_progress (hi : Inv words clientId s) (hloop : (s.procs c).pc.inLoop = true)
    (hope : Stopped s c ∨ Way clientId s c) :
    ∃ t, Continues words clientId s t ∧ Progress s t c := by
  by_cases hmutex : s.shared.mutexSem = 0
  · obtain ⟨h, hholds⟩ := hi.mutex.owner () hmutex
    cases hout : (s.procs h).pc.holdsTurn with
    | some u =>
      apply holder_progress hi hope hout
      intro hnone
      rw [hnone] at hholds
      cases hholds
    | none =>
      obtain ⟨p, k, hgoes, hfree, hrunning, hwrote, hinLoop, hentered, hdata, hshut⟩ :=
        mutex_released hholds hout
      have hmove := continues_alone hgoes
      have hkeep : ∀ {κ : Type} (key : Client → κ), key p = key (s.procs h) → ∀ d,
          key (Function.update s.procs h p d) = key (s.procs d) := fun key heq d =>
        congrFun (Sharing.keys_keep key heq) d
      have hpassing : Passing clientId { procs := Function.update s.procs h p, shared := k } c ↔
          Passing clientId s c := by
        apply exists_congr
        intro d
        rw [hkeep (fun q => q.pc.entered) hentered d, hdata]
      have henters : (s.procs h).enters → p.enters := by
        rintro ⟨hruns | hwaits, hin⟩
        · exact ⟨Or.inl (hrunning.trans hruns), hinLoop.trans hin⟩
        · rw [hwaits] at hholds
          cases hholds
      apply progress_after hmove (hkeep Client.wrote hwrote c)
      apply open_progress (continues_inv hi hmove) hfree
      · exact (hkeep (fun q => q.pc.inLoop) hinLoop c).trans hloop
      · rcases hope with (hstop | hstop) | ⟨hpass, hcovered⟩ | ⟨hno, hcovered⟩
        · exact Or.inl (Or.inl ((hkeep Client.running hrunning c).trans hstop))
        · exact Or.inl (Or.inr (hshut.trans hstop))
        · refine Or.inr (Or.inl ⟨hpassing.mpr hpass, ?_⟩)
          rw [hdata]
          exact hcovered.mono (enters_moved henters)
        · refine Or.inr (Or.inr ⟨fun hpass => hno (hpassing.mp hpass), ?_⟩)
          rw [hdata]
          exact hcovered.mono (enters_moved henters)
  · exact open_progress hi hmutex hloop hope

/-! Where the turn cannot come round. -/

theorem enters_back {p : Client} (hmoved : p.enters → (s.procs i).enters) (d : ι)
    (hd : (Function.update s.procs i p d).enters) : (s.procs d).enters := by
  by_cases hdi : d = i
  · rw [hdi, Function.update_self] at hd
    rw [hdi]
    exact hmoved hd
  · rwa [Function.update_of_ne hdi] at hd

/-- A step that brings nobody to the critical section, and neither passes the
turn on nor leaves it behind, opens no way. -/
theorem hopeless_kept (i : ι) {p : Client} {k : Shared} (h : Hopeless clientId s c)
    (hopened : k.shutdownRequested = false) (hturn : k.data.turn = s.shared.data.turn)
    (hrunning : p.running = (s.procs i).running)
    (hself : i = c → p.pc.inLoop = true)
    (hentered : i ≠ c → clientId i = s.shared.data.turn →
      p.pc.entered = (s.procs i).pc.entered)
    (henters : p.enters → (s.procs i).enters) :
    Hopeless clientId { procs := Function.update s.procs i p, shared := k } c := by
  have hpassing : Passing clientId { procs := Function.update s.procs i p, shared := k } c ↔
      Passing clientId s c := by
    apply exists_congr
    intro d
    dsimp only
    rw [hturn]
    by_cases hdi : d = i
    · rw [hdi, Function.update_self]
      constructor
      · rintro ⟨hne, hin, hid⟩
        exact ⟨hne, (hentered hne hid).symm.trans hin, hid⟩
      · rintro ⟨hne, hin, hid⟩
        exact ⟨hne, (hentered hne hid).trans hin, hid⟩
    · rw [Function.update_of_ne hdi]
  constructor
  · exact (congrFun (Sharing.keys_keep Client.running hrunning) c).trans h.runs
  · show (Function.update s.procs i p c).pc.inLoop = true
    by_cases hci : c = i
    · rw [hci, Function.update_self]
      exact hself hci.symm
    · rw [Function.update_of_ne hci]
      exact h.inLoop
  · exact hopened
  · intro hway
    apply h.way
    unfold Way at hway ⊢
    rw [hpassing] at hway
    dsimp only at hway
    rw [hturn] at hway
    rcases hway with ⟨hpass, hcovered⟩ | ⟨hno, hcovered⟩
    · exact Or.inl ⟨hpass, hcovered.mono (enters_back henters)⟩
    · exact Or.inr ⟨hno, hcovered.mono (enters_back henters)⟩

theorem hopeless_waits {p : Client} {k : Shared} (hi : Inv words clientId s)
    (h : Hopeless clientId s c)
    (hpc : (s.procs i).pc = .waitTurn) (hpc' : p.pc = .waitMutex)
    (hrunning : p.running = (s.procs i).running) (hturnSem : s.shared.turnSem ≠ 0)
    (hdata : k.data = s.shared.data) (hopened : k.shutdownRequested = false) :
    Hopeless clientId { procs := Function.update s.procs i p, shared := k } c := by
  have henters : (s.procs i).enters := ⟨Or.inr hpc, by rw [hpc]; rfl⟩
  by_cases hserve : i ≠ c ∧ clientId i = s.shared.data.turn
  · obtain ⟨hic, hid⟩ := hserve
    refine ⟨?_, ?_, hopened, ?_⟩
    · exact (congrFun (Sharing.keys_keep Client.running hrunning) c).trans h.runs
    · show (Function.update s.procs i p c).pc.inLoop = true
      rw [Function.update_of_ne (Ne.symm hic)]
      exact h.inLoop
    -- the way that it has opened by entering was there before
    · have hpassing : Passing clientId
          { procs := Function.update s.procs i p, shared := k } c := by
        refine ⟨i, hic, ?_, hid.trans (congrArg SharedData.turn hdata).symm⟩
        dsimp only
        rw [Function.update_self, hpc']
        rfl
      rintro (⟨-, hcovered⟩ | ⟨hno, -⟩)
      · apply h.way
        right
        constructor
        · rintro ⟨d, -, hentered, -⟩
          exact hturnSem (hi.turnSem.taken d () (entered_holds hentered))
        · dsimp only at hcovered
          rw [hdata] at hcovered
          exact hcovered.prepend hi.turn hid henters (enters_back fun _ => henters)
      · exact hno hpassing
  · apply hopeless_kept i h hopened (congrArg SharedData.turn hdata) hrunning
    · exact fun _ => by rw [hpc']; rfl
    · intro hic hid
      exact absurd ⟨hic, hid⟩ hserve
    · exact fun _ => henters

theorem hopeless_visits {p : Client} {k : Shared} {leave writes : Bool} (hi : Inv words clientId s)
    (h : Hopeless clientId s c) (hpc : (s.procs i).pc = .critical)
    (hpc' : p.pc = .postMutex leave) (hrunning : p.running = (s.procs i).running)
    (hv : Visited (clientId i) s.shared k leave writes) (hopened : k.shutdownRequested = false) :
    Hopeless clientId { procs := Function.update s.procs i p, shared := k } c ∧
      (i = c → writes = false) := by
  have hholds : (s.procs i).pc.holdsTurn = some () := by rw [hpc]; rfl
  have hmoved : p.enters → (s.procs i).enters := by
    rintro ⟨hruns | hwaits, -⟩
    · exact ⟨Or.inl (hrunning.symm.trans hruns), by rw [hpc]; rfl⟩
    · rw [hpc'] at hwaits
      cases hwaits
  by_cases hturn : s.shared.data.turn = clientId i
  · rcases hv.serves h.opened hturn with ⟨-, hnext, -⟩ | ⟨-, -, hleave⟩
    · have hic : i ≠ c := by
        rintro rfl
        exact h.way (Or.inr ⟨not_passing hi hholds (Or.inl rfl), .self hturn.symm⟩)
      refine ⟨⟨?_, ?_, hopened, ?_⟩, fun heq => absurd heq hic⟩
      · exact (congrFun (Sharing.keys_keep Client.running hrunning) c).trans h.runs
      · show (Function.update s.procs i p c).pc.inLoop = true
        rw [Function.update_of_ne (Ne.symm hic)]
        exact h.inLoop
      -- it has passed the turn on, and nobody else has entered
      · rintro (⟨⟨d, -, hentered, -⟩, -⟩ | ⟨-, hcovered⟩)
        · dsimp only at hentered
          by_cases hdi : d = i
          · rw [hdi, Function.update_self, hpc'] at hentered
            cases hentered
          · rw [Function.update_of_ne hdi] at hentered
            exact hdi (holder_unique hi hholds hentered)
        · apply h.way
          refine Or.inl ⟨⟨i, hic, by rw [hpc]; rfl, hturn.symm⟩, ?_⟩
          dsimp only at hcovered
          rw [hnext] at hcovered
          exact hcovered.mono (enters_back hmoved)
    · rw [hv.leaves, hopened] at hleave
      cases hleave
  · obtain ⟨hwrites, hsame, -⟩ := hv.skips (Or.inr hturn)
    refine ⟨hopeless_kept i h hopened hsame hrunning ?_ ?_ hmoved, fun _ => hwrites⟩
    · exact fun _ => by rw [hpc']; rfl
    · intro _ hid
      exact absurd hid.symm hturn

/-- A client that has only moved would have entered before, too. -/
theorem enters_before {pc pc' : Pc} {running : Bool} {wrote wrote' : ℕ} (hpc : pc' ≠ .waitTurn)
    (hin : pc.inLoop = true) (henters : Client.enters ⟨pc', running, wrote'⟩) :
    Client.enters ⟨pc, running, wrote⟩ :=
  ⟨Or.inl (henters.1.resolve_right hpc), hin⟩

theorem hopeless_step {rand : ℕ} {p : Client} {k : Shared} (hi : Inv words clientId s)
    (h : Hopeless clientId s c) (hreg : (s.procs i).pc.registered = true)
    (hact : client words (clientId i) rand (s.procs i) s.shared = some (p, k))
    (hopened : k.shutdownRequested = false) :
    Hopeless clientId { procs := Function.update s.procs i p, shared := k } c ∧
      (i = c → p.wrote = (s.procs i).wrote) := by
  have hknows := hi.knows i
  have hruns : i = c → (s.procs i).running = true := fun hic => hic ▸ h.runs
  have hloop : i = c → (s.procs i).pc.inLoop = true := fun hic => hic ▸ h.inLoop
  have hkept : k.data.turn = s.shared.data.turn → p.running = (s.procs i).running →
      (i = c → p.pc.inLoop = true) → p.pc.entered = (s.procs i).pc.entered →
      (p.enters → (s.procs i).enters) → _ := fun hturn hrunning hself hentered =>
    hopeless_kept i h hopened hturn hrunning hself fun _ _ => hentered
  cases hq : s.procs i with
  | mk pc running wrote =>
    rw [hq] at hreg hact hknows hruns hloop hkept
    cases pc with
    | registerPost =>
      cases hact
      exact ⟨hkept rfl rfl (fun _ => rfl) rfl
        (enters_before (by simp) rfl), fun _ => rfl⟩
    | loopTest =>
      cases hact
      refine ⟨hkept rfl rfl ?_ ?_ ?_, fun _ => rfl⟩
      · intro hic
        dsimp only
        rw [show running = true from hruns hic, h.opened]
        rfl
      · dsimp only
        split <;> rfl
      · rintro ⟨-, hin⟩
        dsimp only at hin
        split at hin
        · rename_i htest
          exact ⟨Or.inl (Bool.and_eq_true_iff.mp htest).1, rfl⟩
        · cases hin
    | waitTurn =>
      simp only [client] at hact
      split at hact
      · cases hact
      · rename_i hturnSem
        cases hact
        exact ⟨hopeless_waits hi h (by rw [hq]) rfl (by rw [hq]) hturnSem rfl hopened,
          fun _ => rfl⟩
    | waitMutex =>
      simp only [client] at hact
      split at hact
      · cases hact
      · cases hact
        exact ⟨hkept rfl rfl (fun _ => rfl) rfl
          (enters_before (by simp) rfl), fun _ => rfl⟩
    | critical =>
      have hv := critical_visited (hknows.started rfl).2 (clientId i) rand s.shared
      simp only [client] at hact
      generalize criticalSection words (clientId i) rand s.shared = visit at hact hv
      obtain ⟨leave, writes, k'⟩ := visit
      cases hact
      have hdone : Hopeless clientId ⟨Function.update s.procs i
          ⟨.postMutex leave, running, wrote+writes.toNat⟩, k'⟩ c ∧ (i = c → writes = false) :=
        hopeless_visits hi h (by rw [hq]) rfl (by rw [hq]) hv hopened
      obtain ⟨hkeeps, hwrites⟩ := hdone
      exact ⟨hkeeps, fun hic => by rw [hwrites hic]; rfl⟩
    | postMutex leave =>
      cases hact
      exact ⟨hkept rfl rfl (fun _ => rfl) rfl
        (enters_before (by simp) rfl), fun _ => rfl⟩
    | postTurn leave =>
      cases hact
      cases leave with
      | false =>
        exact ⟨hkept rfl rfl (fun _ => rfl) rfl
          (enters_before (by simp) rfl), fun _ => rfl⟩
      | true =>
        have hshut := hknows.leaving (Or.inr rfl)
        rw [h.opened] at hshut
        cases hshut
    | unregisterWait =>
      simp only [client] at hact
      split at hact
      · cases hact
      · cases hact
        exact ⟨hkept rfl rfl (fun hic => absurd (hloop hic) Bool.false_ne_true) rfl
          (fun henters => absurd henters.2 Bool.false_ne_true), fun _ => rfl⟩
    | unregister =>
      cases hact
      exact ⟨hkept rfl rfl (fun hic => absurd (hloop hic) Bool.false_ne_true) rfl
        (fun henters => absurd henters.2 Bool.false_ne_true), fun _ => rfl⟩
    | off | registerWait | ended => cases hreg

def Deserted (clientId : ι → ℕ) (s : Processes ι) : Prop :=
  s.shared.shutdownRequested = false ∧
    ∀ d, (s.procs d).pc.inLoop = true → clientId d ≠ s.shared.data.turn

theorem deserted_step {rand : ℕ} {p : Client} {k : Shared} (hi : Inv words clientId s)
    (h : Deserted clientId s) (hreg : (s.procs i).pc.registered = true)
    (hact : client words (clientId i) rand (s.procs i) s.shared = some (p, k)) :
    Deserted clientId { procs := Function.update s.procs i p, shared := k } := by
  obtain ⟨hopened, hothers⟩ := h
  have hsame : k.data.turn = s.shared.data.turn ∧
      k.shutdownRequested = s.shared.shutdownRequested := by
    by_cases hpc : (s.procs i).pc = .critical
    · have hloop : (s.procs i).pc.inLoop = true := by rw [hpc]; rfl
      obtain ⟨leave, writes, hv⟩ := client_visits ((hi.knows i).started hloop).2 hpc hact
      exact (hv.skips (Or.inr (Ne.symm (hothers i hloop)))).2
    · obtain ⟨hdata, hshut⟩ := client_outside hpc hact
      exact ⟨congrArg SharedData.turn hdata, hshut⟩
  refine ⟨hsame.2.trans hopened, ?_⟩
  dsimp only
  rw [hsame.1]
  apply (Function.forall_update_iff s.procs fun d q =>
    q.pc.inLoop = true → clientId d ≠ s.shared.data.turn).mpr
  exact ⟨fun hloop => hothers i (client_in_loop hreg hact hloop), fun d _ => hothers d⟩

theorem continues_cases {a : ι × Event} (hok : Registered a.2 (s.procs a.1))
    (h : Sharing.step (act words clientId) a s = some t) :
    ∃ rand p k, client words (clientId a.1) rand (s.procs a.1) s.shared = some (p, k) ∧
      t = { procs := Function.update s.procs a.1 p, shared := k } := by
  obtain ⟨i, e⟩ := a
  obtain ⟨p, k, hact, rfl⟩ := Sharing.step_next _ h
  cases e with
  | run rand => exact ⟨rand, p, k, hact, rfl⟩
  | sigint => exact absurd rfl hok.1

theorem deserted_continues (hi : Inv words clientId s) (h : Deserted clientId s)
    (hmove : Continues words clientId s t) : Deserted clientId t := by
  apply And.right
  apply reachable_along_invariant _ (fun u => Inv words clientId u ∧ Deserted clientId u) ⟨hi, h⟩
    _ hmove
  rintro a u v ⟨hi, h⟩ hok hstep
  refine ⟨step_inv hi hstep, ?_⟩
  obtain ⟨rand, p, k, hact, rfl⟩ := continues_cases hok hstep
  exact deserted_step hi h hok.2 hact

theorem hopeless_continues (hi : Inv words clientId s) (h : Hopeless clientId s c)
    (hmove : Continues words clientId s t) : t.shared.shutdownRequested = true ∨
      Hopeless clientId t c ∧ (t.procs c).wrote = (s.procs c).wrote := by
  apply And.right
  apply reachable_along_invariant _ (fun u => Inv words clientId u ∧
    (u.shared.shutdownRequested = true ∨
      Hopeless clientId u c ∧ (u.procs c).wrote = (s.procs c).wrote)) ⟨hi, Or.inr ⟨h, rfl⟩⟩ _ hmove
  rintro a u v ⟨hi, h⟩ hok hstep
  refine ⟨step_inv hi hstep, ?_⟩
  obtain ⟨rand, p, k, hact, rfl⟩ := continues_cases hok hstep
  rcases h with hshut | ⟨h, hwrote⟩
  · exact Or.inl (client_shutdown (hi.knows a.1) hact hshut)
  · by_cases hopened : k.shutdownRequested = true
    · exact Or.inl hopened
    · obtain ⟨hkeeps, hsame⟩ := hopeless_step hi h hok.2 hact (by simpa using hopened)
      refine Or.inr ⟨hkeeps, ?_⟩
      dsimp only
      by_cases hci : c = a.1
      · rw [← hwrote, hci, Function.update_self]
        exact hsame hci.symm
      · rw [Function.update_of_ne hci]
        exact hwrote

theorem hopeless_progress (hi : Inv words clientId s) (h : Hopeless clientId s c)
    (hmove : Continues words clientId s t) (hprogress : Progress s t c) :
    t.shared.shutdownRequested = true := by
  rcases hopeless_continues hi h hmove with hshut | ⟨hstill, hwrote⟩
  · exact hshut
  · exfalso
    rcases hprogress with hmore | hout
    · exact absurd hwrote (Nat.ne_of_gt hmore)
    · rw [hstill.inLoop] at hout
      cases hout

/-- A client that has to stop, or to which the turn can come round,
can write again or end its loop. The turn comes to no other one, unless the
buffer fills; where nobody in its loop has its identifier, it stays there. -/
theorem departures {k : Shared} (hk : ServerReady k)
    (h : Reachable (Sharing.step (act words clientId)) (noClients k) s) (c : ι) :
    ((s.procs c).pc.inLoop = false ∨ Stopped s c ∨ Way clientId s c →
      ∃ t, Continues words clientId s t ∧ Progress s t c) ∧
    (¬ ((s.procs c).pc.inLoop = false ∨ Stopped s c ∨ Way clientId s c) →
      ∀ t, Continues words clientId s t → Progress s t c → t.shared.shutdownRequested = true) ∧
    (Deserted clientId s → ∀ t, Continues words clientId s t → Deserted clientId t) := by
  have hi := reachable_inv hk h
  refine ⟨?_, ?_, fun hdeserted t hmove => deserted_continues hi hdeserted hmove⟩
  · rintro (hout | hope)
    · exact ⟨s, reachable_along_refl _ s, Or.inr hout⟩
    · by_cases hloop : (s.procs c).pc.inLoop = true
      · exact hopeful_progress hi hloop hope
      · exact ⟨s, reachable_along_refl _ s, Or.inr (by simpa using hloop)⟩
  · intro hno t hmove hprogress
    exact hopeless_progress hi (hopeless_of hno) hmove hprogress

end Free

/-- Every registered client can go on, while there is room. -/
def NobodyStranded {ι : Type} [DecidableEq ι] (words : List Bytes) (clientId : ι → ℕ)
    (k : Shared) : Prop :=
  ∀ s, Reachable (Sharing.step (act words clientId)) (noClients k) s →
    s.shared.shutdownRequested = false →
    (∀ word ∈ words, s.shared.data.currentPos+word.length+1 < sharedMemSize) →
    ∀ c, (s.procs c).pc.registered = true →
      ∃ t, Continues words clientId s t ∧ Progress s t c

def emptyShared : Shared where
  data := { buffer := fun _ => 0, currentPos := 0, wordCount := 0, turn := 0 }
  activeClients := 0
  shutdownRequested := false
  mutexSem := 1
  turnSem := 1

theorem empty_ready : ServerReady emptyShared := ⟨rfl, rfl, by decide⟩

def mareWord : List Bytes := loadWordsFromFile (some (text "mare\n"))

def twoIds (i : Fin 2) : ℕ := i.val

def steps (i : Fin 2) (n : ℕ) : List (Fin 2 × Event) := List.replicate n (i, .run 0)

def bothJoin : List (Fin 2 × Event) := steps 0 3++steps 1 3

def firstLeaves : List (Fin 2 × Event) := bothJoin++[(0, .sigint)]++steps 0 3

theorem both_join_run : (exec (Sharing.step (act mareWord twoIds)) bothJoin
    (noClients emptyShared)).isSome = true := by
  decide +kernel

def bothJoined : Processes (Fin 2) :=
  (exec (Sharing.step (act mareWord twoIds)) bothJoin (noClients emptyShared)).get both_join_run

theorem both_joined_progress : ∃ t, Continues mareWord twoIds bothJoined t ∧
    Progress bothJoined t 1 := by
  have hreach : Reachable (Sharing.step (act mareWord twoIds)) (noClients emptyShared) bothJoined :=
    reachable_get both_join_run
  have hway : Way twoIds bothJoined 1 := by
    unfold Way Passing Covered Client.enters
    decide +kernel
  exact (departures empty_ready hreach 1).1 (Or.inr (Or.inr hway))

theorem first_leaves_run : (exec (Sharing.step (act mareWord twoIds)) firstLeaves
    (noClients emptyShared)).isSome = true := by
  decide +kernel

def firstLeft : Processes (Fin 2) :=
  (exec (Sharing.step (act mareWord twoIds)) firstLeaves (noClients emptyShared)).get
    first_leaves_run

theorem first_left_stranded : ¬ NobodyStranded mareWord twoIds emptyShared := by
  intro hclaim
  have hreach : Reachable (Sharing.step (act mareWord twoIds)) (noClients emptyShared) firstLeft :=
    reachable_get first_leaves_run
  have hi := reachable_inv empty_ready hreach
  obtain ⟨t, hmove, hprogress⟩ :=
    hclaim firstLeft hreach (by decide +kernel) (by decide +kernel) 1 (by decide +kernel)
  have hdeserted : Deserted twoIds firstLeft := by
    unfold Deserted
    decide +kernel
  have hhopeless : Hopeless twoIds firstLeft 1 := by
    refine ⟨by decide +kernel, by decide +kernel, by decide +kernel, ?_⟩
    unfold Way Passing Covered Client.enters
    decide +kernel
  have hopened := (deserted_continues hi hdeserted hmove).1
  rw [hopeless_progress hi hhopeless hmove hprogress] at hopened
  cases hopened

end ProgSistema.WordBuffer.Clients
