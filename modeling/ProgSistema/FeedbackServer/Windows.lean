import ProgSistema.Lib.Window
import ProgSistema.FeedbackServer.Model

/-!
# The counters of the last minutes

The array agrees with the list of the stored messages about everything since
five minutes before the clock, whatever has been dropped. A message that
finds the array full is counted in the total and nowhere else; the array can
only be full of messages of the five minutes before the previous one.
-/

set_option autoImplicit false

namespace ProgSistema.FeedbackServer
open CRuntime ArrayPrefix Window

def ofType (i : Fin 6) (m : Messaggio) : Bool := charToIndex m.tipo = some i

def Server.stored (s : Server) : List Messaggio := contents s.messaggi s.numMessaggi

@[simp] theorem stored_length (s : Server) : s.stored.length = s.numMessaggi := contents_length _ _

abbrev since (limite : ℤ) (ms : List Messaggio) : List Messaggio :=
  recent Messaggio.timestamp limite ms

section Counting

def countSince (i : Fin 6) (limite : ℤ) (ms : List Messaggio) : ℕ :=
  (since limite ms).countP (ofType i)

theorem count_since_le (i : Fin 6) (limite : ℤ) (ms : List Messaggio) :
    countSince i limite ms ≤ ms.length :=
  List.countP_le_length.trans (List.length_filter_le _ _)

theorem count_since_append (i : Fin 6) (limite : ℤ) (ms ms' : List Messaggio) :
    countSince i limite (ms++ms') = countSince i limite ms+countSince i limite ms' := by
  unfold countSince since
  rw [recent_append, List.countP_append]

theorem count_since_singleton (i : Fin 6) (limite : ℤ) (m : Messaggio) :
    countSince i limite [m] = if ofType i m ∧ m.timestamp ≥ limite then 1 else 0 := by
  unfold countSince since
  rw [count_recent, List.countP_singleton]
  simp

/-- A window counter goes up by one for a message of its category inside the
window. -/
theorem window_step (i : Fin 6) (limite : ℤ) (m : Messaggio) (n : ℕ) (h : n+1 < 2^31)
    (hm : ofType i m = true) :
    (if m.timestamp ≥ limite then toInt ((n : ℤ)+1) else n) = (n+countSince i limite [m] : ℕ) := by
  rw [count_since_singleton]
  by_cases hrecent : m.timestamp ≥ limite
  · rw [if_pos hrecent, if_pos ⟨hm, hrecent⟩, ← Nat.cast_succ]
    exact to_int_of_lt _ h
  · rw [if_neg hrecent, if_neg fun hand => hrecent hand.2]
    rfl

theorem conta_messaggio_apply (limite5Min limite1Min : ℤ) (c : Fin 6 → Contatori) (m : Messaggio)
    (i : Fin 6) (totale : ℤ) (n5 n1 : ℕ) (hc : c i = ⟨totale, n5, n1⟩) (h5 : n5+1 < 2^31)
    (h1 : n1+1 < 2^31) :
    contaMessaggio limite5Min limite1Min c m i =
      ⟨totale, (n5+countSince i limite5Min [m] : ℕ), (n1+countSince i limite1Min [m] : ℕ)⟩ := by
  have hother : ofType i m = false → c i =
      ⟨totale, (n5+countSince i limite5Min [m] : ℕ), (n1+countSince i limite1Min [m] : ℕ)⟩ := by
    intro hm
    rw [count_since_singleton, count_since_singleton, if_neg (by simp [hm]), if_neg (by simp [hm])]
    exact hc
  unfold contaMessaggio
  cases hidx : charToIndex m.tipo with
  | none => exact hother (by simp [ofType, hidx])
  | some idx =>
    by_cases hi : idx = i
    · subst hi
      have hm : ofType idx m = true := by simp [ofType, hidx]
      dsimp only
      rw [Function.update_self, hc, ← window_step idx limite5Min m n5 h5 hm,
        ← window_step idx limite1Min m n1 h1 hm]
    · rw [← hother (by simpa [ofType, hidx] using hi)]
      exact Function.update_of_ne (Ne.symm hi) _ _

theorem conta_foldl (limite5Min limite1Min : ℤ) (ms : List Messaggio) (c : Fin 6 → Contatori)
    (i : Fin 6) (totale : ℤ) (n5 n1 : ℕ) (hc : c i = ⟨totale, n5, n1⟩)
    (h5 : n5+ms.length < 2^31) (h1 : n1+ms.length < 2^31) :
    (ms.foldl (contaMessaggio limite5Min limite1Min) c) i =
      ⟨totale, (n5+countSince i limite5Min ms : ℕ), (n1+countSince i limite1Min ms : ℕ)⟩ := by
  induction ms generalizing c n5 n1 with
  | nil => exact hc
  | cons m ms ih =>
    rw [List.length_cons] at h5 h1
    have hle5 := count_since_le i limite5Min [m]
    have hle1 := count_since_le i limite1Min [m]
    rw [List.length_singleton] at hle5 hle1
    have hm := conta_messaggio_apply limite5Min limite1Min c m i totale n5 n1 hc (by omega)
      (by omega)
    have hsplit : ∀ limite, countSince i limite (m::ms) =
        countSince i limite [m]+countSince i limite ms :=
      fun limite => count_since_append i limite [m] ms
    rw [List.foldl_cons, ih _ _ _ hm (by omega) (by omega), hsplit, hsplit, Nat.add_assoc,
      Nat.add_assoc]

theorem aggiorna_contatori_apply (oraCorrente : ℤ) (s : Server)
    (hfull : s.numMessaggi ≤ maxMessaggi) (i : Fin 6) : (aggiornaContatori oraCorrente s).contatori i =
      ⟨(s.contatori i).totale, countSince i (oraCorrente-300) s.stored,
        countSince i (oraCorrente-60) s.stored⟩ := by
  have hlen : s.stored.length < 2^31 := by
    unfold maxMessaggi at hfull
    rw [stored_length]
    omega
  have hcount := conta_foldl (oraCorrente-300) (oraCorrente-60) s.stored
    (fun i => { s.contatori i with ultimi5Min := 0, ultimoMin := 0 }) i (s.contatori i).totale 0 0
    rfl (by omega) (by omega)
  rw [Nat.zero_add, Nat.zero_add] at hcount
  exact hcount

end Counting

section Storing

theorem pulisci_stored (oraCorrente : ℤ) (s : Server) :
    (pulisciMessaggiVecchi oraCorrente s).stored = since (oraCorrente-300) s.stored :=
  compact_contents _ _ _

theorem memorizza_stored (m : Messaggio) (s : Server) : (memorizza m s).stored =
    s.stored++if s.numMessaggi < maxMessaggi then [m] else [] := by
  unfold memorizza
  by_cases hroom : s.numMessaggi < maxMessaggi
  · rw [if_pos hroom, if_pos hroom]
    exact contents_append _ _ _
  · rw [if_neg hroom, if_neg hroom, List.append_nil]

theorem memorizza_le (m : Messaggio) (s : Server) (h : s.numMessaggi ≤ maxMessaggi) :
    (memorizza m s).numMessaggi ≤ maxMessaggi := by
  unfold memorizza
  split
  · rename_i hroom
    exact hroom
  · exact h

theorem pulisci_le (oraCorrente : ℤ) (s : Server) (h : s.numMessaggi ≤ maxMessaggi) :
    (pulisciSeNecessario oraCorrente s).numMessaggi ≤ maxMessaggi := by
  unfold pulisciSeNecessario
  split
  · exact (compact_le _ _ _).trans h
  · exact h

/-- After a message, an array that is almost full holds recent messages only. -/
theorem pulisci_recent (oraCorrente : ℤ) (s : Server)
    (h : (pulisciSeNecessario oraCorrente s).numMessaggi ≥ maxMessaggi-100) :
    ∀ m ∈ (pulisciSeNecessario oraCorrente s).stored, m.timestamp ≥ oraCorrente-300 := by
  unfold pulisciSeNecessario at h ⊢
  split at h
  · rename_i hnum
    rw [if_pos hnum, pulisci_stored]
    intro m hm
    simpa using (List.mem_filter.mp hm).2
  · rename_i hnum
    exact absurd h hnum

theorem pulisci_since (oraCorrente limite : ℤ) (s : Server) (h : oraCorrente-300 ≤ limite) :
    since limite (pulisciSeNecessario oraCorrente s).stored = since limite s.stored := by
  unfold pulisciSeNecessario
  split
  · rw [pulisci_stored]
    exact recent_recent _ h _
  · rfl

theorem memorizza_contatori (m : Messaggio) (s : Server) :
    (memorizza m s).contatori = s.contatori := by
  unfold memorizza
  split <;> rfl

theorem pulisci_contatori (oraCorrente : ℤ) (s : Server) :
    (pulisciSeNecessario oraCorrente s).contatori = s.contatori := by
  unfold pulisciSeNecessario
  split <;> rfl

end Storing

/-- An accepted message, with what the array held when it arrived and the
clock when the server handled the accepted message before it. -/
structure Arrival where
  message : Messaggio
  held : List Messaggio
  previous : ℤ

structure Lesson where
  server : Server
  clock : ℤ
  arrivals : List Arrival
  previous : ℤ

def begun (msg : MessaggioT) (inizioLezione : ℤ) : Lesson :=
  ⟨started msg, inizioLezione, [], inizioLezione⟩

def Lesson.receive (oraPulizia : ℤ) (b : Bytes) (l : Lesson) : Lesson :=
  let server := FeedbackServer.receive oraPulizia b l.server
  match FeedbackServer.accepted b l.server with
  | none => { l with server := server, clock := oraPulizia }
  | some (_, m) => ⟨server, oraPulizia, l.arrivals++[⟨m, l.server.stored, l.previous⟩], oraPulizia⟩

def Lesson.recount (oraCorrente : ℤ) (l : Lesson) : Lesson :=
  { l with server := aggiornaContatori oraCorrente l.server, clock := oraCorrente }

/-- The clock never goes back. -/
def step : Event → Lesson → Option Lesson
  | .datagram b oraPulizia oraCorrente, l =>
    if l.clock ≤ oraPulizia ∧ oraPulizia ≤ oraCorrente then
      some ((l.receive oraPulizia b).recount oraCorrente)
    else none
  | .idle oraCorrente, l => if l.clock ≤ oraCorrente then some (l.recount oraCorrente) else none

theorem receive_server (oraPulizia : ℤ) (b : Bytes) (l : Lesson) :
    (l.receive oraPulizia b).server = receive oraPulizia b l.server := by
  unfold Lesson.receive
  dsimp only
  split <;> rfl

theorem receive_clock (oraPulizia : ℤ) (b : Bytes) (l : Lesson) :
    (l.receive oraPulizia b).clock = oraPulizia := by
  unfold Lesson.receive
  dsimp only
  split <;> rfl

/-- The server of a lesson runs its main loop. -/
theorem step_iteration {e : Event} {l l' : Lesson} (h : step e l = some l') :
    l'.server = iteration e l.server := by
  cases e with
  | datagram b oraPulizia oraCorrente =>
    rw [step] at h
    split at h
    · cases h
      show aggiornaContatori oraCorrente (l.receive oraPulizia b).server = _
      rw [receive_server]
      rfl
    · cases h
  | idle oraCorrente =>
    rw [step] at h
    split at h
    · cases h
      rfl
    · cases h

def Lesson.accepted (l : Lesson) : List Messaggio := l.arrivals.map Arrival.message

def Lesson.recorded (l : Lesson) : List Messaggio :=
  (l.arrivals.filter fun a => a.held.length < maxMessaggi).map Arrival.message

def Crowded (ms : List Messaggio) (ora : ℤ) : Prop :=
  ms.length ≤ maxMessaggi ∧ (ms.length ≥ maxMessaggi-100 → ∀ m ∈ ms, m.timestamp ≥ ora-300)

structure Accumulated (l : Lesson) : Prop where
  agrees : since (l.clock-300) l.server.stored = since (l.clock-300) l.recorded
  crowded : Crowded l.server.stored l.previous
  arrivals : ∀ a ∈ l.arrivals, Crowded a.held a.previous
  total : ∀ i, l.accepted.countP (ofType i) < 2^31 →
    (l.server.contatori i).totale = l.accepted.countP (ofType i)

structure Windowed (l : Lesson) : Prop where
  fiveMinutes : ∀ i, (l.server.contatori i).ultimi5Min = countSince i (l.clock-300) l.recorded
  oneMinute : ∀ i, (l.server.contatori i).ultimoMin = countSince i (l.clock-60) l.recorded

theorem num_messaggi_le {l : Lesson} (h : Accumulated l) : l.server.numMessaggi ≤ maxMessaggi := by
  have hle := h.crowded.1
  rwa [stored_length] at hle

section Steps
variable {l : Lesson}

/-- Messages older than five minutes play no part in a recount. -/
theorem recount_spec (h : Accumulated l) (oraCorrente : ℤ) (hclock : l.clock ≤ oraCorrente) :
    Accumulated (l.recount oraCorrente) ∧ Windowed (l.recount oraCorrente) := by
  have hcount := aggiorna_contatori_apply oraCorrente l.server (num_messaggi_le h)
  have hagrees : ∀ limite, l.clock-300 ≤ limite →
      since limite l.server.stored = since limite l.recorded :=
    fun limite hle => recent_later Messaggio.timestamp hle h.agrees
  have hsame : ∀ i limite, l.clock-300 ≤ limite →
      countSince i limite l.server.stored = countSince i limite l.recorded := by
    intro i limite hle
    rw [countSince, hagrees limite hle, countSince]
  refine ⟨⟨?_, h.crowded, h.arrivals, ?_⟩, ⟨?_, ?_⟩⟩
  · exact hagrees _ (by show _ ≤ oraCorrente-300; omega)
  · intro i hfew
    show ((aggiornaContatori oraCorrente l.server).contatori i).totale = _
    rw [hcount]
    exact h.total i hfew
  · intro i
    show ((aggiornaContatori oraCorrente l.server).contatori i).ultimi5Min =
      countSince i (oraCorrente-300) l.recorded
    rw [hcount]
    exact congrArg _ (hsame i _ (by omega))
  · intro i
    show ((aggiornaContatori oraCorrente l.server).contatori i).ultimoMin =
      countSince i (oraCorrente-60) l.recorded
    rw [hcount]
    exact congrArg _ (hsame i _ (by omega))

theorem accepted_type {b : Bytes} {s : Server} {idx : Fin 6} {m : Messaggio}
    (h : accepted b s = some (idx, m)) : charToIndex m.tipo = some idx := by
  unfold accepted at h
  split at h
  · cases h
  · obtain ⟨i, hi, heq⟩ := Option.map_eq_some_iff.mp h
    cases heq
    exact hi

theorem recorded_append (l : Lesson) (a : Arrival) (server : Server) (clock previous : ℤ) :
    Lesson.recorded ⟨server, clock, l.arrivals++[a], previous⟩ =
      l.recorded++if a.held.length < maxMessaggi then [a.message] else [] := by
  unfold Lesson.recorded
  rw [List.filter_append, List.map_append]
  by_cases hroom : a.held.length < maxMessaggi
  · rw [if_pos hroom, List.filter_cons_of_pos (by simpa using hroom)]
    rfl
  · rw [if_neg hroom, List.filter_cons_of_neg (by simpa using hroom)]
    rfl

theorem total_apply (i idx : Fin 6) (s : Server) :
    ((aggiornaTotale idx s).contatori i).totale =
      if idx = i then toInt ((s.contatori i).totale+1) else (s.contatori i).totale := by
  unfold aggiornaTotale
  by_cases hi : idx = i
  · subst hi
    rw [if_pos rfl]
    dsimp only
    rw [Function.update_self]
  · rw [if_neg hi]
    dsimp only
    rw [Function.update_of_ne (Ne.symm hi)]

theorem of_type (i idx : Fin 6) (m : Messaggio) (h : charToIndex m.tipo = some idx) :
    ofType i m = true ↔ idx = i := by
  unfold ofType
  rw [h]
  simp

theorem receive_spec (h : Accumulated l) (oraPulizia : ℤ) (b : Bytes)
    (hclock : l.clock ≤ oraPulizia) : Accumulated (l.receive oraPulizia b) := by
  have hagrees : since (oraPulizia-300) l.server.stored = since (oraPulizia-300) l.recorded :=
    recent_later Messaggio.timestamp (by omega) h.agrees
  unfold Lesson.receive receive
  cases haccepted : accepted b l.server with
  | none => exact ⟨hagrees, h.crowded, h.arrivals, h.total⟩
  | some p =>
    obtain ⟨idx, m⟩ := p
    dsimp only
    constructor
    · rw [recorded_append, pulisci_since _ _ _ le_rfl, memorizza_stored, since, recent_append,
        since, recent_append, stored_length]
      congr 1
    · constructor
      · rw [stored_length]
        exact pulisci_le _ _ (memorizza_le _ _ (num_messaggi_le h))
      · intro hmany
        rw [stored_length] at hmany
        exact pulisci_recent _ _ hmany
    · intro a ha
      rcases List.mem_append.mp ha with ha | ha
      · exact h.arrivals a ha
      · rw [List.mem_singleton.mp ha]
        exact h.crowded
    · intro i hfew
      have htype := of_type i idx m (accepted_type haccepted)
      have htotal := h.total i
      have hcount : Lesson.accepted ⟨pulisciSeNecessario oraPulizia (memorizza m
          (aggiornaTotale idx { l.server with msg := recvfrom b l.server.msg })), oraPulizia,
            l.arrivals++[⟨m, l.server.stored, l.previous⟩], oraPulizia⟩ = l.accepted++[m] := by
        rw [Lesson.accepted, List.map_append]
        rfl
      rw [hcount, List.countP_append, List.countP_singleton] at hfew ⊢
      rw [pulisci_contatori, memorizza_contatori, total_apply]
      by_cases hi : idx = i
      · rw [if_pos (htype.mpr hi)] at hfew ⊢
        rw [if_pos hi]
        dsimp only
        rw [htotal (by omega), ← Nat.cast_succ]
        exact to_int_of_lt _ hfew
      · rw [if_neg fun hm => hi (htype.mp hm)] at hfew ⊢
        rw [if_neg hi]
        exact htotal hfew

theorem step_spec {e : Event} {l' : Lesson} (h : Accumulated l) (hstep : step e l = some l') :
    Accumulated l' ∧ Windowed l' := by
  cases e with
  | datagram b oraPulizia oraCorrente =>
    rw [step] at hstep
    split at hstep
    · rename_i hclock
      cases hstep
      apply recount_spec (receive_spec h oraPulizia b hclock.1)
      rw [receive_clock]
      exact hclock.2
    · cases hstep
  | idle oraCorrente =>
    rw [step] at hstep
    split at hstep
    · rename_i hclock
      cases hstep
      exact recount_spec h oraCorrente hclock
    · cases hstep

end Steps

theorem begun_spec (msg : MessaggioT) (inizioLezione : ℤ) :
    Accumulated (begun msg inizioLezione) ∧ Windowed (begun msg inizioLezione) := by
  refine ⟨⟨rfl, ?_, ?_, fun _ _ => rfl⟩, ⟨fun _ => rfl, fun _ => rfl⟩⟩
  · exact ⟨Nat.zero_le _, fun h => absurd h (by simp [begun, started, maxMessaggi])⟩
  · intro a ha
    cases ha

theorem reachable_spec {msg : MessaggioT} {inizioLezione : ℤ} {l : Lesson}
    (h : Runs.Reachable step (begun msg inizioLezione) l) : Accumulated l ∧ Windowed l :=
  Runs.reachable_invariant step (fun l => Accumulated l ∧ Windowed l)
    (begun_spec msg inizioLezione) (fun _ _ _ hi hstep => step_spec hi.1 hstep) h

/-- After every turn of the loop the window counters count the messages that
found a free place on arrival, and the total counts all accepted messages. A
message finds no place only when the array is full of messages of the five
minutes before the previous one. -/
theorem windows_of_recorded (msg : MessaggioT) (inizioLezione : ℤ) (l : Lesson)
    (h : Runs.Reachable step (begun msg inizioLezione) l) :
    (∀ i, (l.server.contatori i).ultimi5Min =
        l.recorded.countP fun m => ofType i m ∧ m.timestamp ≥ l.clock-300) ∧
      (∀ i, (l.server.contatori i).ultimoMin =
        l.recorded.countP fun m => ofType i m ∧ m.timestamp ≥ l.clock-60) ∧
      (∀ i, l.accepted.countP (ofType i) < 2^31 →
        (l.server.contatori i).totale = l.accepted.countP (ofType i)) ∧
      ∀ a ∈ l.arrivals, a.held.length ≤ maxMessaggi ∧
        (a.held.length = maxMessaggi → ∀ m ∈ a.held, m.timestamp ≥ a.previous-300) := by
  obtain ⟨haccumulated, hwindowed⟩ := reachable_spec h
  refine ⟨?_, ?_, haccumulated.total, ?_⟩
  · intro i
    rw [hwindowed.fiveMinutes, countSince, since, count_recent]
  · intro i
    rw [hwindowed.oneMinute, countSince, since, count_recent]
  · intro a ha
    obtain ⟨hle, hrecent⟩ := haccumulated.arrivals a ha
    exact ⟨hle, fun hfull => hrecent (by omega)⟩

def applauso : Bytes := [65, 0, 0, 0, 0, 0, 0, 0, 0, 0xf1, 0x53, 0x65, 0, 0, 0, 0]

/-- The second datagram leaves the time of the first in the variable. -/
def shortLesson : List Event :=
  [.datagram applauso 1700000010 1700000010, .datagram [66] 1700000020 1700000021,
    .idle 1700000100]

theorem short_lesson_run :
    (Runs.exec step shortLesson (begun (fun _ => 0) 1700000000)).isSome = true := by
  decide

def shortLessonEnd : Lesson :=
  (Runs.exec step shortLesson (begun (fun _ => 0) 1700000000)).get short_lesson_run

theorem short_lesson_windows : (shortLessonEnd.server.contatori 5).ultimi5Min = 1 ∧
    (shortLessonEnd.server.contatori 5).ultimoMin = 0 ∧
    (shortLessonEnd.server.contatori 0).totale = 1 := by
  obtain ⟨hfive, hone, htotal, -⟩ := windows_of_recorded (fun _ => 0) 1700000000 shortLessonEnd
    (Runs.reachable_get short_lesson_run)
  refine ⟨?_, ?_, ?_⟩
  · rw [hfive]
    decide
  · rw [hone]
    decide
  · rw [htotal 0 (by decide)]
    decide

section Full

def crowd : Event := .datagram applauso 1700000010 1700000010

def applausoMessage : Messaggio := ⟨65, 1700000000⟩

theorem applauso_accepted (s : Server) : accepted applauso s = some (0, applausoMessage) := by
  have hmsg : recvfrom applauso s.msg = fun i => applauso.get (i.cast rfl) := by
    funext i
    fin_cases i <;> rfl
  unfold accepted
  rw [if_neg (by decide), hmsg]
  decide

theorem crowd_step (l : Lesson) (h : l.clock ≤ 1700000010) : ∃ l', step crowd l = some l' ∧
    l'.clock = 1700000010 ∧ l'.accepted = l.accepted++[applausoMessage] := by
  refine ⟨_, if_pos ⟨h, le_rfl⟩, rfl, ?_⟩
  unfold Lesson.recount Lesson.receive Lesson.accepted
  rw [applauso_accepted]
  exact List.map_append ..

theorem crowd_run (n : ℕ) : ∃ l, Runs.exec step (List.replicate n crowd)
    (begun (fun _ => 0) 1700000000) = some l ∧ l.clock ≤ 1700000010 ∧
      l.accepted = List.replicate n applausoMessage := by
  induction n with
  | zero => exact ⟨_, rfl, by simp [begun], rfl⟩
  | succ n ih =>
    obtain ⟨l, hrun, hclock, haccepted⟩ := ih
    obtain ⟨l', hstep, hclock', haccepted'⟩ := crowd_step l hclock
    refine ⟨l', ?_, hclock'.le, ?_⟩
    · rw [List.replicate_succ', Runs.exec_append, hrun]
      show (step crowd l).bind _ = _
      rw [hstep]
      rfl
    · rw [haccepted', haccepted, List.replicate_succ']

/-- The message that comes when ten thousand recent ones are stored is in no
window counter. -/
theorem full_array_uncounted : ¬ ∀ l, Runs.Reachable step (begun (fun _ => 0) 1700000000) l →
    ∀ i, (l.server.contatori i).ultimi5Min =
      l.accepted.countP fun m => ofType i m ∧ m.timestamp ≥ l.clock-300 := by
  intro h
  obtain ⟨l, hrun, hclock, haccepted⟩ := crowd_run 10001
  have hreach : Runs.Reachable step (begun (fun _ => 0) 1700000000) l := ⟨_, hrun⟩
  obtain ⟨haccumulated, hwindowed⟩ := reachable_spec hreach
  have hall := h l hreach 0
  have hten : (l.accepted.countP fun m => ofType 0 m ∧ m.timestamp ≥ l.clock-300) = 10001 := by
    rw [haccepted, List.countP_replicate, if_pos]
    have htime : applausoMessage.timestamp ≥ l.clock-300 := by
      show 1700000000 ≥ l.clock-300
      omega
    have htype : ofType 0 applausoMessage = true := by decide
    simp [htime, htype]
  have hwindow : countSince 0 (l.clock-300) l.recorded ≤ maxMessaggi := by
    rw [countSince, ← haccumulated.agrees]
    have hle := count_since_le 0 (l.clock-300) l.server.stored
    rw [stored_length] at hle
    exact hle.trans (num_messaggi_le haccumulated)
  rw [hwindowed.fiveMinutes, hten] at hall
  unfold maxMessaggi at hwindow
  omega

end Full

end ProgSistema.FeedbackServer
