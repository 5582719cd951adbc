import ProgSistema.Lib.Runs
import ProgSistema.FileQuery.Reply

/-!
# Requests of one client and the replies to them

The client may stop waiting at any moment and ask again, while the server
works through the requests in order. Replies carry no request identifier, so
a client that has stopped waiting for one reply reads it as the answer to its
next request, and stays behind by one reply from then on.
-/

set_option autoImplicit false

namespace ProgSistema.FileQuery
open CRuntime FileTree

structure Exchange where
  message : Bytes
  lines : List Line
  deriving DecidableEq, Repr

structure Answer where
  message : Bytes
  filePaths : List Bytes
  deriving DecidableEq, Repr

/-- `current` is the request whose receive loop the client is in, `sending`
what the server has still to send. -/
structure Session where
  past : List Exchange
  current : Option Exchange
  fileCount : ℤ
  finished : Bool
  toServer : List Bytes
  handled : List Answer
  sending : List Bytes
  toClient : List Bytes
  deriving DecidableEq

inductive Action where
  | input (line : Bytes)
  | serve (alloc : Allocator) (fs : FileSystem) (fuel : ℕ)
  | send
  | receive
  | timeout
  | failure

def started : Session := ⟨[], none, 0, false, [], [], [], []⟩

def readInput (line : Bytes) (s : Session) : Session :=
  match readCommand (readMessage line) with
  | .quit => { s with finished := true }
  | .again => s
  | .send _ => { s with current := some ⟨readMessage line, []⟩, fileCount := 0,
                        toServer := s.toServer++[readMessage line] }

def handleReceived (r : Received) (e : Exchange) (s : Session) : Session :=
  match receiveOne s.fileCount r with
  | (line, fileCount, true) =>
    { s with current := some ⟨e.message, e.lines++[line]⟩, fileCount := fileCount }
  | (line, _, false) => { s with past := s.past++[⟨e.message, e.lines++[line]⟩], current := none }

/-- A server that aborts handles no further request. -/
def step : Action → Session → Option Session
  | .input line, s =>
    if s.finished = false ∧ s.current = none then some (readInput line s) else none
  | .serve alloc fs fuel, s =>
    match s.sending, s.toServer with
    | [], message::toServer =>
      match select alloc fs fuel message with
      | .ok (.ok paths) => some { s with toServer := toServer, sending := replyTo paths,
                                         handled := s.handled++[⟨message, paths⟩] }
      | _ => none
    | _, _ => none
  | .send, s =>
    match s.sending with
    | [] => none
    | d::ds => some { s with sending := ds, toClient := s.toClient++[d] }
  | .receive, s =>
    match s.current, s.toClient with
    | some e, d::ds => some (handleReceived (.datagram d) e { s with toClient := ds })
    | _, _ => none
  | .timeout, s => s.current.map fun e => handleReceived .timeout e s
  | .failure, s => s.current.map fun e => handleReceived .failure e s

def Session.exchanges (s : Session) : List Exchange := s.past++s.current.toList

def Line.isTotal : Line → Bool
  | .total _ => true
  | _ => false

def Exchange.answered (e : Exchange) : Bool := e.lines.any Line.isTotal

def answers (es : List Exchange) : ℕ := es.countP Exchange.answered

def abandoned (es : List Exchange) : ℕ := es.countP fun e => ¬ e.answered

theorem answers_add_abandoned (es : List Exchange) : answers es+abandoned es = es.length := by
  unfold answers abandoned
  rw [List.length_eq_countP_add_countP Exchange.answered (l := es)]

theorem answers_append (es : List Exchange) (e : Exchange) :
    answers (es++[e]) = answers es+if e.answered then 1 else 0 := by
  unfold answers
  rw [List.countP_append, List.countP_singleton]

def Pending : List Answer → List Bytes → Prop
  | [], ds => ds = []
  | a::as, ds => ∃ remaining, remaining <:+ a.filePaths ∧
      ds = replyTo remaining++as.flatMap fun a => replyTo a.filePaths

theorem pending_whole (as : List Answer) :
    Pending as (as.flatMap fun a => replyTo a.filePaths) := by
  cases as with
  | nil => rfl
  | cons a as => exact ⟨a.filePaths, List.suffix_rfl, rfl⟩

theorem pending_append {as : List Answer} {ds : List Bytes} (h : Pending as ds) (a : Answer) :
    Pending (as++[a]) (ds++replyTo a.filePaths) := by
  cases as with
  | nil =>
    rw [Pending] at h
    rw [h]
    exact ⟨a.filePaths, List.suffix_rfl, by simp⟩
  | cons b as =>
    obtain ⟨remaining, hsuffix, rfl⟩ := h
    refine ⟨remaining, hsuffix, ?_⟩
    show _ = replyTo remaining++(as++[a]).flatMap fun a => replyTo a.filePaths
    rw [List.flatMap_append, List.append_assoc, List.flatMap_singleton]

/-- The next datagram is the end of the first reply, or one of its paths. -/
theorem pending_next {as : List Answer} {d : Bytes} {ds : List Bytes} (h : Pending as (d::ds)) :
    ∃ a as', as = a::as' ∧ (d = endMarker ∧ Pending as' ds ∨
      ∃ p ∈ a.filePaths, d = response p ∧ Pending as ds) := by
  cases as with
  | nil => cases h
  | cons a as =>
    obtain ⟨remaining, hsuffix, hds⟩ := h
    refine ⟨a, as, rfl, ?_⟩
    cases remaining with
    | nil =>
      obtain ⟨rfl, rfl⟩ := List.cons.inj hds
      exact .inl ⟨rfl, pending_whole as⟩
    | cons p ps =>
      obtain ⟨rfl, rfl⟩ := List.cons.inj hds
      refine .inr ⟨p, hsuffix.subset List.mem_cons_self, rfl, ps, ?_, rfl⟩
      exact (List.suffix_cons p ps).trans hsuffix

def FromAnswer (handled : List Answer) (i : ℕ) (r : Bytes) : Prop :=
  ∃ a, handled[i]? = some a ∧ ∃ p ∈ a.filePaths, r = cstr (response p)

theorem from_answer_append {handled : List Answer} {i : ℕ} {r : Bytes}
    (h : FromAnswer handled i r) (a : Answer) : FromAnswer (handled++[a]) i r := by
  obtain ⟨b, hb, hp⟩ := h
  refine ⟨b, ?_, hp⟩
  rw [List.getElem?_append_left (List.getElem?_eq_some_iff.mp hb).1, hb]

def PrintedFrom (handled : List Answer) (before : List Exchange) (e : Exchange) : Prop :=
  ∀ n r, .file n r ∈ e.lines → FromAnswer handled (answers before) r

theorem printed_append {handled : List Answer} {es : List Exchange} {f : Exchange}
    (hold : ∀ k e, es[k]? = some e → PrintedFrom handled (es.take k) e)
    (hnew : PrintedFrom handled es f) (k : ℕ) (e : Exchange) (hk : (es++[f])[k]? = some e) :
    PrintedFrom handled ((es++[f]).take k) e := by
  rcases lt_or_ge k es.length with hlt | hge
  · rw [List.getElem?_append_left hlt] at hk
    rw [List.take_append_of_le_length hlt.le]
    exact hold k e hk
  · rw [List.getElem?_append_right hge, List.getElem?_singleton] at hk
    split at hk
    · cases hk
      have hlast : k = es.length := by omega
      rw [hlast, List.take_left]
      exact hnew
    · cases hk

structure Ordered (s : Session) : Prop where
  requests : s.exchanges.map Exchange.message = s.handled.map Answer.message++s.toServer
  selections : ∀ a ∈ s.handled, ∃ alloc fs fuel,
    select alloc fs fuel a.message = .ok (.ok a.filePaths)
  unanswered : ∀ e ∈ s.current, e.answered = false
  read : answers s.past ≤ s.handled.length
  pending : Pending (s.handled.drop (answers s.past)) (s.toClient++s.sending)
  past : ∀ k e, s.past[k]? = some e → PrintedFrom s.handled (s.past.take k) e
  current : ∀ e ∈ s.current, PrintedFrom s.handled s.past e

theorem ordered_started : Ordered started := by
  constructor
  · rfl
  · simp [started]
  · simp [started]
  · simp [started, answers]
  · rfl
  · simp [started]
  · simp [started]

section Steps
variable {s : Session}

theorem ordered_input (hi : Ordered s) (line : Bytes) (hprompt : s.current = none) :
    Ordered (readInput line s) := by
  unfold readInput
  split
  · exact ⟨hi.requests, hi.selections, hi.unanswered, hi.read, hi.pending, hi.past, hi.current⟩
  · exact hi
  · have hrequests := hi.requests
    rw [Session.exchanges, hprompt] at hrequests
    constructor
    · show (s.past++[Exchange.mk (readMessage line) []]).map Exchange.message =
        s.handled.map Answer.message++(s.toServer++[readMessage line])
      rw [List.map_append, ← List.append_assoc, ← hrequests]
      simp
    · exact hi.selections
    · rintro e ⟨⟩
      rfl
    · exact hi.read
    · exact hi.pending
    · exact hi.past
    · rintro e ⟨⟩ n r hmem
      cases hmem

theorem ordered_serve (hi : Ordered s) (alloc : Allocator) (fs : FileSystem) (fuel : ℕ)
    {message : Bytes} {toServer paths : List Bytes} (hidle : s.sending = [])
    (hnext : s.toServer = message::toServer)
    (hselect : select alloc fs fuel message = .ok (.ok paths)) :
    Ordered { s with toServer := toServer, sending := replyTo paths,
                     handled := s.handled++[⟨message, paths⟩] } := by
  constructor
  · show s.exchanges.map Exchange.message =
      (s.handled++[Answer.mk message paths]).map Answer.message++toServer
    rw [hi.requests, hnext, List.map_append, List.append_assoc]
    rfl
  · intro a ha
    rcases List.mem_append.mp ha with ha | ha
    · exact hi.selections a ha
    · rw [List.mem_singleton.mp ha]
      exact ⟨alloc, fs, fuel, hselect⟩
  · exact hi.unanswered
  · show answers s.past ≤ (s.handled++[Answer.mk message paths]).length
    have hread := hi.read
    rw [List.length_append]
    omega
  · have hpending := hi.pending
    rw [hidle, List.append_nil] at hpending
    show Pending ((s.handled++[Answer.mk message paths]).drop (answers s.past))
      (s.toClient++replyTo paths)
    rw [List.drop_append_of_le_length hi.read]
    exact pending_append hpending ⟨message, paths⟩
  · intro k e hk n r hmem
    exact from_answer_append (hi.past k e hk n r hmem) _
  · intro e he n r hmem
    exact from_answer_append (hi.current e he n r hmem) _

theorem ordered_send (hi : Ordered s) {d : Bytes} {ds : List Bytes} (h : s.sending = d::ds) :
    Ordered { s with sending := ds, toClient := s.toClient++[d] } := by
  have hpending := hi.pending
  rw [h, List.append_cons] at hpending
  exact ⟨hi.requests, hi.selections, hi.unanswered, hi.read, hpending, hi.past, hi.current⟩

/-- A path is printed for the current request. -/
theorem ordered_path (hi : Ordered s) {e : Exchange} (he : s.current = some e) {ds : List Bytes}
    (count n : ℤ) (r : Bytes) (hfrom : FromAnswer s.handled (answers s.past) r)
    (hpending : Pending (s.handled.drop (answers s.past)) (ds++s.sending)) :
    Ordered { s with toClient := ds, current := some ⟨e.message, e.lines++[.file n r]⟩,
                     fileCount := count } := by
  constructor
  · have hrequests := hi.requests
    rw [Session.exchanges, he, List.map_append] at hrequests
    rw [Session.exchanges, List.map_append]
    exact hrequests
  · exact hi.selections
  · rintro _ ⟨⟩
    have hopen := hi.unanswered e he
    rw [Exchange.answered] at hopen ⊢
    rw [List.any_append, hopen]
    rfl
  · exact hi.read
  · exact hpending
  · exact hi.past
  · rintro _ ⟨⟩ m q hmem
    rcases List.mem_append.mp hmem with hmem | hmem
    · exact hi.current e he m q hmem
    · cases List.mem_singleton.mp hmem
      exact hfrom

/-- The receive loop of the current request ends. -/
theorem ordered_ended (hi : Ordered s) {e f : Exchange} (he : s.current = some e)
    {ds : List Bytes} (l : Line) (hl : ∀ n r, l ≠ .file n r)
    (hf : f = ⟨e.message, e.lines++[l]⟩)
    (hread : answers s.past+(if l.isTotal then 1 else 0) ≤ s.handled.length)
    (hpending : Pending (s.handled.drop (answers s.past+if l.isTotal then 1 else 0))
      (ds++s.sending)) :
    Ordered { s with toClient := ds, past := s.past++[f], current := none } := by
  have hanswered : f.answered = l.isTotal := by
    have hopen := hi.unanswered e he
    rw [Exchange.answered] at hopen
    rw [hf, Exchange.answered, List.any_append, hopen]
    simp
  have hanswers : answers (s.past++[f]) = answers s.past+if l.isTotal then 1 else 0 := by
    rw [answers_append, hanswered]
  constructor
  · have hrequests := hi.requests
    rw [Session.exchanges, he, List.map_append] at hrequests
    show ((s.past++[f])++[]).map Exchange.message = _
    rw [List.append_nil, List.map_append, hf]
    exact hrequests
  · exact hi.selections
  · rintro _ ⟨⟩
  · exact hanswers.trans_le hread
  · show Pending (s.handled.drop (answers (s.past++[f]))) (ds++s.sending)
    rw [hanswers]
    exact hpending
  · apply printed_append hi.past
    rw [hf]
    intro m q hmem
    rcases List.mem_append.mp hmem with hmem | hmem
    · exact hi.current e he m q hmem
    · exact absurd (List.mem_singleton.mp hmem).symm (hl m q)
  · rintro _ ⟨⟩

theorem ordered_stopped (hi : Ordered s) {e : Exchange} (he : s.current = some e) (r : Received)
    (l : Line) (hl : ∀ n r, l ≠ .file n r) (htotal : l.isTotal = false)
    (hr : receiveOne s.fileCount r = (l, s.fileCount, false)) :
    Ordered (handleReceived r e s) := by
  unfold handleReceived
  rw [hr]
  apply ordered_ended hi he l hl rfl
  · rw [htotal]
    exact hi.read
  · rw [htotal]
    exact hi.pending

theorem ordered_receive (hi : Ordered s) {e : Exchange} (he : s.current = some e) {d : Bytes}
    {ds : List Bytes} (hd : s.toClient = d::ds) :
    Ordered (handleReceived (.datagram d) e { s with toClient := ds }) := by
  have hpending := hi.pending
  rw [hd] at hpending
  obtain ⟨a, as, hdrop, hnext⟩ := pending_next hpending
  have ha : s.handled[answers s.past]? = some a := by
    rw [← List.head?_drop, hdrop]
    rfl
  rcases hnext with ⟨rfl, hnext⟩ | ⟨p, hp, rfl, hnext⟩
  · have hread := (List.getElem?_eq_some_iff.mp ha).1
    unfold handleReceived
    rw [receive_end]
    apply ordered_ended hi he (.total s.fileCount) (by simp) rfl
    · exact hread
    · show Pending (s.handled.drop (answers s.past+1)) (ds++s.sending)
      rw [← List.drop_drop, hdrop]
      exact hnext
  · unfold handleReceived
    rw [receive_path]
    exact ordered_path hi he _ _ _ ⟨a, ha, p, hp, rfl⟩ hnext

end Steps

theorem step_ordered (a : Action) (s t : Session) (hi : Ordered s) (h : step a s = some t) :
    Ordered t := by
  cases a with
  | input line =>
    rw [step] at h
    split at h
    · rename_i hprompt
      cases h
      exact ordered_input hi line hprompt.2
    · cases h
  | serve alloc fs fuel =>
    rw [step] at h
    split at h
    · rename_i message toServer hidle hnext
      split at h
      · rename_i paths hselect
        cases h
        exact ordered_serve hi alloc fs fuel hidle hnext hselect
      · cases h
    · cases h
  | send =>
    rw [step] at h
    split at h
    · cases h
    · rename_i d ds hsending
      cases h
      exact ordered_send hi hsending
  | receive =>
    rw [step] at h
    split at h
    · rename_i e d ds he hd
      cases h
      exact ordered_receive hi he hd
    · cases h
  | timeout =>
    obtain ⟨e, he, rfl⟩ := Option.map_eq_some_iff.mp h
    exact ordered_stopped hi he .timeout .timeout (by simp) rfl rfl
  | failure =>
    obtain ⟨e, he, rfl⟩ := Option.map_eq_some_iff.mp h
    exact ordered_stopped hi he .failure .failure (by simp) rfl rfl

theorem reachable_ordered {s : Session} (h : Runs.Reachable step started s) : Ordered s :=
  Runs.reachable_invariant step Ordered ordered_started step_ordered h

theorem printed_from {s : Session} (hi : Ordered s) {k : ℕ} {e : Exchange}
    (hk : s.exchanges[k]? = some e) : PrintedFrom s.handled (s.exchanges.take k) e := by
  unfold Session.exchanges at hk ⊢
  cases hcurrent : s.current with (rw [hcurrent] at hk)
  | none =>
    rw [Option.toList_none, List.append_nil] at hk ⊢
    exact hi.past k e hk
  | some f =>
    rw [Option.toList_some] at hk ⊢
    exact printed_append hi.past (hi.current f hcurrent) k e hk

/-- What is printed for a request are paths that the server selected for the
request made as many places earlier as replies were abandoned before it. -/
theorem printed_for_abandoned (s : Session) (h : Runs.Reachable step started s) (k : ℕ)
    (e : Exchange) (hk : s.exchanges[k]? = some e) (n : ℤ) (r : Bytes)
    (hr : .file n r ∈ e.lines) :
    ∃ request paths, s.exchanges[k-abandoned (s.exchanges.take k)]? = some request ∧
      s.handled[k-abandoned (s.exchanges.take k)]? = some ⟨request.message, paths⟩ ∧
      (∃ alloc fs fuel, select alloc fs fuel request.message = .ok (.ok paths)) ∧
      ∃ p ∈ paths, r = cstr (response p) := by
  have hi := reachable_ordered h
  obtain ⟨a, ha, p, hp, hshown⟩ := printed_from hi hk n r hr
  have hlen := (List.getElem?_eq_some_iff.mp hk).1
  have hplace : answers (s.exchanges.take k) = k-abandoned (s.exchanges.take k) := by
    have hsum := answers_add_abandoned (s.exchanges.take k)
    rw [List.length_take] at hsum
    omega
  rw [← hplace]
  have hmessage : (s.exchanges.map Exchange.message)[answers (s.exchanges.take k)]? =
      some a.message := by
    rw [hi.requests, List.getElem?_append_left, List.getElem?_map, ha]
    · rfl
    · rw [List.length_map]
      exact (List.getElem?_eq_some_iff.mp ha).1
  rw [List.getElem?_map] at hmessage
  obtain ⟨request, hrequest, heq⟩ := Option.map_eq_some_iff.mp hmessage
  refine ⟨request, a.filePaths, hrequest, ?_, ?_, p, hp, hshown⟩
  · rw [heq]
    exact ha
  · rw [heq]
    exact hi.selections a (List.mem_of_getElem? ha)

/-- The client stops waiting while the server still visits the tree for its
first request, and asks again. -/
def impatient : List Action :=
  [.input (text "25\n"), .timeout, .input (text "40\n"), .serve generous storedHost.fileSystem 2,
    .send, .receive, .send, .receive, .serve generous storedHost.fileSystem 2]

def impatientSession : Session where
  past := [⟨text "25", [.timeout]⟩,
    ⟨text "40", [.file 1 (text "Path: /mnt/cartella_test/log"), .total 1]⟩]
  current := none
  fileCount := 1
  finished := false
  toServer := []
  handled := [⟨text "25", [text "/mnt/cartella_test/log"]⟩, ⟨text "40", []⟩]
  sending := [text "end"]
  toClient := []

theorem impatient_run : Runs.exec step impatient started = some impatientSession := by
  decide +kernel

theorem second_shows_first : ∃ paths, impatientSession.handled[0]? = some ⟨text "25", paths⟩ ∧
    ∃ p ∈ paths, text "Path: /mnt/cartella_test/log" = cstr (response p) := by
  obtain ⟨request, paths, hrequest, hhandled, -, hpaths⟩ := printed_for_abandoned impatientSession
    ⟨impatient, impatient_run⟩ 1
    ⟨text "40", [.file 1 (text "Path: /mnt/cartella_test/log"), .total 1]⟩ rfl 1 (text "Path: /mnt/cartella_test/log") List.mem_cons_self
  have hplace : 1-abandoned (impatientSession.exchanges.take 1) = 0 := by decide
  rw [hplace] at hrequest hhandled
  have hmessage : request.message = text "25" := by
    cases hrequest
    rfl
  rw [hmessage] at hhandled
  exact ⟨paths, hhandled, hpaths⟩

/-- The path printed for the second request was sent for the first one; the
server selected nothing for the second. -/
theorem late_reply_printed : ¬ ∀ s, Runs.Reachable step started s →
    ∀ (k : ℕ) (e : Exchange) (a : Answer), s.exchanges[k]? = some e → s.handled[k]? = some a →
      ∀ n r, .file n r ∈ e.lines → ∃ p ∈ a.filePaths, r = cstr (response p) := by
  intro h
  obtain ⟨p, hp, -⟩ := h impatientSession ⟨impatient, impatient_run⟩ 1
    ⟨text "40", [.file 1 (text "Path: /mnt/cartella_test/log"), .total 1]⟩ ⟨text "40", []⟩ rfl rfl
    1 _ List.mem_cons_self
  cases hp

end ProgSistema.FileQuery
