import ProgSistema.ValueStream.Sender
import ProgSistema.ValueStream.Server

/-!
# The client and the server over their connection

Each send puts a line into the stream, and a receive takes in what has come, up
to the size of the buffer. The variables of the two programs agree again where
each line has been received alone and nothing is left to send.
-/

set_option autoImplicit false

namespace ProgSistema.ValueStream.Connection
open CRuntime LineChunks Runs

/-- The two programs with the bytes sent and not yet received. The results of the
receives only record. -/
structure Link where
  client : Sender.Client
  server : Server
  channel : Bytes
  chunks : List Bytes

inductive Event where
  | client (e : Sender.Event)
  | recv (bytesRead : ℕ)
  deriving DecidableEq, Repr

def output (e : Sender.Event) (c : Sender.Client) : List ℤ :=
  match e, c.sender with
  | .sender, .sending valueToSend => [valueToSend]
  | _, _ => []

def takeIn (bytesRead : ℕ) (s : Link) : Link :=
  { s with
    server := received s.server (s.channel.take bytesRead),
    channel := s.channel.drop bytesRead,
    chunks := s.chunks++[s.channel.take bytesRead] }

def step (e : Event) (s : Link) : Option Link :=
  match e with
  | .client e => (Sender.step e s.client).map fun client =>
      { s with client, channel := s.channel++stream (output e s.client) }
  | .recv bytesRead =>
    if 0 < bytesRead ∧ bytesRead ≤ s.channel.length ∧ bytesRead ≤ bufferSize-1 then
      some (takeIn bytesRead s)
    else none

def started : Link where
  client := Sender.started
  server := ValueStream.started
  channel := []
  chunks := []

theorem stream_append (us vs : List ℤ) : stream (us++vs) = stream us++stream vs :=
  lines_append us vs

/-! What the client draws and sends. -/

theorem sent_output {e : Sender.Event} {c c' : Sender.Client} (h : Sender.step e c = some c') :
    c'.sent = c.sent++output e c := by
  cases e with
  | modify m rand =>
    simp only [Sender.step, Sender.modificatore] at h
    split at h <;> cases h <;> exact (List.append_nil _).symm
  | sender =>
    simp only [Sender.step, Sender.threadTcpSender] at h
    unfold output
    cases hpc : c.sender with
    | lock =>
      rw [hpc] at h
      dsimp only at h
      split at h <;> cases h <;> exact (List.append_nil _).symm
    | sending valueToSend =>
      rw [hpc] at h
      cases h
      rfl
    | loopTest | recording | asleep =>
      rw [hpc] at h
      cases h
      exact (List.append_nil _).symm
    | ended =>
      rw [hpc] at h
      cases h
  | serverCloses =>
    cases h
    exact (List.append_nil _).symm

theorem modificatore_draws {m : Sender.Modificatore} {rand : ℕ} {c c' : Sender.Client}
    (h : Sender.modificatore m rand c = some c') :
    ∃ pc, c'.modificatori = Function.update c.modificatori m pc ∧
      ∀ newValue, pc = .update newValue → newValue = rand % 1000+1 := by
  unfold Sender.modificatore at h
  cases hpc : c.modificatori m with
  | loopTest =>
    rw [hpc] at h
    refine ⟨_, (congrArg Sender.Client.modificatori (Option.some.inj h)).symm, ?_⟩
    intro newValue hvalue
    split at hvalue
    · exact (Sender.ModificatorePc.update.inj hvalue).symm
    · cases hvalue
  | update | asleep =>
    rw [hpc] at h
    exact ⟨_, (congrArg Sender.Client.modificatori (Option.some.inj h)).symm, nofun⟩
  | ended =>
    rw [hpc] at h
    cases h

theorem sender_draws_nothing {c c' : Sender.Client} (h : Sender.threadTcpSender c = some c') :
    c'.modificatori = c.modificatori := by
  unfold Sender.threadTcpSender at h
  cases hpc : c.sender with
  | lock =>
    rw [hpc] at h
    dsimp only at h
    split at h <;> cases h <;> rfl
  | ended =>
    rw [hpc] at h
    cases h
  | loopTest | sending | recording | asleep =>
    rw [hpc] at h
    cases h
    rfl

/-- A value that is about to be assigned has been drawn. -/
theorem update_drawn {e : Sender.Event} {c c' : Sender.Client} (h : Sender.step e c = some c')
    {m : Sender.Modificatore} {newValue : ℤ} (hpc : c'.modificatori m = .update newValue) :
    c.modificatori m = .update newValue ∨ ∃ rand : ℕ, newValue = rand % 1000+1 := by
  cases e with
  | modify m' rand =>
    obtain ⟨pc, hmoves, hdraws⟩ := modificatore_draws h
    rw [hmoves] at hpc
    by_cases hm : m = m'
    · rw [hm, Function.update_self] at hpc
      exact Or.inr ⟨rand, hdraws newValue hpc⟩
    · rw [Function.update_of_ne hm] at hpc
      exact Or.inl hpc
  | sender =>
    rw [sender_draws_nothing h] at hpc
    exact Or.inl hpc
  | serverCloses =>
    cases h
    exact Or.inl hpc

structure Drawn (c : Sender.Client) : Prop where
  updates : ∀ m newValue, c.modificatori m = .update newValue → 1 ≤ newValue ∧ newValue ≤ 1000
  assigned : ∀ value ∈ c.assigned, 1 ≤ value ∧ value ≤ 1000

theorem drawn_step (e : Sender.Event) (c c' : Sender.Client) (hc : Drawn c)
    (h : Sender.step e c = some c') : Drawn c' := by
  constructor
  · intro m newValue hpc
    rcases update_drawn h hpc with hold | ⟨rand, rfl⟩
    · exact hc.updates m newValue hold
    · omega
  · rcases Sender.step_cases h with ⟨m, newValue, hpc, -, -, hassigned, -⟩ |
      ⟨-, -, -, -, hassigned, -⟩ | ⟨-, -, hassigned, -⟩
    · rw [hassigned]
      intro value hvalue
      rcases List.mem_append.mp hvalue with hold | hnew
      · exact hc.assigned value hold
      · rw [List.mem_singleton.mp hnew]
        exact hc.updates m newValue hpc
    · rw [hassigned]
      exact hc.assigned
    · rw [hassigned]
      exact hc.assigned

theorem client_drawn {c : Sender.Client} (h : Reachable Sender.step Sender.started c) : Drawn c :=
  reachable_invariant Sender.step Drawn
    ⟨fun _ _ hpc => (by cases hpc), fun _ hvalue => (by cases hvalue)⟩ drawn_step h

theorem sent_sublist {c : Sender.Client} (hi : Sender.Inv c) : c.sent.Sublist c.assigned := by
  have hflow : c.sent.Sublist c.flow := List.sublist_append_left _ _
  refine (hflow.trans hi.order).trans ?_
  split
  · exact List.dropLast_sublist _
  · exact List.Sublist.refl _

theorem sent_chain {c : Sender.Client} (hi : Sender.Inv c) : c.sent.IsChain (· ≠ ·) :=
  hi.chain.prefix (List.prefix_append _ _)

def UpToDate (c : Sender.Client) : Prop :=
  c.assigned ≠ [] ∧ c.Settled ∧ ¬ (c.aChanged = true ∧ c.a ≠ c.lastASend)

theorem sent_up_to_date {c : Sender.Client} (hi : Sender.Inv c) (h : UpToDate c) :
    c.sent.getLast? = some c.a := by
  obtain ⟨hne, hsettled, hno⟩ := h
  obtain ⟨hflow, hlast⟩ := Sender.flow_of_settled hsettled
  have ha : c.lastASend = c.a := by
    cases hflag : c.aChanged with
    | false => exact hlast.symm.trans (hi.settled hflag hne)
    | true => exact (not_not.mp fun hother => hno ⟨hflag, hother⟩).symm
  rw [← hflow, ← ha, ← hlast]
  refine hi.recorded.resolve_left fun hnothing => ?_
  have hminus := hnothing.2
  have hpos := hi.values c.a (List.mem_of_getLast? (hi.current hne))
  omega

/-! What holds between the steps of the two programs. -/

structure Inv (s : Link) : Prop where
  client : Reachable Sender.step Sender.started s.client
  server : s.server = serve s.chunks
  stream : s.chunks.flatten++s.channel = stream s.client.sent
  nonempty : [] ∉ s.chunks
  fit : ∀ buffer ∈ s.chunks, buffer.length ≤ bufferSize-1

theorem started_inv : Inv started where
  client := ⟨[], rfl⟩
  server := rfl
  stream := rfl
  nonempty := List.not_mem_nil
  fit _ hbuffer := absurd hbuffer List.not_mem_nil

theorem client_inv {s : Link} (hi : Inv s) {e : Sender.Event} {client : Sender.Client}
    (h : Sender.step e s.client = some client) :
    Inv { s with client, channel := s.channel++stream (output e s.client) } where
  client := by
    obtain ⟨es, hes⟩ := hi.client
    refine ⟨es++[e], ?_⟩
    rw [exec_append, hes]
    exact congrArg (Option.bind · some) h
  server := hi.server
  stream := by
    show s.chunks.flatten++(s.channel++stream (output e s.client)) = stream client.sent
    rw [sent_output h, stream_append, ← List.append_assoc, hi.stream]
  nonempty := hi.nonempty
  fit := hi.fit

theorem take_in_inv {s : Link} (hi : Inv s) {bytesRead : ℕ} (hpos : 0 < bytesRead)
    (hthere : bytesRead ≤ s.channel.length) (hfit : bytesRead ≤ bufferSize-1) :
    Inv (takeIn bytesRead s) where
  client := hi.client
  server := by
    show received s.server _ = serve (s.chunks++[_])
    rw [hi.server, serve, serve, List.foldl_append]
    rfl
  stream := by
    show (s.chunks++[s.channel.take bytesRead]).flatten++s.channel.drop bytesRead = _
    rw [List.flatten_append, List.flatten_singleton, List.append_assoc, List.take_append_drop]
    exact hi.stream
  nonempty hmem := by
    rcases List.mem_append.mp hmem with hold | hnew
    · exact hi.nonempty hold
    · have hlen := congrArg List.length (List.mem_singleton.mp hnew)
      rw [List.length_take, List.length_nil] at hlen
      omega
  fit buffer hmem := by
    rcases List.mem_append.mp hmem with hold | hnew
    · exact hi.fit buffer hold
    · rw [List.mem_singleton.mp hnew, List.length_take]
      omega

theorem step_inv (e : Event) (s t : Link) (hi : Inv s) (h : step e s = some t) : Inv t := by
  cases e with
  | client e =>
    obtain ⟨client, hclient, rfl⟩ := Option.map_eq_some_iff.mp h
    exact client_inv hi hclient
  | recv bytesRead =>
    rw [step, Option.ite_none_right_eq_some, Option.some.injEq] at h
    obtain ⟨⟨hpos, hthere, hfit⟩, rfl⟩ := h
    exact take_in_inv hi hpos hthere hfit

theorem reachable_inv {s : Link} (h : Reachable step started s) : Inv s :=
  reachable_invariant step Inv started_inv step_inv h

theorem sent_is_int {s : Link} (hi : Inv s) : ∀ value ∈ s.client.sent, IsInt value := by
  intro value hvalue
  have hclient := Sender.reachable_inv hi.client
  have hdrawn := (client_drawn hi.client).assigned value ((sent_sublist hclient).subset hvalue)
  unfold IsInt
  norm_num
  omega

/-- The server has the values of some whole lines exactly if it has received
each of them alone. -/
theorem assigned_iff_whole {s : Link} (hi : Inv s) {got rest : List ℤ}
    (hsent : s.client.sent = got++rest) (hchannel : s.channel = stream rest) :
    s.server.assigned = got ↔ WholeLines 10 printInt got s.chunks := by
  have hreceives : Receives got s.chunks := by
    refine ⟨hi.nonempty, hi.fit, ?_⟩
    have hstream := hi.stream
    rw [hsent, hchannel, stream_append] at hstream
    exact List.append_cancel_right hstream
  have hgot : ∀ value ∈ got, safeStringToInt (printInt value) = some value := by
    intro value hvalue
    refine convert_printed (sent_is_int hi value ?_)
    rw [hsent]
    exact List.mem_append_left rest hvalue
  rw [hi.server, serve, serve_assigned,
    List.filterMap_congr fun buffer hbuffer => message_of_stream hreceives hbuffer]
  exact read_iff_whole printed_readable hgot hreceives.nonempty hreceives.stream

def Agree (s : Link) : Prop :=
  s.server.a = s.client.a ∧ s.server.environmentA = some (printInt s.client.a)

theorem agree_of_assigned {s : Link} (hi : Inv s) (hassigned : s.server.assigned = s.client.sent)
    (hupToDate : UpToDate s.client) : Agree s := by
  have hlast := sent_up_to_date (Sender.reachable_inv hi.client) hupToDate
  have hcurrent := serve_current s.chunks
  rw [← hi.server] at hcurrent
  obtain ⟨ha, henvironment⟩ := hcurrent
  constructor
  · rw [ha, hassigned, List.getLastD_eq_getLast?, hlast]
    rfl
  · rw [henvironment, hassigned, hlast]
    rfl

/-- At every moment when whole lines are left in the channel, the server has
assigned the values of the other ones exactly if each was received alone. Then
its values are values of the client in their order, never one twice in a row,
and the two variables are the same once the client has nothing left to send. -/
theorem variables_agree {s : Link} (h : Reachable step started s) (got rest : List ℤ)
    (hsent : s.client.sent = got++rest) (hchannel : s.channel = stream rest) :
    (s.server.assigned = got ↔ WholeLines 10 printInt got s.chunks) ∧
    (WholeLines 10 printInt got s.chunks →
      s.server.assigned.Sublist s.client.assigned ∧ s.server.assigned.IsChain (· ≠ ·) ∧
      (rest = [] → UpToDate s.client → Agree s)) := by
  have hi := reachable_inv h
  have hiff := assigned_iff_whole hi hsent hchannel
  refine ⟨hiff, fun hwhole => ?_⟩
  have hassigned := hiff.mpr hwhole
  have hprefix : s.server.assigned <+: s.client.sent := ⟨rest, by rw [hassigned, hsent]⟩
  have hclient := Sender.reachable_inv hi.client
  have hsublist := hprefix.sublist
  have hchain := sent_chain hclient
  have hstretch := hchain.prefix hprefix
  refine ⟨hsublist.trans (sent_sublist hclient), hstretch, ?_⟩
  intro hnothing hupToDate
  refine agree_of_assigned hi ?_ hupToDate
  rw [hassigned, hsent, hnothing, List.append_nil]

def twoValues : List Event :=
  [.client (.modify .thread1 4), .client (.modify .thread1 0), .client .sender, .client .sender,
    .client (.modify .thread2 11), .client (.modify .thread2 0), .client .sender, .client .sender,
    .recv 2, .client .sender, .client .sender, .client .sender, .client .sender, .client .sender,
    .recv 3]

theorem two_values_run : (exec step twoValues started).isSome = true := by decide +kernel

theorem two_values_agree : Agree ((exec step twoValues started).get two_values_run) := by
  have hwhole : WholeLines 10 printInt [5, 12]
      ((exec step twoValues started).get two_values_run).chunks := by
    have hchunks : ((exec step twoValues started).get two_values_run).chunks =
        [printInt 5++[10], printInt 12++[10]] := by decide +kernel
    rw [hchunks]
    exact .line 5 (.line 12 .nil)
  have hagree := (variables_agree (reachable_get two_values_run) [5, 12] [] (by decide +kernel)
    (by decide +kernel)).2 hwhole
  refine hagree.2.2 rfl ⟨by decide +kernel, ?_, by decide +kernel⟩
  have hsender : ((exec step twoValues started).get two_values_run).client.sender = .asleep := by
    decide +kernel
  intro valueToSend
  rw [hsender]
  exact ⟨nofun, nofun⟩

/-! From aligned lines the two programs can always come to the same value. -/

def Alive (c : Sender.Client) : Prop := c.clientRunning = true → c.sender ≠ .ended

theorem alive_step (e : Sender.Event) (c c' : Sender.Client) (hc : Alive c)
    (h : Sender.step e c = some c') : Alive c' := by
  cases e with
  | modify m rand =>
    simp only [Sender.step, Sender.modificatore] at h
    cases hpc : c.modificatori m with
    | ended =>
      rw [hpc] at h
      cases h
    | loopTest | update | asleep =>
      rw [hpc] at h
      cases h
      exact hc
  | sender =>
    simp only [Sender.step, Sender.threadTcpSender] at h
    cases hpc : c.sender with
    | loopTest =>
      rw [hpc] at h
      cases h
      intro hrunning
      dsimp only at hrunning ⊢
      rw [hrunning]
      intro hended
      cases hended
    | lock =>
      rw [hpc] at h
      dsimp only at h
      split at h <;> cases h <;> intro _ hended <;> cases hended
    | sending | recording | asleep =>
      rw [hpc] at h
      cases h
      intro _ hended
      cases hended
    | ended =>
      rw [hpc] at h
      cases h
  | serverCloses =>
    cases h
    intro hrunning
    cases hrunning

def Catches (c : Sender.Client) : Prop := ∃ es c', exec Sender.step es c = some c' ∧
  c'.a = c.a ∧ c'.assigned = c.assigned ∧ (c.assigned ≠ [] → UpToDate c')

theorem catches_asleep {c : Sender.Client} (hsender : c.sender = .asleep)
    (hno : ¬ (c.aChanged = true ∧ c.a ≠ c.lastASend)) : Catches c := by
  refine ⟨[], c, rfl, rfl, rfl, fun hne => ⟨hne, fun valueToSend => ?_, hno⟩⟩
  rw [hsender]
  exact ⟨nofun, nofun⟩

theorem catches_step {c d : Sender.Client} (h : Sender.threadTcpSender c = some d)
    (ha : d.a = c.a) (hassigned : d.assigned = c.assigned) (hd : Catches d) : Catches c := by
  obtain ⟨es, c', hes, ha', hassigned', hup⟩ := hd
  refine ⟨.sender::es, c', ?_, ha'.trans ha, hassigned'.trans hassigned, ?_⟩
  · have hstep : Sender.step .sender c = some d := h
    rw [exec, hstep]
    exact hes
  · rw [← hassigned]
    exact hup

/-- The sender unlocks without a value or sends the one it has found. -/
theorem catches_lock {c : Sender.Client} (hsender : c.sender = .lock) : Catches c := by
  by_cases hsend : c.aChanged = true ∧ c.a ≠ c.lastASend
  · have hlock : Sender.threadTcpSender c =
        some { c with sender := .sending c.a, aChanged := false } := by
      rw [Sender.threadTcpSender, hsender]
      exact if_pos hsend
    refine catches_step hlock rfl rfl ?_
    refine catches_step (c := { c with sender := .sending c.a, aChanged := false }) rfl rfl rfl ?_
    refine catches_step rfl rfl rfl ?_
    exact catches_asleep rfl fun hagain => by cases hagain.1
  · have hlock : Sender.threadTcpSender c = some { c with sender := .asleep } := by
      rw [Sender.threadTcpSender, hsender]
      exact if_neg hsend
    exact catches_step hlock rfl rfl (catches_asleep rfl hsend)

theorem client_catches {c : Sender.Client} (hrunning : c.clientRunning = true) (hc : Alive c) :
    Catches c := by
  have htest : ∀ d : Sender.Client, d.clientRunning = true → d.sender = .loopTest → Catches d := by
    intro d hrunning hsender
    have hgoes : Sender.threadTcpSender d = some { d with sender := .lock } := by
      rw [Sender.threadTcpSender, hsender]
      dsimp only
      rw [if_pos hrunning]
    exact catches_step hgoes rfl rfl (catches_lock rfl)
  have hasleep : ∀ d : Sender.Client, d.clientRunning = true → d.sender = .asleep → Catches d := by
    intro d hrunning hsender
    have hwakes : Sender.threadTcpSender d = some { d with sender := .loopTest } := by
      rw [Sender.threadTcpSender, hsender]
    exact catches_step hwakes rfl rfl (htest _ hrunning rfl)
  have hrecording : ∀ (d : Sender.Client) valueToSend, d.clientRunning = true →
      d.sender = .recording valueToSend → Catches d := by
    intro d valueToSend hrunning hsender
    have hrecords : Sender.threadTcpSender d =
        some { d with sender := .asleep, lastASend := valueToSend } := by
      rw [Sender.threadTcpSender, hsender]
    exact catches_step hrecords rfl rfl (hasleep _ hrunning rfl)
  cases hsender : c.sender with
  | loopTest => exact htest c hrunning hsender
  | lock => exact catches_lock hsender
  | sending valueToSend =>
    have hsends : Sender.threadTcpSender c = some
        { c with sender := .recording valueToSend, sent := c.sent++[valueToSend] } := by
      rw [Sender.threadTcpSender, hsender]
    exact catches_step hsends rfl rfl (hrecording _ valueToSend hrunning rfl)
  | recording valueToSend => exact hrecording c valueToSend hrunning hsender
  | asleep => exact hasleep c hrunning hsender
  | ended => exact absurd hsender (hc hrunning)

/-- A run of the client by itself, with what it puts into the channel. -/
theorem client_run (es : List Sender.Event) {s : Link} {client : Sender.Client}
    (h : exec Sender.step es s.client = some client) :
    ∃ more, client.sent = s.client.sent++more ∧
      exec step (es.map .client) s =
        some { s with client, channel := s.channel++stream more } := by
  induction es generalizing s with
  | nil =>
    cases h
    refine ⟨[], (List.append_nil _).symm, ?_⟩
    rw [stream, List.flatMap_nil, List.append_nil]
    rfl
  | cons e es ih =>
    obtain ⟨c, hc, hes⟩ := Option.bind_eq_some_iff.mp h
    obtain ⟨more, hsent, hrun⟩ :=
      @ih { s with client := c, channel := s.channel++stream (output e s.client) } hes
    refine ⟨output e s.client++more, ?_, ?_⟩
    · rw [hsent, ← List.append_assoc, ← sent_output hc]
    · have hstep : step (.client e) s =
          some { s with client := c, channel := s.channel++stream (output e s.client) } :=
        congrArg (Option.map _) hc
      rw [List.map_cons, exec, hstep, Option.bind_some, hrun, stream_append, List.append_assoc]

theorem line_fits {value : ℤ} (h : 1 ≤ value ∧ value ≤ 1000) :
    (line 10 printInt value).length ≤ bufferSize-1 := by
  have hlen : (decimal value.natAbs).length ≤ 4 := decimal_length (by decide) (by omega)
  rw [line, List.length_append, List.length_singleton, printInt, if_neg (by omega), bufferSize]
  omega

/-- The server receives the lines in the channel one by one. -/
theorem lines_received (values : List ℤ) {s : Link}
    (hfit : ∀ value ∈ values, (line 10 printInt value).length ≤ bufferSize-1)
    (hchannel : s.channel = stream values) :
    ∃ es t, exec step es s = some t ∧ t.client = s.client ∧ t.channel = [] ∧
      t.chunks = s.chunks++values.map (line 10 printInt) := by
  induction values generalizing s with
  | nil => exact ⟨[], s, rfl, rfl, hchannel, (List.append_nil _).symm⟩
  | cons value values ih =>
    have hsplit : s.channel = line 10 printInt value++stream values := hchannel
    have hlength : (line 10 printInt value).length ≤ s.channel.length := by
      rw [hsplit, List.length_append]
      omega
    have hpos : 0 < (line 10 printInt value).length := by
      rw [line, List.length_append, List.length_singleton]
      omega
    have hstep : step (.recv (line 10 printInt value).length) s =
        some (takeIn (line 10 printInt value).length s) :=
      if_pos ⟨hpos, hlength, hfit value List.mem_cons_self⟩
    have hchannel' : (takeIn (line 10 printInt value).length s).channel = stream values := by
      show s.channel.drop _ = _
      rw [hsplit, List.drop_left]
    have hchunks : (takeIn (line 10 printInt value).length s).chunks =
        s.chunks++[line 10 printInt value] := by
      show s.chunks++[s.channel.take _] = _
      rw [hsplit, List.take_left]
    obtain ⟨es, t, hes, hclient, hempty, hall⟩ :=
      ih (fun v hv => hfit v (List.mem_cons_of_mem _ hv)) hchannel'
    refine ⟨.recv (line 10 printInt value).length::es, t, ?_, hclient, hempty, ?_⟩
    · rw [exec, hstep]
      exact hes
    · rw [hall, hchunks, List.append_assoc]
      rfl

/-- While the client runs and the server has received whole lines only, the two
programs can come to have the value that `A` has in the client now. -/
theorem variables_can_agree {s : Link} (h : Reachable step started s)
    (hrunning : s.client.clientRunning = true) (hne : s.client.assigned ≠ [])
    (got rest : List ℤ) (hsent : s.client.sent = got++rest) (hchannel : s.channel = stream rest)
    (hwhole : WholeLines 10 printInt got s.chunks) :
    ∃ es t, exec step es s = some t ∧ t.client.a = s.client.a ∧
      t.server.assigned = t.client.sent ∧ Agree t := by
  have hi := reachable_inv h
  have halive := reachable_invariant Sender.step Alive (fun _ hended => by cases hended)
    alive_step hi.client
  obtain ⟨es, client, hes, ha, -, hup⟩ := client_catches hrunning halive
  obtain ⟨more, hmore, hrun⟩ := client_run es hes
  have hi' := exec_preserves step Inv step_inv _ _ _ hi hrun
  have hall : client.sent = got++(rest++more) := by rw [hmore, hsent, List.append_assoc]
  have hfit : ∀ value ∈ rest++more, (line 10 printInt value).length ≤ bufferSize-1 := by
    intro value hvalue
    refine line_fits ((client_drawn hi'.client).assigned value ?_)
    refine (sent_sublist (Sender.reachable_inv hi'.client)).subset ?_
    rw [hall]
    exact List.mem_append_right got hvalue
  have hlines : s.channel++stream more = stream (rest++more) := by rw [hchannel, stream_append]
  obtain ⟨fs, t, hfs, hclient, hempty, hchunks⟩ := @lines_received (rest++more)
    { s with client, channel := s.channel++stream more } hfit hlines
  have hit := exec_preserves step Inv step_inv _ _ _ hi' hfs
  have hassigned : t.server.assigned = t.client.sent := by
    refine (assigned_iff_whole hit (List.append_nil _).symm hempty).mpr ?_
    rw [hclient, hall, hchunks]
    exact whole_lines_append hwhole (whole_lines_lines _)
  refine ⟨es.map .client++fs, t, ?_, ?_, hassigned, ?_⟩
  · rw [exec_append, hrun]
    exact hfs
  · rw [hclient]
    exact ha
  · refine agree_of_assigned hit hassigned ?_
    rw [hclient]
    exact hup hne

def unsentValue : List Event :=
  [.client (.modify .thread1 4), .client (.modify .thread1 0)]

theorem unsent_value_run : (exec step unsentValue started).isSome = true := by decide +kernel

theorem unsent_value_agrees : ∃ es t,
    exec step es ((exec step unsentValue started).get unsent_value_run) = some t ∧
      t.client.a = 5 ∧ t.server.assigned = t.client.sent ∧ Agree t := by
  have hchunks : ((exec step unsentValue started).get unsent_value_run).chunks = [] := by
    decide +kernel
  have ha : ((exec step unsentValue started).get unsent_value_run).client.a = 5 := by
    decide +kernel
  rw [← ha]
  exact variables_can_agree (reachable_get unsent_value_run) (by decide +kernel)
    (by decide +kernel) [] [] (by decide +kernel) (by decide +kernel) (by rw [hchunks]; exact .nil)

end ProgSistema.ValueStream.Connection
