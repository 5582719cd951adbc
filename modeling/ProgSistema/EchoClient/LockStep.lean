import ProgSistema.EchoClient.Greeting
import ProgSistema.Lib.Decimal

/-!
# Messages in step with values

Client and server wait for each other, but the greeting is in flight besides
their messages. The client reads it in place of its first echo, or together
with it; only in the second case do the later messages stay in step.
-/

set_option autoImplicit false

namespace ProgSistema.EchoClient
open CRuntime StreamSocket Runs

def LockStep (s : System) : Prop :=
  (∀ a, s.server.environmentA = some a → ∃ value ∈ s.client.sent, a = decimal value) ∧
  ∀ (k : ℕ) r, s.client.reads[k]? = some r →
    ∃ value, s.client.sent[k]? = some value ∧ r = response (decimal value)

/-! One message is under way. -/

theorem message_length {value : ℕ} (h : value < 10000) : (messaggio value).length ≤ 5 := by
  have hdigits := decimal_length (n := value) (k := 4) (by decide) h
  rw [messaggio, List.length_append, List.length_singleton]
  omega

theorem message_received (value : ℕ) : removeNewline (messaggio value) = decimal value := by
  rw [removeNewline, messaggio, List.getLast?_concat, if_pos rfl, List.dropLast_concat]
  exact cstr_of_no_nul _ (decimal_no_nul value)

theorem response_length {value : ℕ} (h : value < 10000) :
    (response (decimal value)).length ≤ 12 := by
  have hdigits := decimal_length (n := value) (k := 4) (by decide) h
  have htext : (text "Echo : ").length = 7 := rfl
  rw [response, snprintf, List.length_take, List.length_append, List.length_append, htext,
    List.length_singleton]
  omega

theorem greeting_length (porta : ℕ) : (wlcMsg porta).length ≤ 63 := by
  rw [wlcMsg, snprintf, List.length_take]
  omega

theorem greeting_head (porta : ℕ) : (wlcMsg porta).head? = some 67 := rfl

theorem response_head (buffer : Bytes) : (response buffer).head? = some 69 := rfl

def ServerPc.Idle : ServerPc → Prop
  | .updating _ | .replying _ => False
  | _ => True

def greetingLeft (porta : ℕ) (s : System) : List Bytes :=
  if s.client.reads = [] ∧ s.server.pc ≠ .accepting ∧ s.server.pc ≠ .greeting
    then [wlcMsg porta] else []

structure Asks (s : System) (value : ℕ) : Prop where
  waits : s.client.connection = .receiving
  sent : ∃ before, s.client.sent = before++[value] ∧ before.length = s.client.reads.length

inductive Phase (porta : ℕ) (s : System) : Prop
  | quiet (hconn : s.client.connection ≠ .receiving)
      (hsent : s.client.sent.length = s.client.reads.length) (hpc : s.server.pc.Idle)
      (hserver : s.toServer = []) (hclient : s.toClient = greetingLeft porta s)
  | asked (value : ℕ) (hasks : Asks s value) (hpc : s.server.pc.Idle)
      (hopen : s.server.pc ≠ .ended) (hserver : s.toServer = [messaggio value])
      (hclient : s.toClient = greetingLeft porta s)
  | taken (value : ℕ) (hasks : Asks s value) (hpc : s.server.pc = .updating (decimal value))
      (hserver : s.toServer = []) (hclient : s.toClient = greetingLeft porta s)
  | updated (value : ℕ) (hasks : Asks s value) (hpc : s.server.pc = .replying (decimal value))
      (hserver : s.toServer = []) (hclient : s.toClient = greetingLeft porta s)
  | answered (value : ℕ) (hasks : Asks s value) (hpc : s.server.pc = .receiving)
      (hserver : s.toServer = [])
      (hclient : s.toClient = greetingLeft porta s++[response (decimal value)])

structure Aligned (porta : ℕ) (s : System) : Prop where
  small : s.client.Small
  ended : s.server.pc = .ended → s.client.connection = .closed
  environment : ∀ a, s.server.environmentA = some a → ∃ value ∈ s.client.sent, a = decimal value
  reads : ∀ (k : ℕ) r, s.client.reads[k]? = some r → ∃ value, s.client.sent[k]? = some value ∧
    r = (if k = 0 then wlcMsg porta else [])++response (decimal value)
  phase : Phase porta s

def FirstTogether : System.Event → System → Prop
  | .clientReads n, s => s.client.reads = [] → 2 ≤ n
  | _, _ => True

section Aligned
variable {porta n : ℕ} {s t : System}

/-- A change that leaves the messages alone. -/
theorem Phase.keep {c : Client} (h : Phase porta s) (hreads : c.reads = s.client.reads)
    (hsent : c.sent = s.client.sent)
    (hconn : c.connection = .receiving ↔ s.client.connection = .receiving) :
    Phase porta { s with client := c } := by
  have hleft : greetingLeft porta { s with client := c } = greetingLeft porta s := by
    rw [greetingLeft, greetingLeft, hreads]
  have hasks : ∀ {value}, Asks s value → Asks { s with client := c } value := fun ha =>
    ⟨hconn.mpr ha.waits, by rw [hsent, hreads]; exact ha.sent⟩
  cases h with
  | quiet hout hlen hpc hserver hclient =>
    exact .quiet (mt hconn.mp hout) (by rw [hsent, hreads]; exact hlen) hpc hserver
      (by rw [hleft]; exact hclient)
  | asked v ha hpc hopen hserver hclient =>
    exact .asked v (hasks ha) hpc hopen hserver (by rw [hleft]; exact hclient)
  | taken v ha hpc hserver hclient =>
    exact .taken v (hasks ha) hpc hserver (by rw [hleft]; exact hclient)
  | updated v ha hpc hserver hclient =>
    exact .updated v (hasks ha) hpc hserver (by rw [hleft]; exact hclient)
  | answered v ha hpc hserver hclient =>
    exact .answered v (hasks ha) hpc hserver (by rw [hleft]; exact hclient)

theorem aligned_goes {c : Client} (h : Aligned porta s) (hc : s.client.Goes c) :
    Aligned porta { s with
      client := c,
      toServer := s.toServer++(c.sent.drop s.client.sent.length).map messaggio } := by
  obtain ⟨hsmall, hended, henv, hreads, hphase⟩ := h
  rcases hc.moves with ⟨value, hsending, hreceiving, hsent⟩ | ⟨hsent, hconn⟩
  · rw [hsent, List.drop_left]
    refine ⟨hc.small hsmall, fun hpc => hc.closed (hended hpc), ?_, ?_, ?_⟩
    · intro a ha
      obtain ⟨v, hv, rfl⟩ := henv a ha
      exact ⟨v, by rw [hsent]; exact List.mem_append_left _ hv, rfl⟩
    · intro k r hr
      dsimp only at hr
      rw [hc.reads] at hr
      obtain ⟨v, hv, hecho⟩ := hreads k r hr
      refine ⟨v, ?_, hecho⟩
      dsimp only
      rw [hsent, List.getElem?_append_left (List.getElem?_eq_some_iff.mp hv).1]
      exact hv
    · cases hphase with
      | quiet _ hlen hpc hserver hclient =>
        have hopen : s.server.pc ≠ .ended := fun hpc => by
          rw [hended hpc] at hsending
          cases hsending
        refine .asked value ⟨hreceiving, s.client.sent, hsent, ?_⟩ hpc hopen ?_ ?_
        · dsimp only
          rw [hc.reads]
          exact hlen
        · dsimp only
          rw [hserver]
          rfl
        · rw [greetingLeft, hc.reads]
          exact hclient
      | asked v hasks | taken v hasks | updated v hasks | answered v hasks =>
        rw [hasks.waits] at hsending
        cases hsending
  · rw [hsent, List.drop_length, List.map_nil, List.append_nil]
    refine ⟨hc.small hsmall, fun hpc => hc.closed (hended hpc), ?_, ?_,
      hphase.keep hc.reads hsent hconn⟩
    · rw [hsent]
      exact henv
    · rw [hsent, hc.reads]
      exact hreads

theorem greeting_left_of {s t : System} (hreads : t.client.reads = s.client.reads)
    (hpc : (t.server.pc = .accepting ∨ t.server.pc = .greeting) ↔
      (s.server.pc = .accepting ∨ s.server.pc = .greeting)) :
    greetingLeft porta t = greetingLeft porta s := by
  simp only [greetingLeft, hreads, ne_eq, ← not_or, hpc]

/-- The server has one message at a time, or none, to read. -/
theorem aligned_receives {bytes : Bytes} {rest : List Bytes} (h : Aligned porta s)
    (hpc : s.server.pc = .receiving) (hne : s.toServer ≠ []) (hn : n ≠ 0)
    (hrecv : recvChunks (bufferSize-1) n s.toServer = (bytes, rest)) :
    Aligned porta { s with server.pc := .updating (removeNewline bytes), toServer := rest } := by
  obtain ⟨hsmall, hended, henv, hreads, hphase⟩ := h
  cases hphase with
  | asked value hasks _ _ hserver hclient =>
    have hvalue : value < 10000 := by
      obtain ⟨before, hsent, -⟩ := hasks.sent
      exact hsmall.sent value (by rw [hsent]; simp)
    have hall : s.toServer.take n = [messaggio value] := by
      rw [hserver]
      exact List.take_of_length_le (Nat.one_le_iff_ne_zero.mpr hn)
    have hnone : s.toServer.drop n = [] := by
      rw [hserver]
      exact List.drop_eq_nil_of_le (Nat.one_le_iff_ne_zero.mpr hn)
    rw [recv_chunks_fits, hall, hnone, List.flatten_singleton] at hrecv
    · cases hrecv
      rw [message_received]
      have hleft : greetingLeft porta { s with
          server.pc := .updating (decimal value), toServer := [] } = greetingLeft porta s :=
        greeting_left_of rfl (by simp [hpc])
      exact ⟨hsmall, nofun, henv, hreads, .taken value ⟨hasks.waits, hasks.sent⟩ rfl rfl
        (by rw [hleft]; exact hclient)⟩
    · have hlen := message_length hvalue
      rw [hall, List.flatten_singleton]
      unfold bufferSize
      omega
  | quiet _ _ _ hserver | taken _ _ _ hserver | updated _ _ _ hserver | answered _ _ _ hserver =>
    exact absurd hserver hne

theorem aligned_accepts (h : Aligned porta s) (hpc : s.server.pc = .accepting) :
    Aligned porta { s with server.pc := .greeting } := by
  obtain ⟨hsmall, hended, henv, hreads, hphase⟩ := h
  refine ⟨hsmall, nofun, henv, hreads, ?_⟩
  have hleft : greetingLeft porta { s with server.pc := .greeting } = greetingLeft porta s :=
    greeting_left_of rfl (by simp [hpc])
  cases hphase with
  | quiet hconn hlen _ hserver hclient =>
    exact .quiet hconn hlen trivial hserver (by rw [hleft]; exact hclient)
  | asked v hasks _ _ hserver hclient =>
    exact .asked v ⟨hasks.waits, hasks.sent⟩ trivial nofun hserver (by rw [hleft]; exact hclient)
  | taken _ _ hno | updated _ _ hno | answered _ _ hno =>
    rw [hpc] at hno
    cases hno

/-- The greeting comes before all that the client reads. -/
theorem aligned_greets (hg : Greets porta s) (h : Aligned porta s)
    (hpc : s.server.pc = .greeting) : Aligned porta { s with
      server.pc := .receiving, toClient := s.toClient++[wlcMsg porta] } := by
  obtain ⟨hnoreads, hempty⟩ := hg.before (Or.inr hpc)
  obtain ⟨hsmall, hended, henv, hreads, hphase⟩ := h
  refine ⟨hsmall, nofun, henv, hreads, ?_⟩
  have hleft : s.toClient++[wlcMsg porta] = greetingLeft porta { s with
      server.pc := .receiving, toClient := s.toClient++[wlcMsg porta] } := by
    rw [greetingLeft, if_pos ⟨hnoreads, nofun, nofun⟩, hempty]
    rfl
  cases hphase with
  | quiet hconn hlen _ hserver _ => exact .quiet hconn hlen trivial hserver hleft
  | asked v hasks _ _ hserver _ =>
    exact .asked v ⟨hasks.waits, hasks.sent⟩ trivial nofun hserver hleft
  | taken _ _ hno | updated _ _ hno | answered _ _ hno =>
    rw [hpc] at hno
    cases hno

theorem aligned_ends (h : Aligned porta s) (hpc : s.server.pc = .receiving)
    (hclosed : s.client.connection = .closed) :
    Aligned porta { s with server.pc := .ended } := by
  obtain ⟨hsmall, hended, henv, hreads, hphase⟩ := h
  refine ⟨hsmall, fun _ => hclosed, henv, hreads, ?_⟩
  have hleft : greetingLeft porta { s with server.pc := .ended } = greetingLeft porta s :=
    greeting_left_of rfl (by simp [hpc])
  cases hphase with
  | quiet hconn hlen _ hserver hclient =>
    exact .quiet hconn hlen trivial hserver (by rw [hleft]; exact hclient)
  | asked _ hasks | taken _ hasks | updated _ hasks | answered _ hasks =>
    rw [hasks.waits] at hclosed
    cases hclosed

theorem aligned_updates {buffer : Bytes} (h : Aligned porta s)
    (hpc : s.server.pc = .updating buffer) : Aligned porta { s with
      server := { pc := .replying buffer, environmentA := some buffer } } := by
  obtain ⟨hsmall, hended, henv, hreads, hphase⟩ := h
  have hleft : greetingLeft porta { s with
      server := { pc := .replying buffer, environmentA := some buffer } } =
      greetingLeft porta s := greeting_left_of rfl (by simp [hpc])
  cases hphase with
  | taken v hasks hbuffer hserver hclient =>
    rw [hpc] at hbuffer
    cases hbuffer
    refine ⟨hsmall, nofun, ?_, hreads, .updated v ⟨hasks.waits, hasks.sent⟩ rfl hserver
      (by rw [hleft]; exact hclient)⟩
    intro a ha
    obtain ⟨before, hsent, -⟩ := hasks.sent
    exact ⟨v, by rw [hsent]; simp, (Option.some.inj ha).symm⟩
  | quiet _ _ hidle | asked _ _ hidle =>
    rw [hpc] at hidle
    exact hidle.elim
  | updated _ _ hno | answered _ _ hno =>
    rw [hpc] at hno
    cases hno

theorem aligned_replies {buffer : Bytes} (h : Aligned porta s)
    (hpc : s.server.pc = .replying buffer) : Aligned porta { s with
      server.pc := .receiving, toClient := s.toClient++[response buffer] } := by
  obtain ⟨hsmall, hended, henv, hreads, hphase⟩ := h
  have hleft : greetingLeft porta { s with
      server.pc := .receiving, toClient := s.toClient++[response buffer] } =
      greetingLeft porta s := greeting_left_of rfl (by simp [hpc])
  cases hphase with
  | updated v hasks hbuffer hserver hclient =>
    rw [hpc] at hbuffer
    cases hbuffer
    exact ⟨hsmall, nofun, henv, hreads, .answered v ⟨hasks.waits, hasks.sent⟩ rfl hserver
      (by rw [hleft, ← hclient])⟩
  | quiet _ _ hidle | asked _ _ hidle =>
    rw [hpc] at hidle
    exact hidle.elim
  | taken _ _ hno | answered _ _ hno =>
    rw [hpc] at hno
    cases hno

theorem aligned_server (hg : Greets porta s) (h : Aligned porta s)
    (hstep : serverStep porta n s = some t) : Aligned porta t := by
  cases server_step_cases hstep with
  | accepted hpc heq =>
    rw [heq]
    exact aligned_accepts h hpc
  | greeted hpc heq =>
    rw [heq]
    exact aligned_greets hg h hpc
  | closed hpc hclosed heq =>
    rw [heq]
    exact aligned_ends h hpc hclosed
  | received hpc hne hn bytes rest hrecv heq =>
    rw [heq]
    exact aligned_receives h hpc hne hn hrecv
  | updated buffer hpc heq =>
    rw [heq]
    exact aligned_updates h hpc
  | replied buffer hpc heq =>
    rw [heq]
    exact aligned_replies h hpc

/-- Where the sends in flight fit into the buffer and none is empty, a receive
takes the first of them as they are. -/
theorem client_reads_first (h : clientReads n s = some t) (hopen : s.server.pc ≠ .ended)
    (hlen : s.toClient.flatten.length < bufferSize) (hne : [] ∉ s.toClient) :
    0 < n ∧ n ≤ s.toClient.length ∧ t = { s with
      client := { s.client with
        connection := .loopTest, reads := s.client.reads++[(s.toClient.take n).flatten] },
      toClient := s.toClient.drop n } := by
  unfold clientReads at h
  by_cases hflight : s.toClient = []
  · rw [if_pos hflight, if_neg hopen] at h
    cases h
  · rw [if_neg hflight] at h
    split at h
    · cases h
    · rename_i hn
      obtain ⟨hpos, hle⟩ := not_or.mp hn
      have hfits : (s.toClient.take n).flatten.length ≤ bufferSize-1 := by
        have htake := congrArg (fun l => (List.flatten l).length) (List.take_append_drop n s.toClient)
        simp only [List.flatten_append, List.length_append] at htake
        omega
      rw [recv_chunks_fits hfits] at h
      obtain ⟨c, hc, rfl⟩ := Option.map_eq_some_iff.mp h
      obtain ⟨-, ⟨hnil, -⟩ | ⟨-, rfl⟩⟩ := recv_cases hc
      · exfalso
        obtain ⟨b, bs, hb⟩ := List.exists_cons_of_ne_nil hflight
        obtain ⟨m, rfl⟩ := Nat.exists_eq_succ_of_ne_zero hpos
        rw [hb, List.take_succ_cons, List.flatten_cons] at hnil
        apply hne
        rw [hb, (List.append_eq_nil_iff.mp hnil).1]
        exact List.mem_cons_self
      · exact ⟨Nat.pos_of_ne_zero hpos, not_lt.mp hle, rfl⟩

theorem greeting_left_cases (porta : ℕ) (s : System) : greetingLeft porta s = [] ∨
    s.client.reads = [] ∧ greetingLeft porta s = [wlcMsg porta] := by
  unfold greetingLeft
  split
  · rename_i hleft
    exact Or.inr ⟨hleft.1, rfl⟩
  · exact Or.inl rfl

/-- The client reads the greeting alone, or an echo, with the greeting before
the first one. -/
theorem aligned_flight (h : Aligned porta s) (hconn : s.client.connection = .receiving) :
    s.server.pc ≠ .ended ∧ (s.toClient = greetingLeft porta s ∨
      ∃ value < 10000, Asks s value ∧ s.server.pc = .receiving ∧ s.toServer = [] ∧
        s.toClient = greetingLeft porta s++[response (decimal value)]) := by
  have hopen : s.server.pc ≠ .ended := fun hpc => by
    rw [h.ended hpc] at hconn
    cases hconn
  refine ⟨hopen, ?_⟩
  cases h.phase with
  | quiet hout => exact absurd hconn hout
  | asked _ _ _ _ _ hclient => exact Or.inl hclient
  | taken _ _ _ _ hclient => exact Or.inl hclient
  | updated _ _ _ _ hclient => exact Or.inl hclient
  | answered value hasks hpc hserver hclient =>
    obtain ⟨before, hsent, -⟩ := hasks.sent
    exact Or.inr ⟨value, h.small.sent value (by rw [hsent]; simp), hasks, hpc, hserver, hclient⟩

theorem aligned_read {value : ℕ} (h : Aligned porta s) (hasks : Asks s value)
    (hpc : s.server.pc = .receiving) (hserver : s.toServer = []) :
    Aligned porta { s with
      client := { s.client with connection := .loopTest, reads := s.client.reads++
        [(if s.client.reads.length = 0 then wlcMsg porta else [])++response (decimal value)] },
      toClient := [] } := by
  obtain ⟨hsmall, hended, henv, hreads, -⟩ := h
  obtain ⟨before, hsent, hlen⟩ := hasks.sent
  refine ⟨⟨hsmall.a, nofun, hsmall.sent⟩, ?_, henv, ?_, ?_⟩
  · intro hno
    rw [hpc] at hno
    cases hno
  · intro k r hr
    dsimp only at hr ⊢
    rcases lt_trichotomy k s.client.reads.length with hlt | rfl | hgt
    · rw [List.getElem?_append_left hlt] at hr
      exact hreads k r hr
    · rw [List.getElem?_concat_length] at hr
      cases hr
      exact ⟨value, by rw [hsent, ← hlen, List.getElem?_concat_length], rfl⟩
    · rw [List.getElem?_eq_none (by simp; omega)] at hr
      cases hr
  · refine .quiet nofun ?_ ?_ hserver ?_
    · dsimp only
      rw [hsent, List.length_append, List.length_append, hlen]
      rfl
    · rw [hpc]
      trivial
    · unfold greetingLeft
      simp

theorem aligned_reads (h : Aligned porta s) (hstep : clientReads n s = some t) :
    t.client.reads ≠ [] ∧ ((s.client.reads = [] → 2 ≤ n) → Aligned porta t) := by
  obtain ⟨bytes, rest, -, -, hconn, -⟩ := client_reads_cases hstep
  obtain ⟨hopen, hflight⟩ := aligned_flight h hconn
  have hgreeting := greeting_length porta
  have hgreets : wlcMsg porta ≠ [] := fun hnil => by
    have hhead := greeting_head porta
    rw [hnil] at hhead
    cases hhead
  rcases hflight with hclient | ⟨value, hvalue, hasks, hpc, hserver, hclient⟩
  · rcases greeting_left_cases porta s with hnone | ⟨hreads, hleft⟩
    · rw [hnone] at hclient
      unfold clientReads at hstep
      rw [if_pos hclient, if_neg hopen] at hstep
      cases hstep
    · rw [hleft] at hclient
      obtain ⟨-, hle, rfl⟩ := client_reads_first hstep hopen
        (by rw [hclient, List.flatten_singleton]; unfold bufferSize; omega)
        (by rw [hclient, List.mem_singleton]; exact hgreets.symm)
      refine ⟨by simp, fun htwo => ?_⟩
      have hn := htwo hreads
      rw [hclient, List.length_singleton] at hle
      omega
  · have hresponse := response_length hvalue
    have hecho : response (decimal value) ≠ [] := fun hnil => by
      have hhead := response_head (decimal value)
      rw [hnil] at hhead
      cases hhead
    have hsmall : s.toClient.flatten.length < bufferSize ∧ [] ∉ s.toClient := by
      rw [hclient]
      unfold bufferSize
      rcases greeting_left_cases porta s with hnone | ⟨-, hleft⟩
      · rw [hnone, List.nil_append, List.flatten_singleton, List.mem_singleton]
        exact ⟨by omega, hecho.symm⟩
      · rw [hleft]
        simp only [List.singleton_append, List.flatten_cons, List.flatten_nil, List.length_append,
          List.append_nil, List.mem_cons, List.not_mem_nil, or_false, not_or]
        exact ⟨by omega, hgreets.symm, hecho.symm⟩
    obtain ⟨hpos, hle, rfl⟩ := client_reads_first hstep hopen hsmall.1 hsmall.2
    refine ⟨by simp, fun htwo => ?_⟩
    have hall : s.toClient.length ≤ n := by
      rw [hclient]
      rcases greeting_left_cases porta s with hnone | ⟨hreads, hleft⟩
      · rw [hnone]
        exact hpos
      · rw [hleft]
        exact htwo hreads
    have hread : s.toClient.flatten =
        (if s.client.reads.length = 0 then wlcMsg porta else [])++response (decimal value) := by
      rw [hclient, greetingLeft, hpc]
      by_cases hreads : s.client.reads = []
      · simp [hreads]
      · simp [hreads]
    rw [List.take_of_length_le hall, List.drop_eq_nil_of_le hall, hread]
    exact aligned_read h hasks hpc hserver

theorem aligned_step {e : System.Event} (hg : Greets porta s) (h : Aligned porta s)
    (hstep : System.step porta e s = some t) :
    (FirstTogether e s → Aligned porta t) ∧ (t.client.reads = [] → Aligned porta t) := by
  rcases system_cases hstep with ⟨c, hc, rfl⟩ | ⟨n, rfl, hread⟩ | ⟨n, hserver⟩
  · exact ⟨fun _ => aligned_goes h hc, fun _ => aligned_goes h hc⟩
  · obtain ⟨hne, hkeeps⟩ := aligned_reads h hread
    exact ⟨hkeeps, fun hnil => absurd hnil hne⟩
  · exact ⟨fun _ => aligned_server hg h hserver, fun _ => aligned_server hg h hserver⟩

theorem reads_grow {e : System.Event} (hstep : System.step porta e s = some t)
    (h : t.client.reads = []) : s.client.reads = [] := by
  rcases system_cases hstep with ⟨c, hc, rfl⟩ | ⟨n, -, hread⟩ | ⟨n, hserver⟩
  · exact hc.reads.symm.trans h
  · obtain ⟨bytes, rest, -, -, -, ⟨-, rfl⟩ | ⟨-, rfl⟩⟩ := client_reads_cases hread
    · exact h
    · exact (List.append_eq_nil_iff.mp h).1
  · rwa [server_client hserver] at h

end Aligned

theorem greets_started (porta : ℕ) : Greets porta System.started :=
  ⟨fun _ => ⟨rfl, rfl⟩, fun hno => absurd rfl hno, List.not_mem_nil⟩

theorem aligned_started (porta : ℕ) : Aligned porta System.started where
  small := ⟨by decide, nofun, nofun⟩
  ended := nofun
  environment := nofun
  reads := by
    intro k r hr
    cases hr
  phase := .quiet nofun rfl trivial rfl rfl

section Runs
variable {porta : ℕ} {s : System}

/-- Until the client reads, the messages are in step. -/
theorem reachable_in_step (h : Reachable (System.step porta) System.started s) :
    Greets porta s ∧ (s.client.reads = [] → Aligned porta s) := by
  apply reachable_invariant _ (fun s => Greets porta s ∧ (s.client.reads = [] → Aligned porta s)) _
    _ h
  · exact ⟨greets_started porta, fun _ => aligned_started porta⟩
  · rintro e s t ⟨hg, ha⟩ hstep
    exact ⟨greets_step hg hstep,
      fun hnil => (aligned_step hg (ha (reads_grow hstep hnil)) hstep).2 hnil⟩

theorem reachable_aligned
    (h : ReachableAlong (System.step porta) FirstTogether System.started s) : Aligned porta s := by
  apply And.right
  apply reachable_along_invariant _ (fun s => Greets porta s ∧ Aligned porta s) _ _ h
  · exact ⟨greets_started porta, aligned_started porta⟩
  · rintro e s t ⟨hg, ha⟩ hok hstep
    exact ⟨greets_step hg hstep, (aligned_step hg ha hstep).1 hok⟩

/-- A first message that begins with the greeting is not an echo. -/
theorem greets_first (hg : Greets porta s) (hreads : s.client.reads ≠ [])
    (h : LockStep s) : False := by
  obtain ⟨r, rs, hr⟩ := List.exists_cons_of_ne_nil hreads
  obtain ⟨value, -, hecho⟩ := h.2 0 r (by rw [hr]; rfl)
  have hgreeted : wlcMsg porta <+: r++(rs++s.toClient).flatten := by
    have hpc : s.server.pc ≠ .accepting ∧ s.server.pc ≠ .greeting :=
      not_or.mp fun hpc => hreads (hg.before hpc).1
    have hafter := hg.after hpc.1 hpc.2
    rwa [hr, List.cons_append, List.flatten_cons] at hafter
  obtain ⟨rest, hrest⟩ := hgreeted
  have hhead := congrArg List.head? hrest
  rw [List.head?_append, greeting_head, hecho, List.head?_append, response_head] at hhead
  have hbyte : (67 : UInt8) = 69 := Option.some.inj hhead
  exact absurd hbyte (by decide)

/-- The messages are in step exactly until the client reads for the first time.
If it then finds the greeting and its first echo together, only that message
is out of step. -/
theorem lock_step (h : Reachable (System.step porta) System.started s) :
    (LockStep s ↔ s.client.reads = []) ∧
    (ReachableAlong (System.step porta) FirstTogether System.started s →
      (∀ a, s.server.environmentA = some a → ∃ value ∈ s.client.sent, a = decimal value) ∧
      ∀ (k : ℕ) r, 0 < k → s.client.reads[k]? = some r →
        ∃ value, s.client.sent[k]? = some value ∧ r = response (decimal value)) := by
  obtain ⟨hg, haligned⟩ := reachable_in_step h
  refine ⟨⟨?_, ?_⟩, ?_⟩
  · intro hlock
    by_contra hreads
    exact greets_first hg hreads hlock
  · intro hreads
    refine ⟨(haligned hreads).environment, ?_⟩
    intro k r hr
    rw [hreads] at hr
    cases hr
  · intro halong
    have ha := reachable_aligned halong
    refine ⟨ha.environment, ?_⟩
    intro k r hk hr
    obtain ⟨value, hvalue, hecho⟩ := ha.reads k r hr
    rw [if_neg (Nat.pos_iff_ne_zero.mp hk), List.nil_append] at hecho
    exact ⟨value, hvalue, hecho⟩

end Runs

def sends (m : Mutator) (rand : ℕ) : List System.Event :=
  [.change m 0, .change m rand, .connection, .connection, .connection]

def answers (n : ℕ) : List System.Event := [.server n, .server 0, .server 0]

def accepts : List System.Event := [.connect true, .server 0, .server 0]

def readTogether : List System.Event :=
  accepts++sends .thread1 12++answers 1++[.clientReads 2]++sends .thread2 34++answers 1++
    [.clientReads 1]

theorem read_together_run :
    (exec (System.step 8080) readTogether System.started).isSome = true := by
  decide +kernel

instance (e : System.Event) (s : System) : Decidable (FirstTogether e s) :=
  match e with
  | .clientReads n => inferInstanceAs (Decidable (s.client.reads = [] → 2 ≤ n))
  | .change _ _ | .connect _ | .connection | .signal | .server _ =>
    inferInstanceAs (Decidable True)

theorem read_together_in_step : ∃ value,
    ((exec (System.step 8080) readTogether System.started).get read_together_run).client.sent[1]? =
      some value ∧ text "Echo : 34\n" = response (decimal value) :=
  ((lock_step (reachable_get read_together_run)).2
    (reachable_along_get read_together_run (by decide +kernel))).2 1 _ Nat.one_pos
      (by decide +kernel)

def readApart : List System.Event :=
  accepts++sends .thread1 12++[.clientReads 1]++sends .thread2 34++[.server 2, .server 0]

theorem read_apart_run : (exec (System.step 8080) readApart System.started).isSome = true := by
  decide +kernel

theorem greeting_out_of_step : ¬ ∀ porta s,
    Reachable (System.step porta) System.started s → LockStep s := by
  intro hclaim
  have hlock := hclaim 8080 _ (reachable_get read_apart_run)
  have henv : ((exec (System.step 8080) readApart System.started).get
      read_apart_run).server.environmentA = some (text "12\n34") := by
    decide +kernel
  have hsent : ((exec (System.step 8080) readApart System.started).get
      read_apart_run).client.sent = [12, 34] := by
    decide +kernel
  obtain ⟨value, hvalue, htext⟩ := hlock.1 _ henv
  rw [hsent] at hvalue
  have hother : ∀ value ∈ [12, 34], text "12\n34" ≠ decimal value := by decide +kernel
  exact hother value hvalue htext

end ProgSistema.EchoClient
