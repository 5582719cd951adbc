import ProgSistema.EchoClient.Server
import ProgSistema.Lib.Runs

/-!
# The greeting

Each step of client or server is one of a few changes of the system. Whatever
they do, the bytes that reach the client begin with the greeting.
-/

set_option autoImplicit false

namespace ProgSistema.EchoClient
open CRuntime StreamSocket Runs

/-! What one step of the client changes. -/

section Client
variable {e : Event} {c c' : Client}

structure Client.Small (c : Client) : Prop where
  a : c.a < 10000
  message : ∀ value, c.connection = .sending value → value < 10000
  sent : ∀ value ∈ c.sent, value < 10000

structure Client.Goes (c c' : Client) : Prop where
  reads : c'.reads = c.reads
  moves : (∃ value, c.connection = .sending value ∧ c'.connection = .receiving ∧
      c'.sent = c.sent++[value]) ∨
    c'.sent = c.sent ∧ (c'.connection = .receiving ↔ c.connection = .receiving)
  closed : c.connection = .closed → c'.connection = .closed
  small : c.Small → c'.Small

theorem small_moved {pc : ConnectionPc} {flag : Bool} (hc : c.Small)
    (h : ∀ value, pc = .sending value → value = c.a) :
    Client.Small { c with connection := pc, aChanged := flag } :=
  ⟨hc.a, fun value hpc => by rw [h value hpc]; exact hc.a, hc.sent⟩

theorem prepare_goes (hpc : c.connection = .lock ∨ c.connection = .waiting) :
    c.Goes (prepareMessage c) := by
  have hreceiving : c.connection ≠ .receiving := by rcases hpc with hpc | hpc <;> simp [hpc]
  have hclosed : c.connection ≠ .closed := by rcases hpc with hpc | hpc <;> simp [hpc]
  unfold prepareMessage
  split
  · exact ⟨rfl, Or.inr ⟨rfl, iff_of_false nofun hreceiving⟩, fun hno => absurd hno hclosed,
      fun hc => small_moved hc nofun⟩
  · split
    · exact ⟨rfl, Or.inr ⟨rfl, iff_of_false nofun hreceiving⟩, fun _ => rfl,
        fun hc => small_moved hc nofun⟩
    · refine ⟨rfl, Or.inr ⟨rfl, iff_of_false nofun hreceiving⟩, fun hno => absurd hno hclosed,
        fun hc => small_moved hc ?_⟩
      intro value hvalue
      cases hvalue
      rfl

theorem step_goes (hrecv : ∀ bytes, e ≠ .recv bytes) (h : step e c = some c') : c.Goes c' := by
  cases e with
  | change m rand =>
    simp only [step, changeA] at h
    cases hpc : c.mutators m with
    | loopTest | asleep =>
      rw [hpc] at h
      cases h
      exact ⟨rfl, Or.inr ⟨rfl, Iff.rfl⟩, id, fun hc => ⟨hc.a, hc.message, hc.sent⟩⟩
    | lock =>
      rw [hpc] at h
      cases h
      exact ⟨rfl, Or.inr ⟨rfl, Iff.rfl⟩, id,
        fun hc => ⟨Nat.mod_lt _ (by decide), hc.message, hc.sent⟩⟩
    | ended =>
      rw [hpc] at h
      cases h
  | connect success =>
    simp only [step] at h
    split at h
    · cases h
    · rename_i hconnecting
      have hpc : c.connection = .connecting := not_not.mp hconnecting
      have hclosed : ∀ {goal : Prop}, c.connection = .closed → goal := fun hno => by
        rw [hpc] at hno
        cases hno
      split at h
      · cases h
        exact ⟨rfl, Or.inr ⟨rfl, iff_of_false nofun (by rw [hpc]; nofun)⟩, hclosed,
          fun hc => small_moved hc nofun⟩
      · cases h
        exact ⟨rfl, Or.inr ⟨rfl, iff_of_false nofun (by rw [hpc]; nofun)⟩, hclosed,
          fun hc => ⟨hc.a, nofun, hc.sent⟩⟩
  | connection =>
    simp only [step, connectionThread] at h
    cases hpc : c.connection with
    | loopTest =>
      rw [hpc] at h
      cases h
      have hother : (if c.continuaEsecuzione then ConnectionPc.lock else .closed) ≠ .receiving ∧
          ∀ value, (if c.continuaEsecuzione then ConnectionPc.lock else .closed) =
            .sending value → value = c.a := by
        split <;> exact ⟨nofun, nofun⟩
      exact ⟨rfl, Or.inr ⟨rfl, iff_of_false hother.1 (by rw [hpc]; nofun)⟩, by rw [hpc]; nofun,
        fun hc => small_moved hc hother.2⟩
    | lock | waiting =>
      rw [hpc] at h
      cases h
      exact prepare_goes (by simp [hpc])
    | sending value =>
      rw [hpc] at h
      cases h
      refine ⟨rfl, Or.inl ⟨value, hpc, rfl, rfl⟩, by rw [hpc]; nofun,
        fun hc => ⟨hc.a, nofun, ?_⟩⟩
      intro v hv
      rcases List.mem_append.mp hv with hold | hnew
      · exact hc.sent v hold
      · rw [List.mem_singleton.mp hnew]
        exact hc.message value hpc
    | connecting | receiving | closed | failed =>
      rw [hpc] at h
      cases h
  | recv bytes => exact absurd rfl (hrecv bytes)
  | signal =>
    cases h
    exact ⟨rfl, Or.inr ⟨rfl, Iff.rfl⟩, id, fun hc => ⟨hc.a, hc.message, hc.sent⟩⟩

theorem recv_cases {bytes : Bytes} (h : step (.recv bytes) c = some c') :
    c.connection = .receiving ∧
      (bytes = [] ∧ c' = { c with connection := .closed } ∨
        bytes ≠ [] ∧ c' = { c with connection := .loopTest, reads := c.reads++[bytes] }) := by
  simp only [step] at h
  split at h
  · cases h
  · rename_i hready
    refine ⟨not_not.mp (not_or.mp hready).1, ?_⟩
    split at h
    · cases h
      exact Or.inl ⟨by assumption, rfl⟩
    · cases h
      exact Or.inr ⟨by assumption, rfl⟩

end Client

section Greeting
variable {porta n : ℕ} {e : System.Event} {s t : System}

theorem client_step_cases {e : Event} (hrecv : ∀ bytes, e ≠ .recv bytes)
    (h : System.clientStep e s = some t) : ∃ c, s.client.Goes c ∧ t = { s with
      client := c,
      toServer := s.toServer++(c.sent.drop s.client.sent.length).map messaggio } := by
  obtain ⟨c, hc, rfl⟩ := Option.map_eq_some_iff.mp h
  exact ⟨c, step_goes hrecv hc, rfl⟩

theorem system_cases (h : System.step porta e s = some t) :
    (∃ c, s.client.Goes c ∧ t = { s with
      client := c,
      toServer := s.toServer++(c.sent.drop s.client.sent.length).map messaggio }) ∨
    (∃ n, e = .clientReads n ∧ clientReads n s = some t) ∨
    ∃ n, serverStep porta n s = some t := by
  cases e with
  | change | connect | connection | signal => exact Or.inl (client_step_cases (by simp) h)
  | clientReads n => exact Or.inr (Or.inl ⟨n, rfl, h⟩)
  | server n => exact Or.inr (Or.inr ⟨n, h⟩)

/-- A client that reads nothing takes the connection for closed. -/
theorem client_reads_cases (h : clientReads n s = some t) : ∃ bytes rest,
    bytes++rest.flatten = s.toClient.flatten ∧ (s.toClient = [] → rest = []) ∧
    s.client.connection = .receiving ∧
    (bytes = [] ∧ t = { s with client.connection := .closed, toClient := rest } ∨
      bytes ≠ [] ∧ t = { s with
        client := { s.client with connection := .loopTest, reads := s.client.reads++[bytes] },
        toClient := rest }) := by
  unfold clientReads at h
  split at h
  · rename_i hempty
    split at h
    · obtain ⟨c, hc, rfl⟩ := Option.map_eq_some_iff.mp h
      obtain ⟨hpc, hrecv⟩ := recv_cases hc
      obtain ⟨-, rfl⟩ := hrecv.resolve_right fun hread => hread.1 rfl
      exact ⟨[], [], by rw [hempty]; rfl, fun _ => rfl, hpc, Or.inl ⟨rfl, by rw [hempty]⟩⟩
    · cases h
  · rename_i hflight
    split at h
    · cases h
    · have hstream := recv_chunks_stream (bufferSize-1) n s.toClient
      generalize recvChunks (bufferSize-1) n s.toClient = received at h hstream
      obtain ⟨bytes, rest⟩ := received
      obtain ⟨c, hc, rfl⟩ := Option.map_eq_some_iff.mp h
      obtain ⟨hpc, hrecv⟩ := recv_cases hc
      refine ⟨bytes, rest, hstream, fun hempty => absurd hempty hflight, hpc, ?_⟩
      rcases hrecv with ⟨hnil, rfl⟩ | ⟨hbytes, rfl⟩
      · exact Or.inl ⟨hnil, rfl⟩
      · exact Or.inr ⟨hbytes, rfl⟩

inductive ServerChange (porta n : ℕ) (s t : System) : Prop where
  | accepted (hpc : s.server.pc = .accepting) (h : t = { s with server.pc := .greeting })
  | greeted (hpc : s.server.pc = .greeting)
      (h : t = { s with server.pc := .receiving, toClient := s.toClient++[wlcMsg porta] })
  | closed (hpc : s.server.pc = .receiving) (hclosed : s.client.connection = .closed)
      (h : t = { s with server.pc := .ended })
  | received (hpc : s.server.pc = .receiving) (hne : s.toServer ≠ []) (hn : n ≠ 0)
      (bytes : Bytes) (rest : List Bytes)
      (hrecv : recvChunks (bufferSize-1) n s.toServer = (bytes, rest))
      (h : t = { s with server.pc := .updating (removeNewline bytes), toServer := rest })
  | updated (buffer : Bytes) (hpc : s.server.pc = .updating buffer)
      (h : t = { s with server := { pc := .replying buffer, environmentA := some buffer } })
  | replied (buffer : Bytes) (hpc : s.server.pc = .replying buffer)
      (h : t = { s with server.pc := .receiving, toClient := s.toClient++[response buffer] })

theorem server_step_cases (h : serverStep porta n s = some t) : ServerChange porta n s t := by
  unfold serverStep at h
  cases hpc : s.server.pc with (simp only [hpc] at h)
  | accepting =>
    split at h
    · cases h
    · cases h
      exact .accepted hpc rfl
  | greeting =>
    cases h
    exact .greeted hpc rfl
  | receiving =>
    split at h
    · split at h
      · rename_i hclosed
        cases h
        exact .closed hpc hclosed rfl
      · cases h
    · rename_i hne
      split at h
      · cases h
      · rename_i hn
        generalize hrecv : recvChunks (bufferSize-1) n s.toServer = received at h
        obtain ⟨bytes, rest⟩ := received
        cases h
        exact .received hpc hne (not_or.mp hn).1 bytes rest hrecv rfl
  | updating buffer =>
    cases h
    exact .updated buffer hpc rfl
  | replying buffer =>
    cases h
    exact .replied buffer hpc rfl
  | ended => cases h

theorem server_client (h : serverStep porta n s = some t) : t.client = s.client := by
  cases server_step_cases h with
  | accepted _ heq | greeted _ heq | closed _ _ heq => rw [heq]
  | received _ _ _ _ _ _ heq | updated _ _ heq | replied _ _ heq => rw [heq]

structure Greets (porta : ℕ) (s : System) : Prop where
  before : s.server.pc = .accepting ∨ s.server.pc = .greeting →
    s.client.reads = [] ∧ s.toClient = []
  after : s.server.pc ≠ .accepting → s.server.pc ≠ .greeting →
    wlcMsg porta <+: (s.client.reads++s.toClient).flatten
  nonempty : [] ∉ s.client.reads

theorem greets_server (hg : Greets porta s) (h : serverStep porta n s = some t) :
    Greets porta t := by
  obtain ⟨hbefore, hafter, hnonempty⟩ := hg
  have hgreeted : s.server.pc ≠ .accepting ∧ s.server.pc ≠ .greeting →
      wlcMsg porta <+: (s.client.reads++s.toClient).flatten := fun hpc => hafter hpc.1 hpc.2
  cases server_step_cases h with
  | accepted hpc heq =>
    rw [heq]
    exact ⟨fun _ => hbefore (Or.inl hpc), fun _ hgreet => absurd rfl hgreet, hnonempty⟩
  | greeted hpc heq =>
    obtain ⟨hreads, hempty⟩ := hbefore (Or.inr hpc)
    rw [heq]
    refine ⟨nofun, fun _ _ => ?_, hnonempty⟩
    dsimp only
    rw [hreads, hempty]
    simp
  | closed hpc _ heq | received hpc _ _ _ _ _ heq | updated _ hpc heq =>
    rw [heq]
    exact ⟨nofun, fun _ _ => hgreeted (by simp [hpc]), hnonempty⟩
  | replied buffer hpc heq =>
    rw [heq]
    refine ⟨nofun, fun _ _ => ?_, hnonempty⟩
    dsimp only
    rw [← List.append_assoc, List.flatten_append]
    exact (hgreeted (by simp [hpc])).trans (List.prefix_append _ _)

theorem greets_step (hg : Greets porta s) (h : System.step porta e s = some t) :
    Greets porta t := by
  rcases system_cases h with ⟨c, hc, rfl⟩ | ⟨n, -, hread⟩ | ⟨n, hserver⟩
  · refine ⟨?_, ?_, ?_⟩
    · intro hpc
      exact ⟨hc.reads.trans (hg.before hpc).1, (hg.before hpc).2⟩
    · intro haccept hgreet
      dsimp only
      rw [hc.reads]
      exact hg.after haccept hgreet
    · dsimp only
      rw [hc.reads]
      exact hg.nonempty
  · obtain ⟨bytes, rest, hstream, hrest, -, ⟨hnil, rfl⟩ | ⟨hbytes, rfl⟩⟩ := client_reads_cases hread
    · refine ⟨fun hpc => ⟨(hg.before hpc).1, hrest (hg.before hpc).2⟩, ?_, hg.nonempty⟩
      intro haccept hgreet
      rw [hnil, List.nil_append] at hstream
      dsimp only
      rw [List.flatten_append, hstream, ← List.flatten_append]
      exact hg.after haccept hgreet
    · refine ⟨?_, ?_, ?_⟩
      · intro hpc
        have hempty := (hg.before hpc).2
        rw [hempty, List.flatten_nil] at hstream
        exact absurd (List.append_eq_nil_iff.mp hstream).1 hbytes
      · intro haccept hgreet
        dsimp only
        rw [List.append_assoc, List.flatten_append, List.singleton_append, List.flatten_cons,
          hstream, ← List.flatten_append]
        exact hg.after haccept hgreet
      · intro hmem
        rcases List.mem_append.mp hmem with hold | hnew
        · exact hg.nonempty hold
        · exact hbytes (List.mem_singleton.mp hnew).symm
  · exact greets_server hg hserver

end Greeting

end ProgSistema.EchoClient
