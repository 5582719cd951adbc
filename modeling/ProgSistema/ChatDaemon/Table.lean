import ProgSistema.ChatDaemon.Broadcast
import ProgSistema.Lib.Runs

/-!
# The slots and the monitored set

The array of slots and the set of monitored descriptors are changed together,
when a client takes a slot and when it leaves. A descriptor that `select` has
reported stands for the same connection until it is read.
-/

set_option autoImplicit false

namespace ProgSistema.ChatDaemon
open CRuntime Descriptors Multiplexing Runs Slots Table Traces

structure Consistent (d : Daemon) : Prop where
  listening : d.serverFds.toFinset = d.descriptors.listening
  monitored : d.master.fds = d.serverFds.toFinset ∪ occupied d.clientFds
  distinct : Distinct d.clientFds
  opened : ∀ i fd, d.clientFds i = some fd → d.descriptors.IsOpen fd ∧ fd ≤ d.master.maxFd
  accounted : ∀ c < d.descriptors.accepted,
    (c ∈ d.descriptors.closed ∧ ∀ i, (d.clientFds i).bind d.descriptors.connection ≠ some c) ∨
      c ∉ d.descriptors.closed ∧ ∃! i, (d.clientFds i).bind d.descriptors.connection = some c
  traced : connected d.calls = occupied d.clientFds

/-- No `send` of a broadcast kills the process while another client is still to
be served. -/
def Spared (e : Event) (d : Daemon) : Prop :=
  match e with
  | .recv buffer esito =>
    buffer ≠ [] → ∀ j k : Fin maxClients, j < k → d.pc ≠ .serving j → d.pc ≠ .serving k →
      (d.clientFds j).isSome = true → (d.clientFds k).isSome = true → esito j ≠ .sigpipe
  | _ => True

instance (e : Event) (d : Daemon) : Decidable (Spared e d) :=
  match e with
  | .recv .. => inferInstanceAs (Decidable (_ → _))
  | .createSocket _ | .pthreadCreate _ | .io | .select _ | .accept .. => isTrue trivial

def Pc.inThread : Pc → Prop
  | .top | .accepting _ | .serving _ | .ended | .killed => True
  | .creating | .starting | .exited => False

def Pc.inPass : Pc → Prop
  | .accepting _ | .serving _ => True
  | _ => False

theorem in_thread_of_pass {pc : Pc} (h : pc.inPass) : pc.inThread := by
  cases pc with
  | accepting | serving => trivial
  | creating | starting | exited | top | ended | killed => exact h.elim

structure Inv (d : Daemon) : Prop where
  held : Held d.descriptors d.clientFds
  listening : d.serverFds.toFinset = d.descriptors.listening
  monitored : d.pc.inThread → d.master.fds = d.serverFds.toFinset ∪ occupied d.clientFds
  bounded : d.pc.inThread → d.master.Bounded
  empty : ¬ d.pc.inThread → ∀ i, d.clientFds i = none
  stillOpen : ∀ s, d.pc = .accepting s → ∀ fd ∈ d.readFds, d.descriptors.IsOpen fd
  traced : connected d.calls = occupied d.clientFds
  fresh : d.pc.inPass → ∀ fd ∈ d.readFds, fd ∈ connected d.calls → fd ∈ reported d.calls
  orderly : Everywhere Orderly d.calls

theorem held_started : Held started.descriptors started.clientFds := by
  refine ⟨distinct_none, fun fd => iff_of_false Bool.false_ne_true ?_⟩
  rintro ⟨i, hi⟩
  cases hi

theorem inv_started : Inv started where
  held := held_started
  listening := rfl
  monitored hpc := hpc.elim
  bounded hpc := hpc.elim
  empty _ _ := rfl
  stillOpen _ hpc := nomatch hpc
  traced := occupied_none.symm
  fresh hpc := hpc.elim
  orderly := everywhere_nil

def Pc.Follows (pc pc' : Pc) : Prop :=
  pc.inThread ∧ pc'.inThread ∧ (pc'.inPass → pc.inPass) ∧
    ∀ s, pc' = .accepting s → ∃ s', pc = .accepting s'

inductive Change (e : Event) (d d' : Daemon) : Prop where
  | created (fd : ℕ) (hpc : d.pc = .creating) (hfree : ¬ d.descriptors.IsOpen fd)
      (h : d' = createSocket fd d hfree)
  | exited (hpc : ¬ d.pc.inThread) (h : d' = { d with pc := .exited })
  | initialised (hpc : ¬ d.pc.inThread) (h : d' = inizializza d)
  | moved (pc : Pc) (hpc : d.pc.Follows pc) (h : d' = { d with pc := pc })
  | selected (ready : Finset ℕ) (hpc : d.pc = .top) (hready : d.master.Reports ready)
      (h : d' = { d with
        pc := .accepting 0, readFds := ready, calls := d.calls++[.select ready] })
  | accepted (s fd : ℕ) (esito : Esito) (hpc : d.pc = .accepting s)
      (hfree : ¬ d.descriptors.IsOpen fd)
      (h : d' = (accetta s fd esito d hfree).goto (.accepting (s+1)))
  | received (i : Fin maxClients) (fd : ℕ) (buffer : Bytes) (esito : Fin maxClients → Esito)
      (he : e = .recv buffer esito) (hpc : d.pc = .serving i) (hfd : d.clientFds i = some fd)
      (hready : fd ∈ d.readFds) (hlen : buffer.length ≤ bufferSize-1)
      (h : d' = (gestisci i fd buffer esito d).goto (.serving (i+1)))

theorem io_thread_cases {e : Event} {d d' : Daemon} (h : ioThread d = some d') :
    Change e d d' := by
  unfold ioThread at h
  cases hpc : d.pc with
  | accepting s =>
    rw [hpc] at h
    dsimp only at h
    have hserving : d.pc.Follows (.serving 0) := by
      rw [hpc]
      exact ⟨trivial, trivial, fun _ => trivial, fun _ hs => nomatch hs⟩
    have haccepting : d.pc.Follows (.accepting (s+1)) := by
      rw [hpc]
      exact ⟨trivial, trivial, fun _ => trivial, fun _ _ => ⟨s, rfl⟩⟩
    split at h
    · cases h
      exact .moved _ hserving rfl
    · split at h
      · cases h
      · cases h
        exact .moved _ haccepting rfl
  | serving i =>
    rw [hpc] at h
    dsimp only at h
    have hserving : d.pc.Follows (.serving (i+1)) := by
      rw [hpc]
      exact ⟨trivial, trivial, fun _ => trivial, fun _ hs => nomatch hs⟩
    have htop : d.pc.Follows .top := by
      rw [hpc]
      exact ⟨trivial, trivial, False.elim, fun _ hs => nomatch hs⟩
    split at h
    · split at h
      · cases h
        exact .moved _ hserving rfl
      · cases h
    · cases h
      exact .moved _ htop rfl
  | creating | starting | exited | top | ended | killed =>
    rw [hpc] at h
    cases h

theorem da_leggere_some {i : Fin maxClients} {d : Daemon} {fd : ℕ} (h : daLeggere i d = some fd) :
    d.clientFds i = some fd ∧ fd ∈ d.readFds := by
  obtain ⟨hfd, hready⟩ := Option.filter_eq_some_iff.mp h
  exact ⟨hfd, of_decide_eq_true hready⟩

theorem recv_cases {buffer : Bytes} {esito : Fin maxClients → Esito} {d d' : Daemon}
    (h : step (.recv buffer esito) d = some d') :
    ∃ (i : Fin maxClients) (fd : ℕ), d.pc = .serving i ∧ d.clientFds i = some fd ∧ fd ∈ d.readFds ∧
      buffer.length ≤ bufferSize-1 ∧
        d' = (gestisci i fd buffer esito d).goto (.serving (i+1)) := by
  simp only [step] at h
  split at h
  · rename_i i hpc
    split at h
    · rename_i hi
      split at h
      · cases h
      · rename_i fd hread
        split at h
        · rename_i hlen
          cases h
          obtain ⟨hfd, hready⟩ := da_leggere_some hread
          exact ⟨⟨i, hi⟩, fd, hpc, hfd, hready, hlen, rfl⟩
        · cases h
    · cases h
  · cases h

theorem step_cases {e : Event} {d d' : Daemon} (h : step e d = some d') : Change e d d' := by
  cases e with
  | createSocket esito =>
    cases esito with
    | none =>
      simp only [step] at h
      split at h
      · rename_i hpc
        cases h
        exact .exited (by rw [hpc]; exact id) rfl
      · cases h
    | some fd =>
      simp only [step] at h
      split at h
      · rename_i hready
        cases h
        exact .created fd hready.1 hready.2.1 rfl
      · cases h
  | pthreadCreate success =>
    simp only [step] at h
    split at h
    · rename_i hpc
      have hout : ¬ d.pc.inThread := by
        rw [hpc]
        exact id
      cases success
      · cases h
        exact .exited hout rfl
      · cases h
        exact .initialised hout rfl
    · cases h
  | io => exact io_thread_cases h
  | select ready =>
    cases ready with
    | none =>
      simp only [step] at h
      split at h
      · rename_i hpc
        cases h
        refine .moved .ended ?_ rfl
        rw [hpc]
        exact ⟨trivial, trivial, False.elim, fun _ hs => nomatch hs⟩
      · cases h
    | some ready =>
      simp only [step] at h
      split at h
      · rename_i hready
        cases h
        exact .selected ready hready.1 hready.2 rfl
      · cases h
  | accept newClient esito =>
    simp only [step] at h
    split at h
    · rename_i s hpc
      split at h
      · cases newClient with
        | none =>
          cases h
          refine .moved _ ?_ rfl
          rw [hpc]
          exact ⟨trivial, trivial, fun _ => trivial, fun _ _ => ⟨s, rfl⟩⟩
        | some fd =>
          dsimp only at h
          split at h
          · rename_i hgrants
            cases h
            exact .accepted s fd esito hpc hgrants.1 rfl
          · cases h
      · cases h
    · cases h
  | recv buffer esito =>
    obtain ⟨i, fd, hpc, hfd, hready, hlen, heq⟩ := recv_cases h
    exact .received i fd buffer esito rfl hpc hfd hready hlen heq

theorem created_inv {d : Daemon} (hi : Inv d) {fd : ℕ} (hpc : d.pc = .creating)
    (hfree : ¬ d.descriptors.IsOpen fd) : Inv (createSocket fd d hfree) := by
  have hout : ¬ d.pc.inThread := by
    rw [hpc]
    exact id
  have hout' : ¬ (createSocket fd d hfree).pc.inThread := by
    show ¬ (if (d.serverFds++[fd]).length < numPorts then Pc.creating else Pc.starting).inThread
    split <;> exact id
  have hpass : ¬ (createSocket fd d hfree).pc.inPass := by
    show ¬ (if (d.serverFds++[fd]).length < numPorts then Pc.creating else Pc.starting).inPass
    split <;> exact id
  refine ⟨⟨hi.held.distinct, hi.held.exactly⟩, ?_, fun h => absurd h hout', fun h => absurd h hout',
    fun _ => hi.empty hout, ?_, hi.traced, fun h => absurd h hpass, hi.orderly⟩
  · show (d.serverFds++[fd]).toFinset = insert fd d.descriptors.listening
    rw [← hi.listening, List.toFinset_append, Finset.union_comm]
    rfl
  · intro s hs
    rw [hs] at hpass
    exact absurd trivial hpass

theorem exited_inv {d : Daemon} (hi : Inv d) (hpc : ¬ d.pc.inThread) :
    Inv { d with pc := .exited } where
  held := hi.held
  listening := hi.listening
  monitored h := h.elim
  bounded h := h.elim
  empty _ := hi.empty hpc
  stillOpen _ h := nomatch h
  traced := hi.traced
  fresh h := h.elim
  orderly := hi.orderly

theorem initialised_inv {d : Daemon} (hi : Inv d) (hpc : ¬ d.pc.inThread) :
    Inv (inizializza d) where
  held := hi.held
  listening := hi.listening
  monitored _ := by
    have hempty : d.clientFds = fun _ => none := funext (hi.empty hpc)
    show (Monitored.zero.watchAll d.serverFds).fds = d.serverFds.toFinset ∪ occupied d.clientFds
    rw [Monitored.watch_all_fds, hempty, occupied_none, Finset.union_empty]
    exact Finset.empty_union _
  bounded _ := Monitored.zero_bounded.watch_all d.serverFds
  empty h := absurd trivial h
  stillOpen _ h := nomatch h
  traced := hi.traced
  fresh h := h.elim
  orderly := hi.orderly

theorem moved_inv {d : Daemon} (hi : Inv d) {pc : Pc} (hpc : d.pc.Follows pc) :
    Inv { d with pc := pc } := by
  obtain ⟨hin, hin', hpass, haccepting⟩ := hpc
  refine ⟨hi.held, hi.listening, fun _ => hi.monitored hin, fun _ => hi.bounded hin,
    fun h => absurd hin' h, ?_, hi.traced, fun h => hi.fresh (hpass h), hi.orderly⟩
  intro s hs
  obtain ⟨s', hs'⟩ := haccepting s hs
  exact hi.stillOpen s' hs'

theorem occupied_connected {d : Daemon} (hi : Inv d) {fd : ℕ} :
    fd ∈ occupied d.clientFds ↔ (d.descriptors.connection fd).isSome = true := by
  rw [mem_occupied, hi.held.exactly]

theorem selected_inv {d : Daemon} (hi : Inv d) {ready : Finset ℕ} (hpc : d.pc = .top)
    (hready : d.master.Reports ready) :
    Inv { d with pc := .accepting 0, readFds := ready, calls := d.calls++[.select ready] } := by
  have hin : d.pc.inThread := by
    rw [hpc]
    trivial
  refine ⟨hi.held, hi.listening, fun _ => hi.monitored hin, fun _ => hi.bounded hin,
    fun h => absurd trivial h, ?_, ?_, ?_, ?_⟩
  · intro s hs fd hfd
    have hmem := hready.1 hfd
    rw [hi.monitored hin, Finset.mem_union, hi.listening, occupied_connected hi] at hmem
    exact hmem
  · rw [connected_append]
    exact hi.traced
  · intro _ fd hfd _
    rw [reported_append]
    exact hfd
  · have hopens : (Call.select ready).Opens := trivial
    exact everywhere_orderly hopens hi.orderly (everywhere_singleton.mpr trivial)

section Accepts
variable {d : Daemon} {s fd : ℕ} {esito : Esito}

/-- A refused connection leaves the descriptors as they were. -/
theorem refused_inv (hi : Inv d) (hpc : d.pc = .accepting s) (hfree : ¬ d.descriptors.IsOpen fd)
    (hfull : firstFree d.clientFds = none) :
    Inv ((accetta s fd esito d hfree).goto (.accepting (s+1))) := by
  have hpass : d.pc.inPass := by
    rw [hpc]
    trivial
  have hin := in_thread_of_pass hpass
  have hconnection := accept_close_connection d.descriptors fd hfree
  have hlistening := accept_close_listening d.descriptors fd hfree
  have hnew : fd ∉ occupied d.clientFds := by
    intro hmem
    exact hfree (Or.inr ((occupied_connected hi).mp hmem))
  have hconnected : connected (d.calls++[.accept fd, .close fd]) = occupied d.clientFds := by
    rw [connected_append, hi.traced]
    exact Finset.erase_insert hnew
  simp only [accetta, hfull, Daemon.goto, hpc, List.append_assoc, List.cons_append,
    List.nil_append]
  refine ⟨hi.held.refuse hfree, hi.listening.trans hlistening.symm, fun _ => hi.monitored hin,
    fun _ => hi.bounded hin, fun h => absurd trivial h, ?_, hconnected, ?_, ?_⟩
  · intro s' _ fd' hmem
    unfold Table.IsOpen
    rw [hlistening, hconnection]
    exact hi.stillOpen s hpc fd' hmem
  · intro _ fd' hmem hconn
    rw [hconnected, ← hi.traced] at hconn
    have hne : fd' ≠ fd := by
      rintro rfl
      exact hnew (hi.traced ▸ hconn)
    rw [reported_append]
    exact Finset.mem_erase.mpr ⟨hne, Finset.mem_erase.mpr ⟨hne, hi.fresh hpass fd' hmem hconn⟩⟩
  · have hopens : (Call.accept fd).Opens := trivial
    apply everywhere_orderly hopens hi.orderly
    refine everywhere_cons.mpr ⟨fun _ => ?_, everywhere_singleton.mpr trivial⟩
    rw [List.append_nil, hi.traced]
    exact card_occupied_of_full hi.held.distinct hfull

/-- The descriptor of a new client was not open when `select` returned. -/
theorem assigned_inv (hi : Inv d) (hpc : d.pc = .accepting s) (hfree : ¬ d.descriptors.IsOpen fd)
    {slot : Fin maxClients} (hslot : firstFree d.clientFds = some slot) :
    Inv ((accetta s fd esito d hfree).goto (.accepting (s+1))) := by
  have hpass : d.pc.inPass := by
    rw [hpc]
    trivial
  have hin := in_thread_of_pass hpass
  have hempty := first_free_some hslot
  have hold : ∀ fd' ∈ d.readFds, fd' ≠ fd := by
    rintro fd' hmem rfl
    exact hfree (hi.stillOpen s hpc fd' hmem)
  have hconnected : connected (d.calls++[.accept fd, .send fd (welcome s slot) esito]) =
      insert fd (connected d.calls) := connected_append _ _
  have hthread : ((accetta s fd esito d hfree).goto (.accepting (s+1))).pc.inThread := by
    show (if _ then Pc.killed else _).inThread
    split <;> exact trivial
  simp only [accetta, hslot, send, Daemon.goto, List.append_assoc, List.cons_append,
    List.nil_append] at hthread ⊢
  refine ⟨hi.held.accept hfree hempty, hi.listening, ?_, fun _ => (hi.bounded hin).watch fd,
    fun h => absurd hthread h, ?_, ?_, ?_, ?_⟩
  · intro _
    show insert fd d.master.fds = d.serverFds.toFinset ∪ occupied _
    rw [hi.monitored hin, occupied_put hempty, Finset.union_insert]
  · intro s' _ fd' hmem
    unfold Table.IsOpen
    rw [accept_connection, Function.update_of_ne (hold fd' hmem)]
    exact hi.stillOpen s hpc fd' hmem
  · rw [hconnected, occupied_put hempty, hi.traced]
  · intro _ fd' hmem hconn
    rw [hconnected, Finset.mem_insert] at hconn
    rw [reported_append]
    exact Finset.mem_erase.mpr ⟨hold fd' hmem,
      hi.fresh hpass fd' hmem (hconn.resolve_left (hold fd' hmem))⟩
  · have hopens : (Call.accept fd).Opens := trivial
    apply everywhere_orderly hopens hi.orderly
    refine everywhere_cons.mpr ⟨fun hclose => ?_, everywhere_singleton.mpr trivial⟩
    cases hclose

theorem accepted_inv (hi : Inv d) (hpc : d.pc = .accepting s) (hfree : ¬ d.descriptors.IsOpen fd) :
    Inv ((accetta s fd esito d hfree).goto (.accepting (s+1))) := by
  cases hslot : firstFree d.clientFds with
  | none => exact refused_inv hi hpc hfree hslot
  | some slot => exact assigned_inv hi hpc hfree hslot

end Accepts

section Receives
variable {d : Daemon} {i : Fin maxClients} {fd : ℕ}

theorem recv_orderly (hi : Inv d) (hpass : d.pc.inPass) (hfd : d.clientFds i = some fd)
    (hready : fd ∈ d.readFds) (buffer : Bytes) (after : List Call) :
    Orderly (d.calls++[]) (.recv i fd buffer) after := by
  rw [List.append_nil]
  have hconn : fd ∈ connected d.calls := hi.traced ▸ mem_occupied.mpr ⟨i, hfd⟩
  exact ⟨hi.fresh hpass fd hready hconn, hconn⟩

theorem disconnected_inv (hi : Inv d) (hpc : d.pc = .serving i)
    (hfd : d.clientFds i = some fd) (hready : fd ∈ d.readFds) (esito : Fin maxClients → Esito) :
    Inv ((gestisci i fd [] esito d).goto (.serving (i+1))) := by
  have hpass : d.pc.inPass := by
    rw [hpc]
    trivial
  have hin := in_thread_of_pass hpass
  have hserver : fd ∉ d.descriptors.listening := by
    intro hmem
    have hsome := (hi.held.exactly fd).mpr ⟨i, hfd⟩
    rw [d.descriptors.disjoint fd hmem] at hsome
    cases hsome
  have hconnected : connected (d.calls++[.recv i fd [], .close fd]) = (connected d.calls).erase fd :=
    connected_append _ _
  simp only [gestisci, ↓reduceIte, disconnetti, Daemon.goto, hpc, List.append_assoc,
    List.cons_append, List.nil_append]
  refine ⟨hi.held.close hfd, ?_, ?_, fun _ => (hi.bounded hin).forget fd,
    fun h => absurd trivial h, ?_, ?_, ?_, ?_⟩
  · exact hi.listening.trans (Finset.erase_eq_of_notMem hserver).symm
  · intro _
    show d.master.fds.erase fd = d.serverFds.toFinset ∪ occupied _
    rw [hi.monitored hin, occupied_clear hi.held.distinct hfd, Finset.erase_union_distrib,
      hi.listening, Finset.erase_eq_of_notMem hserver]
  · intro s hs
    cases hs
  · rw [hconnected, occupied_clear hi.held.distinct hfd, hi.traced]
  · intro _ fd' hmem hconn
    rw [hconnected, Finset.mem_erase] at hconn
    rw [reported_append]
    exact Finset.mem_erase.mpr ⟨hconn.1, hi.fresh hpass fd' hmem hconn.2⟩
  · have hopens : (Call.recv i fd []).Opens := trivial
    apply everywhere_orderly hopens hi.orderly
    exact everywhere_cons.mpr ⟨recv_orderly hi hpass hfd hready [] _,
      everywhere_singleton.mpr trivial⟩

theorem forwarded_inv (hi : Inv d) (hpc : d.pc = .serving i) (hfd : d.clientFds i = some fd)
    (hready : fd ∈ d.readFds) {buffer : Bytes} (hbuffer : buffer ≠ [])
    (hlen : buffer.length ≤ bufferSize-1) (esito : Fin maxClients → Esito) :
    Inv ((gestisci i fd buffer esito d).goto (.serving (i+1))) := by
  have hpass : d.pc.inPass := by
    rw [hpc]
    trivial
  have hin := in_thread_of_pass hpass
  have halive : d.pc ≠ .killed := by
    rw [hpc]
    exact Pc.noConfusion
  obtain ⟨pc, sends, heq, hmoved, hsends, -⟩ :=
    gestisci_spec halive hi.held.distinct hfd hbuffer hlen esito
  have hpc' : (if pc = .killed then Pc.killed else .serving (i+1)).inThread := by
    split <;> exact trivial
  have hconnected : connected (d.calls++.recv i fd buffer::sends) = connected d.calls := by
    rw [List.append_cons, connected_append_sends hsends, connected_append]
    rfl
  have hreported : reported (d.calls++.recv i fd buffer::sends) = reported d.calls := by
    rw [List.append_cons, reported_append_sends hsends, reported_append]
    rfl
  rw [heq, Daemon.goto]
  refine ⟨hi.held, hi.listening, fun _ => hi.monitored hin, fun _ => hi.bounded hin,
    fun h => absurd hpc' h, ?_, hconnected.trans hi.traced, ?_, ?_⟩
  · intro s hs
    dsimp only at hs
    split at hs <;> cases hs
  · intro _ fd' hmem hconn
    rw [hreported]
    exact hi.fresh hpass fd' hmem (hconnected ▸ hconn)
  · have hopens : (Call.recv i fd buffer).Opens := trivial
    apply everywhere_orderly hopens hi.orderly
    exact everywhere_cons.mpr ⟨recv_orderly hi hpass hfd hready buffer _,
      everywhere_sends hsends fun _ _ _ _ _ => trivial⟩

theorem received_inv (hi : Inv d) (hpc : d.pc = .serving i) (hfd : d.clientFds i = some fd)
    (hready : fd ∈ d.readFds) {buffer : Bytes} (hlen : buffer.length ≤ bufferSize-1)
    (esito : Fin maxClients → Esito) :
    Inv ((gestisci i fd buffer esito d).goto (.serving (i+1))) := by
  by_cases hbuffer : buffer = []
  · subst hbuffer
    exact disconnected_inv hi hpc hfd hready esito
  · exact forwarded_inv hi hpc hfd hready hbuffer hlen esito

end Receives

theorem inv_step {e : Event} {d d' : Daemon} (hi : Inv d) (h : step e d = some d') : Inv d' := by
  cases step_cases h with
  | created fd hpc hfree heq =>
    rw [heq]
    exact created_inv hi hpc hfree
  | exited hpc heq =>
    rw [heq]
    exact exited_inv hi hpc
  | initialised hpc heq =>
    rw [heq]
    exact initialised_inv hi hpc
  | moved pc hpc heq =>
    rw [heq]
    exact moved_inv hi hpc
  | selected ready hpc hready heq =>
    rw [heq]
    exact selected_inv hi hpc hready
  | accepted s fd esito hpc hfree heq =>
    rw [heq]
    exact accepted_inv hi hpc hfree
  | received i fd buffer esito he hpc hfd hready hlen heq =>
    rw [heq]
    exact received_inv hi hpc hfd hready hlen esito

theorem consistent_of_inv {d : Daemon} (hi : Inv d) (hpc : d.pc = .top) : Consistent d := by
  have hin : d.pc.inThread := by
    rw [hpc]
    trivial
  refine ⟨hi.listening, hi.monitored hin, hi.held.distinct, ?_, fun c hc => hi.held.accounted hc,
    hi.traced⟩
  intro i fd hfd
  have hmem : fd ∈ occupied d.clientFds := mem_occupied.mpr ⟨i, hfd⟩
  refine ⟨Or.inr ((occupied_connected hi).mp hmem), hi.bounded hin fd ?_⟩
  rw [hi.monitored hin]
  exact Finset.mem_union_right _ hmem

theorem spared_iff {d : Daemon} {i : Fin maxClients} (hpc : d.pc = .serving i) {buffer : Bytes}
    (hbuffer : buffer ≠ []) (esito : Fin maxClients → Esito) :
    Spared (.recv buffer esito) d ↔
      served esito (others d.clientFds i) = others d.clientFds i := by
  have hslot : ∀ j : Fin maxClients, d.pc ≠ .serving j ↔ j ≠ i := by
    intro j
    rw [hpc, ne_eq, Pc.serving.injEq, ← Fin.ext_iff]
    exact ne_comm
  rw [served_iff, pairwise_others]
  constructor
  · intro h j k x y hjk hj hk
    exact h hbuffer j k hjk ((hslot j).mpr hj.1) ((hslot k).mpr hk.1)
      (Option.isSome_of_eq_some hj.2) (Option.isSome_of_eq_some hk.2)
  · intro h _ j k hjk hj hk hjs hks
    obtain ⟨x, hx⟩ := Option.isSome_iff_exists.mp hjs
    obtain ⟨y, hy⟩ := Option.isSome_iff_exists.mp hks
    exact h j k x y hjk ⟨(hslot j).mp hj, hx⟩ ⟨(hslot k).mp hk, hy⟩

/-- A step after which a message has been received and not forwarded has killed
the process. -/
theorem recv_forwarded {buffer : Bytes} {esito : Fin maxClients → Esito} {d d' : Daemon}
    (hi : Inv d) (hf : Everywhere Forwarded d.calls) (h : step (.recv buffer esito) d = some d') :
    (Spared (.recv buffer esito) d → Everywhere Forwarded d'.calls) ∧
      (¬ Spared (.recv buffer esito) d → d'.pc = .killed ∧ ¬ Everywhere Forwarded d'.calls) := by
  obtain ⟨i, fd, hpc, hfd, hready, hlen, rfl⟩ := recv_cases h
  have hopens : (Call.recv i fd buffer).Opens := trivial
  by_cases hbuffer : buffer = []
  · subst hbuffer
    refine ⟨fun _ => ?_, fun hnot => absurd (fun hne => absurd rfl hne) hnot⟩
    have hcalls : ((gestisci i fd [] esito d).goto (.serving (i+1))).calls =
        d.calls++[.recv i fd [], .close fd] := List.append_assoc _ _ _
    rw [hcalls]
    apply everywhere_forwarded hopens hf
    exact everywhere_cons.mpr ⟨fun hne => absurd rfl hne, everywhere_singleton.mpr trivial⟩
  · have halive : d.pc ≠ .killed := by
      rw [hpc]
      exact Pc.noConfusion
    obtain ⟨pc, sends, heq, -, hsends, hall, hcut⟩ :=
      gestisci_spec halive hi.held.distinct hfd hbuffer hlen esito
    rw [spared_iff hpc hbuffer, heq, Daemon.goto]
    dsimp only
    refine ⟨fun hserved => ?_, fun hserved => ⟨?_, fun heverywhere => ?_⟩⟩
    · apply everywhere_forwarded hopens hf
      refine everywhere_cons.mpr ⟨fun _ => ?_, everywhere_sends hsends fun _ _ _ _ _ => trivial⟩
      rw [List.append_nil, hi.traced]
      exact hall hserved
    · rw [if_pos (hcut hserved).1]
    · have hdelivered := heverywhere d.calls (.recv i fd buffer) sends rfl hbuffer
      rw [hi.traced] at hdelivered
      exact (hcut hserved).2 hdelivered

/-- The other steps receive nothing. -/
theorem others_forwarded {e : Event} {d d' : Daemon} (h : step e d = some d')
    (hother : ∀ buffer esito, e ≠ .recv buffer esito) (hf : Everywhere Forwarded d.calls) :
    Everywhere Forwarded d'.calls := by
  cases step_cases h with
  | created fd hpc hfree heq =>
    rw [heq]
    exact hf
  | exited hpc heq =>
    rw [heq]
    exact hf
  | initialised hpc heq =>
    rw [heq]
    exact hf
  | moved pc hpc heq =>
    rw [heq]
    exact hf
  | selected ready hpc hready heq =>
    have hopens : (Call.select ready).Opens := trivial
    rw [heq]
    exact everywhere_forwarded hopens hf (everywhere_singleton.mpr trivial)
  | accepted s fd esito hpc hfree heq =>
    have hopens : (Call.accept fd).Opens := trivial
    have hnew : ∀ call : Call, (∀ i fd buffer, call ≠ .recv i fd buffer) →
        Everywhere Forwarded (d.calls++[.accept fd, call]) := by
      intro call hcall
      apply everywhere_forwarded hopens hf
      refine everywhere_cons.mpr ⟨trivial, everywhere_singleton.mpr ?_⟩
      cases call with
      | recv i fd buffer => exact absurd rfl (hcall i fd buffer)
      | select | accept | send | close => trivial
    rw [heq]
    cases hslot : firstFree d.clientFds with
    | none =>
      simpa [accetta, hslot, Daemon.goto] using hnew (.close fd) (by simp)
    | some slot =>
      simpa [accetta, hslot, send, Daemon.goto] using
        hnew (.send fd (welcome s slot) esito) (by simp)
  | received i fd buffer esito he hpc hfd hready hlen heq => exact absurd he (hother buffer esito)

theorem forwarded_step {e : Event} {d d' : Daemon} (hi : Inv d) (hf : Everywhere Forwarded d.calls)
    (h : step e d = some d') :
    (Spared e d → Everywhere Forwarded d'.calls) ∧
      (¬ Spared e d → d'.pc = .killed ∧ ¬ Everywhere Forwarded d'.calls) := by
  cases e with
  | recv buffer esito => exact recv_forwarded hi hf h
  | createSocket | pthreadCreate | io | select | accept =>
    refine ⟨fun _ => others_forwarded h ?_ hf, fun hnot => absurd trivial hnot⟩
    rintro buffer esito ⟨⟩

theorem killed_stuck {d : Daemon} (h : d.pc = .killed) (e : Event) : step e d = none := by
  cases e with
  | createSocket fd => cases fd <;> simp [step, h]
  | select ready => cases ready <;> simp [step, h]
  | io => simp [step, ioThread, h]
  | pthreadCreate | accept | recv => simp [step, h]

/-- In every run the slots and the monitored set agree with each other and with
the kernel at the top of each iteration, and every refusal and receive has been
in order. Every message received has been sent once to each other client exactly
if no `send` has killed the process before the last of them. -/
theorem slots_and_broadcast {as : List Event} {d : Daemon} (h : exec step as started = some d) :
    (d.pc = .top → Consistent d) ∧ Everywhere Orderly d.calls ∧
      (Everywhere Forwarded d.calls ↔ Along step Spared as started) := by
  have hi : Inv d := exec_preserves step Inv (fun _ _ _ => inv_step) as started d inv_started h
  refine ⟨consistent_of_inv hi, hi.orderly, ?_⟩
  have hrun := good_or_broken step
    (fun d => Inv d ∧ Everywhere Forwarded d.calls)
    (fun d => d.pc = .killed ∧ ¬ Everywhere Forwarded d.calls)
    (fun e d d' hd (hok : Spared e d) hstep =>
      ⟨inv_step hd.1 hstep, (forwarded_step hd.1 hd.2 hstep).1 hok⟩)
    (fun e d d' hd hok hstep => (forwarded_step hd.1 hd.2 hstep).2 hok)
    (fun e d d' hd hstep => by rw [killed_stuck hd.1 e] at hstep; cases hstep)
    ⟨inv_started, everywhere_nil⟩ h
  rcases hrun with ⟨halong, -, hf⟩ | ⟨hnot, -, hf⟩
  · exact iff_of_true hf halong
  · exact iff_of_false hf hnot

def serverStarted : List Event :=
  (List.range numPorts).map (fun i => Event.createSocket (some (i+3)))++[.pthreadCreate true]

def threeAccepted : List Event :=
  .select (some {3, 4, 5})::.accept (some 13) .sent::.accept (some 14) .sent::
    .accept (some 15) .sent::List.replicate 29 .io

def lineReceived (esito : Fin maxClients → Esito) : List Event :=
  .select (some {13})::(List.replicate 11 .io++[.recv [99, 105, 97, 111, 10] esito])

def lineSent : List Event :=
  serverStarted++(threeAccepted++(lineReceived (fun _ => .sent)++List.replicate 20 .io))

theorem line_sent_run : (exec step lineSent started).isSome = true := by decide +kernel

theorem line_broadcast :
    let d := (exec step lineSent started).get line_sent_run
    d.pc = .top ∧ Consistent d ∧ Everywhere Orderly d.calls ∧ Everywhere Forwarded d.calls ∧
      Call.send 15 (messaggio 0 [99, 105, 97, 111, 10]) .sent ∈ d.calls := by
  intro d
  have hpc : d.pc = .top := by decide +kernel
  have hd := slots_and_broadcast (Option.some_get line_sent_run).symm
  have halong : Along step Spared lineSent started := by decide +kernel
  exact ⟨hpc, hd.1 hpc, hd.2.1, hd.2.2.mpr halong, by decide +kernel⟩

/-- The second client has reset its connection when the line is sent on. -/
def secondReset : List Event :=
  serverStarted++(threeAccepted++lineReceived fun j => if j = 1 then .sigpipe else .sent)

theorem second_reset_run : (exec step secondReset started).isSome = true := by decide +kernel

/-- The third client never gets the line. -/
theorem reset_cuts_broadcast :
    ¬ Everywhere Forwarded ((exec step secondReset started).get second_reset_run).calls := by
  intro h
  have hdelivered := h _ (.recv 0 13 [99, 105, 97, 111, 10]) [.send 14 _ .sigpipe]
    (List.take_append_drop 8 _).symm (by decide)
  have honce := hdelivered.once 15 (by decide +kernel) (by decide)
  revert honce
  decide +kernel

end ProgSistema.ChatDaemon
