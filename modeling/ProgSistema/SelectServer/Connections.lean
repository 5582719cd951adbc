import ProgSistema.SelectServer.Model

/-!
# The connections of the server

At the top of each iteration an accepted connection is closed or stands in one
slot, until a connection is accepted while all the slots are occupied.
-/

set_option autoImplicit false

namespace ProgSistema.SelectServer
open Descriptors Multiplexing Slots

def slots (s : Server) (i : Fin maxClients) : Option ℕ :=
  if s.clientSockets i = 0 then none else some (s.clientSockets i)

/-- Each accepted connection is closed, or in one slot and given to `select`. -/
structure Kept (s : Server) : Prop where
  accounted : ∀ c < s.descriptors.accepted,
    (c ∈ s.descriptors.closed ∧ ∀ i, (slots s i).bind s.descriptors.connection ≠ some c) ∨
      c ∉ s.descriptors.closed ∧ ∃! i, (slots s i).bind s.descriptors.connection = some c
  monitored : ∀ i fd, slots s i = some fd → fd ∈ (readfds s).fds ∧ fd ≤ (readfds s).maxFd

def RoomAtAccept (r : Results) (s : Server) : Prop :=
  s.serverFd ∈ r.ready → ∃ i, s.clientSockets i = 0

instance (r : Results) (s : Server) : Decidable (RoomAtAccept r s) :=
  inferInstanceAs (Decidable (_ → _))

theorem slots_some {s : Server} {i : Fin maxClients} {fd : ℕ} :
    slots s i = some fd ↔ s.clientSockets i = fd ∧ 0 < fd := by
  unfold slots
  split
  · rename_i hfree
    rw [hfree]
    exact iff_of_false (by simp) fun h => by omega
  · rename_i hused
    rw [Option.some.injEq]
    constructor
    · rintro rfl
      exact ⟨rfl, Nat.pos_of_ne_zero hused⟩
    · exact fun h => h.1

/-- A change of one entry, as a change of one slot. -/
theorem slots_update {s t : Server} {i : Fin maxClients} {fd : ℕ}
    (h : t.clientSockets = Function.update s.clientSockets i fd) :
    slots t = Function.update (slots s) i (if fd = 0 then none else some fd) := by
  funext j
  unfold slots
  rw [h]
  by_cases hj : j = i
  · rw [hj, Function.update_self, Function.update_self]
  · rw [Function.update_of_ne hj, Function.update_of_ne hj]

theorem slots_monitored (s : Server) {i : Fin maxClients} {fd : ℕ} (h : slots s i = some fd) :
    fd ∈ (readfds s).fds ∧ fd ≤ (readfds s).maxFd := by
  obtain ⟨hfd, hpos⟩ := slots_some.mp h
  have hmem : fd ∈ (readfds s).fds := by
    unfold readfds
    rw [Monitored.watch_all_fds, Finset.mem_union, List.mem_toFinset, List.mem_filter, List.mem_map]
    exact Or.inr ⟨⟨i, List.mem_finRange i, hfd⟩, decide_eq_true hpos⟩
  have hbounded : (readfds s).Bounded := (Monitored.zero_bounded.watch _).watch_all _
  exact ⟨hmem, hbounded fd hmem⟩

/-- Standard input is not given to `select`. -/
theorem zero_not_ready {r : Results} {s : Server} (hserver : 0 < s.serverFd)
    (h : (readfds s).Reports r.ready) : 0 ∉ r.ready := by
  intro hzero
  have hmem := h.1 hzero
  unfold readfds at hmem
  rw [Monitored.watch_all_fds, Finset.mem_union, List.mem_toFinset, List.mem_filter] at hmem
  rcases hmem with hwatched | ⟨-, hpos⟩
  · rcases Finset.mem_insert.mp hwatched with hsame | hnone
    · omega
    · exact absurd hnone (Finset.notMem_empty 0)
  · simp at hpos

structure Orderly (s : Server) : Prop where
  server : 0 < s.serverFd
  held : Table.Held s.descriptors (slots s)

theorem orderly_kept {s : Server} (h : Orderly s) : Kept s :=
  ⟨fun _ hc => h.held.accounted hc, fun _ _ => slots_monitored s⟩

def Lost (s : Server) : Prop :=
  ∃ fd c, 0 < fd ∧ s.descriptors.connection fd = some c ∧ ∀ i, s.clientSockets i ≠ fd

theorem lost_not_kept {s : Server} (h : Lost s) : ¬ Kept s := by
  obtain ⟨fd, c, hpos, hfd, hslots⟩ := h
  intro hkept
  have hopen : c ∉ s.descriptors.closed := fun hc => s.descriptors.open_or_closed c hc fd hfd
  have hc : c < s.descriptors.accepted := (s.descriptors.accounted c).mpr (Or.inr ⟨fd, hfd⟩)
  rcases hkept.accounted c hc with ⟨hclosed, -⟩ | ⟨-, i, hi, -⟩
  · exact hopen hclosed
  · obtain ⟨fd', hslot, hfd'⟩ := Option.bind_eq_some_iff.mp hi
    have hsame := s.descriptors.distinct fd' fd c hfd' hfd
    exact hslots i ((slots_some.mp hslot).1.trans hsame)

theorem serve_orderly {r : Results} (hzero : 0 ∉ r.ready) {s : Server} (h : Orderly s)
    (i : Fin maxClients) : Orderly (serveSlot r s i) := by
  unfold serveSlot
  by_cases hready : s.clientSockets i ∈ r.ready
  · rw [if_pos hready]
    split
    · have hpos : 0 < s.clientSockets i := Nat.pos_of_ne_zero fun h0 => hzero (h0 ▸ hready)
      refine ⟨h.server, ?_⟩
      rw [slots_update rfl, if_pos rfl]
      exact h.held.close (slots_some.mpr ⟨rfl, hpos⟩)
    · exact ⟨h.server, h.held⟩
  · rw [if_neg hready]
    exact h

theorem serve_lost {r : Results} {s : Server} (h : Lost s) (i : Fin maxClients) :
    Lost (serveSlot r s i) := by
  obtain ⟨fd, c, hpos, hfd, hslots⟩ := h
  unfold serveSlot
  by_cases hready : s.clientSockets i ∈ r.ready
  · rw [if_pos hready]
    split
    · refine ⟨fd, c, hpos, clear_some.mpr ⟨(hslots i).symm, hfd⟩, ?_⟩
      apply (Function.forall_update_iff s.clientSockets fun _ sd => sd ≠ fd).mpr
      exact ⟨hpos.ne, fun j _ => hslots j⟩
    · exact ⟨fd, c, hpos, hfd, hslots⟩
  · rw [if_neg hready]
    exact ⟨fd, c, hpos, hfd, hslots⟩

theorem free_slot_some {s : Server} {i : Fin maxClients} (h : freeSlot s = some i) :
    slots s i = none := by
  have hzero : s.clientSockets i = 0 := by simpa using List.find?_some h
  exact if_pos hzero

theorem free_slot_none {s : Server} (h : freeSlot s = none) (i : Fin maxClients) :
    s.clientSockets i ≠ 0 := by
  have hnone := List.find?_eq_none.mp h i (List.mem_finRange i)
  simpa using hnone

/-- What an iteration starts with: nothing, or a new connection. -/
theorem accept_cases {r : Results} {s t : Server} (h : acceptReady r s = some t) :
    (s.serverFd ∉ r.ready ∧ t = s) ∨ s.serverFd ∈ r.ready ∧ ∃ fd hfree,
      0 < fd ∧ t = newConnection fd s hfree := by
  unfold acceptReady at h
  split at h
  · rename_i hready
    split at h
    · cases h
    · rename_i fd hfd
      split at h
      · rename_i hgranted
        cases h
        exact Or.inr ⟨hready, fd, hgranted.2, hgranted.1, rfl⟩
      · cases h
  · rename_i hready
    cases h
    exact Or.inl ⟨hready, rfl⟩

theorem new_connection_orderly {s : Server} (h : Orderly s) {fd : ℕ} (hpos : 0 < fd)
    (hfree : ¬ s.descriptors.IsOpen fd) {i : Fin maxClients} (hslot : freeSlot s = some i) :
    Orderly (newConnection fd s hfree) := by
  refine ⟨h.server, ?_⟩
  have hsockets : (newConnection fd s hfree).clientSockets =
      Function.update s.clientSockets i fd := by
    unfold newConnection
    rw [hslot]
  rw [slots_update hsockets, if_neg hpos.ne']
  exact h.held.accept hfree (free_slot_some hslot)

/-- With all the slots occupied a new connection is neither stored nor closed. -/
theorem new_connection_lost {s : Server} (h : Orderly s) {fd : ℕ} (hpos : 0 < fd)
    (hfree : ¬ s.descriptors.IsOpen fd) (hfull : freeSlot s = none) :
    Lost (newConnection fd s hfree) := by
  refine ⟨fd, s.descriptors.accepted, hpos, Function.update_self fd _ _, fun i hi => ?_⟩
  have hsockets : (newConnection fd s hfree).clientSockets = s.clientSockets := by
    unfold newConnection
    rw [hfull]
  rw [hsockets] at hi
  have hopen := (h.held.exactly fd).mpr ⟨i, slots_some.mpr ⟨hi, hpos⟩⟩
  exact hfree (Or.inr hopen)

theorem new_connection_stays_lost {s : Server} (h : Lost s) {fd : ℕ}
    (hfree : ¬ s.descriptors.IsOpen fd) : Lost (newConnection fd s hfree) := by
  obtain ⟨lost, c, hpos, hconnection, hslots⟩ := h
  have hne : lost ≠ fd := by
    rintro rfl
    exact hfree (Or.inr (Option.isSome_of_eq_some hconnection))
  refine ⟨lost, c, hpos, (Function.update_of_ne hne _ _).trans hconnection, ?_⟩
  unfold newConnection
  split
  · exact hslots
  · apply (Function.forall_update_iff s.clientSockets fun _ sd => sd ≠ lost).mpr
    exact ⟨hne.symm, fun j _ => hslots j⟩

theorem iteration_some {r : Results} {s t : Server} (h : iteration r s = some t) :
    (readfds s).Reports r.ready ∧ ∃ u, acceptReady r s = some u ∧
      t = (List.finRange maxClients).foldl (serveSlot r) u := by
  unfold iteration at h
  split at h
  · rename_i hreports
    obtain ⟨u, hu, rfl⟩ := Option.map_eq_some_iff.mp h
    exact ⟨hreports, u, hu, rfl⟩
  · cases h

/-- What each turn of the loop over the slots keeps, the loop keeps. -/
theorem serve_all {r : Results} (Inv : Server → Prop)
    (hserve : ∀ s i, Inv s → Inv (serveSlot r s i)) (is : List (Fin maxClients)) {s : Server}
    (h : Inv s) : Inv (is.foldl (serveSlot r) s) := by
  induction is generalizing s with
  | nil => exact h
  | cons i is ih => exact ih (hserve s i h)

theorem iteration_orderly (r : Results) (s t : Server) (hs : Orderly s) (hroom : RoomAtAccept r s)
    (h : iteration r s = some t) : Orderly t := by
  obtain ⟨hreports, u, hu, rfl⟩ := iteration_some h
  have hzero := zero_not_ready hs.server hreports
  refine serve_all Orderly (fun s i hs => serve_orderly hzero hs i) _ ?_
  rcases accept_cases hu with ⟨-, rfl⟩ | ⟨hready, fd, hfree, hpos, rfl⟩
  · exact hs
  · obtain ⟨i, hi⟩ := hroom hready
    cases hslot : freeSlot s with
    | none => exact absurd hi (free_slot_none hslot i)
    | some j => exact new_connection_orderly hs hpos hfree hslot

theorem iteration_loses (r : Results) (s t : Server) (hs : Orderly s)
    (hfull : ¬ RoomAtAccept r s) (h : iteration r s = some t) : Lost t := by
  obtain ⟨-, u, hu, rfl⟩ := iteration_some h
  refine serve_all Lost (fun s i hs => serve_lost hs i) _ ?_
  unfold RoomAtAccept at hfull
  push Not at hfull
  obtain ⟨hready, hused⟩ := hfull
  rcases accept_cases hu with ⟨hnot, -⟩ | ⟨-, fd, hfree, hpos, rfl⟩
  · exact absurd hready hnot
  · cases hslot : freeSlot s with
    | none => exact new_connection_lost hs hpos hfree hslot
    | some j => exact absurd (by simpa using List.find?_some hslot) (hused j)

theorem iteration_lost (r : Results) (s t : Server) (hs : Lost s) (h : iteration r s = some t) :
    Lost t := by
  obtain ⟨-, u, hu, rfl⟩ := iteration_some h
  refine serve_all Lost (fun s i hs => serve_lost hs i) _ ?_
  rcases accept_cases hu with ⟨-, rfl⟩ | ⟨-, fd, hfree, -, rfl⟩
  · exact hs
  · exact new_connection_stays_lost hs hfree

theorem started_orderly {serverFd : ℕ} (h : 0 < serverFd) : Orderly (started serverFd) := by
  refine ⟨h, distinct_none, fun fd => iff_of_false Bool.false_ne_true ?_⟩
  rintro ⟨i, hi⟩
  exact absurd (slots_some.mp hi).2 (by rw [← (slots_some.mp hi).1]; exact lt_irrefl 0)

/-- After any number of iterations, all the connections accepted so far are
closed or in one slot exactly if each was accepted while a slot was free. -/
theorem connections_kept_iff (serverFd : ℕ) (hserver : 0 < serverFd) (rs : List Results)
    (s : Server) (h : Runs.exec iteration rs (started serverFd) = some s) :
    Kept s ↔ Runs.Along iteration RoomAtAccept rs (started serverFd) := by
  rcases Runs.good_or_broken iteration Orderly Lost iteration_orderly iteration_loses
    iteration_lost (started_orderly hserver) h with ⟨halong, hgood⟩ | ⟨hnot, hlost⟩
  · exact iff_of_true (orderly_kept hgood) halong
  · exact iff_of_false (lost_not_kept hlost) hnot

def connects (fd : ℕ) : Results := ⟨{3}, some fd, fun _ => 1, fun _ => 0⟩

def oneClient : List Results :=
  [connects 4, ⟨{4}, none, fun _ => 1, fun _ => 7⟩, ⟨{4}, none, fun _ => 0, fun _ => 0⟩]

theorem one_client_run : (Runs.exec iteration oneClient (started 3)).isSome = true := by
  decide +kernel

theorem one_client_kept :
    Kept ((Runs.exec iteration oneClient (started 3)).get one_client_run) :=
  (connections_kept_iff 3 (by decide) oneClient _ (Option.some_get one_client_run).symm).mpr
    (by decide +kernel)

def elevenClients : List Results := (List.range' 4 11).map connects

theorem eleven_clients_run : (Runs.exec iteration elevenClients (started 3)).isSome = true := by
  decide +kernel

theorem eleventh_client_lost : ¬ ∀ (rs : List Results) (s : Server),
    Runs.exec iteration rs (started 3) = some s → Kept s := by
  intro h
  refine lost_not_kept ?_ (h elevenClients _ (Option.some_get eleven_clients_run).symm)
  exact ⟨14, 10, by decide, by decide +kernel, by decide +kernel⟩

end ProgSistema.SelectServer
