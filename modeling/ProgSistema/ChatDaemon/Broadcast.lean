import ProgSistema.ChatDaemon.Calls

/-!
# The broadcast

The loop over the slots sends a message to every other slot that is occupied,
up to a send that kills the process. As the slots hold the open connections,
each of these but the sender gets the message once if the loop comes to its end.
-/

set_option autoImplicit false

namespace ProgSistema.ChatDaemon
open CRuntime Descriptors Slots Table

def served (esito : Fin maxClients → Esito) :
    List (Fin maxClients × ℕ) → List (Fin maxClients × ℕ)
  | [] => []
  | slot::slots => slot::if esito slot.1 = .sigpipe then [] else served esito slots

def sendTo (msg : Bytes) (esito : Fin maxClients → Esito) (slot : Fin maxClients × ℕ) : Call :=
  .send slot.2 msg (esito slot.1)

theorem served_initial (esito : Fin maxClients → Esito) (slots : List (Fin maxClients × ℕ)) :
    served esito slots <+: slots := by
  induction slots with
  | nil => exact List.nil_prefix
  | cons slot slots ih =>
    rw [served]
    split
    · exact List.prefix_append [slot] slots
    · exact List.cons_prefix_cons.mpr ⟨rfl, ih⟩

theorem served_iff (esito : Fin maxClients → Esito) (slots : List (Fin maxClients × ℕ)) :
    served esito slots = slots ↔ slots.Pairwise fun slot _ => esito slot.1 ≠ .sigpipe := by
  induction slots with
  | nil => exact iff_of_true rfl List.Pairwise.nil
  | cons slot slots ih =>
    rw [served, List.pairwise_cons, ← ih]
    split
    · rename_i hpipe
      cases slots with
      | nil => simp [served]
      | cons slot' slots =>
        refine iff_of_false (fun heq => ?_) fun h => h.1 slot' (List.mem_cons_self ..) hpipe
        cases List.tail_eq_of_cons_eq heq
    · rename_i hpipe
      simp [hpipe]

theorem served_of_no_sigpipe {esito : Fin maxClients → Esito} {slots : List (Fin maxClients × ℕ)}
    (h : ∀ slot ∈ slots, esito slot.1 ≠ .sigpipe) : served esito slots = slots := by
  apply (served_iff esito slots).mpr
  exact List.pairwise_iff_forall_sublist.mpr fun hsub => h _ (hsub.subset (List.mem_cons_self ..))

section Loop
variable (i : Fin maxClients) (msg : Bytes) (esito : Fin maxClients → Esito)

theorem invia_a_killed {acc : Daemon × ℕ} (h : acc.1.pc = .killed) (js : List (Fin maxClients)) :
    js.foldl (inviaA i msg esito) acc = acc := by
  induction js with
  | nil => rfl
  | cons j js ih =>
    rw [List.foldl_cons, inviaA, if_pos h]
    exact ih

def slotsOf (d : Daemon) (js : List (Fin maxClients)) : List (Fin maxClients × ℕ) :=
  js.filterMap fun j => if j = i then none else (d.clientFds j).map (Prod.mk j)

variable {i} in
theorem invia_a_none {d : Daemon} {n : ℕ} {j : Fin maxClients}
    (h : (if j = i then none else (d.clientFds j).map (Prod.mk j)) = none) :
    inviaA i msg esito (d, n) j = (d, n) := by
  unfold inviaA
  cases hfd : d.clientFds j with
  | none => simp
  | some fd =>
    by_cases hji : j = i
    · simp [hji]
    · simp [hfd, hji] at h

variable {i} in
theorem invia_a_some {d : Daemon} (hpc : d.pc ≠ .killed) {n : ℕ} {j : Fin maxClients}
    {slot : Fin maxClients × ℕ}
    (h : (if j = i then none else (d.clientFds j).map (Prod.mk j)) = some slot) :
    ∃ n', inviaA i msg esito (d, n) j = (send slot.2 msg (esito slot.1) d, n') := by
  obtain ⟨hj, hji, hfd⟩ := other_some.mp h
  rw [hj]
  simp [inviaA, hfd, hji, hpc]

theorem invia_a_spec {d : Daemon} (hpc : d.pc ≠ .killed) (n : ℕ) (js : List (Fin maxClients)) :
    (js.foldl (inviaA i msg esito) (d, n)).1 = { d with
      pc := if (slotsOf i d js).any (esito ·.1 = .sigpipe) then .killed else d.pc,
      calls := d.calls++(served esito (slotsOf i d js)).map (sendTo msg esito) } := by
  induction js generalizing d n with
  | nil => simp [slotsOf, served]
  | cons j js ih =>
    rw [List.foldl_cons, slotsOf, List.filterMap_cons]
    cases hslot : (if j = i then none else (d.clientFds j).map (Prod.mk j)) with
    | none =>
      rw [invia_a_none msg esito hslot]
      exact ih hpc n
    | some slot =>
      obtain ⟨n', hstep⟩ := invia_a_some msg esito hpc (n := n) hslot
      rw [hstep, served]
      by_cases hpipe : esito slot.1 = .sigpipe
      · rw [invia_a_killed i msg esito (if_pos hpipe)]
        simp [send, sendTo, hpipe]
      · have hpc' : (send slot.2 msg (esito slot.1) d).pc = d.pc := if_neg hpipe
        have hslots : slotsOf i (send slot.2 msg (esito slot.1) d) js = slotsOf i d js := rfl
        rw [ih (hpc' ▸ hpc) n', hpc', hslots]
        simp [send, sendTo, hpipe, slotsOf]

/-- After a message either all the other slots have been served and the sender
has its confirmation, or a send has killed the process. -/
theorem inoltra_spec (fd : ℕ) (buffer : Bytes) {d : Daemon} (hpc : d.pc ≠ .killed) :
    ∃ pc tail, inoltra i fd buffer esito d = { d with
        pc := pc,
        calls := d.calls++((served esito (others d.clientFds i)).map
          (sendTo (broadcastMsg i buffer) esito)++tail) } ∧
      (pc = d.pc ∨ pc = .killed) ∧
      ((served esito (others d.clientFds i) = others d.clientFds i ∧
          ∃ sentCount, tail = [.send fd (confirm sentCount) (esito i)]) ∨
        pc = .killed ∧ tail = []) := by
  have hloop : (inviaATutti i (broadcastMsg i buffer) esito d).1 = _ :=
    invia_a_spec i (broadcastMsg i buffer) esito hpc 0 (List.finRange maxClients)
  have hslots : slotsOf i d (List.finRange maxClients) = others d.clientFds i := rfl
  rw [hslots] at hloop
  have hinoltra : inoltra i fd buffer esito d =
      if (inviaATutti i (broadcastMsg i buffer) esito d).1.pc = .killed then
        (inviaATutti i (broadcastMsg i buffer) esito d).1
      else send fd (confirm (inviaATutti i (broadcastMsg i buffer) esito d).2) (esito i)
        (inviaATutti i (broadcastMsg i buffer) esito d).1 := rfl
  rw [hinoltra, hloop]
  by_cases hpipe : (others d.clientFds i).any (esito ·.1 = .sigpipe) = true
  · refine ⟨.killed, [], ?_, Or.inr rfl, Or.inr ⟨rfl, rfl⟩⟩
    simp [hpipe]
  · have hall : served esito (others d.clientFds i) = others d.clientFds i := by
      apply served_of_no_sigpipe
      intro slot hslot heq
      exact hpipe (List.any_eq_true.mpr ⟨slot, hslot, decide_eq_true heq⟩)
    refine ⟨if esito i = .sigpipe then .killed else d.pc,
      [.send fd (confirm (inviaATutti i (broadcastMsg i buffer) esito d).2) (esito i)],
      ?_, ?_, Or.inl ⟨hall, _, rfl⟩⟩
    · simp [hpipe, hpc, send]
    · split
      · exact Or.inr rfl
      · exact Or.inl rfl

end Loop

/-- The buffer of the broadcast is large enough for any message. -/
theorem broadcast_msg_fits {i : Fin maxClients} {buffer : Bytes}
    (h : buffer.length ≤ bufferSize-1) : broadcastMsg i buffer = messaggio i buffer := by
  have hi : (i : ℕ) < 10^2 := i.isLt.trans (by decide)
  have hnum := decimal_length (by decide) hi
  have hstr : (cstr buffer).length ≤ buffer.length := (List.takeWhile_sublist _).length_le
  have hsize : bufferSize = 1024 := rfl
  have hopen : (text "[Client").length = 7 := by decide
  have hclose : (text "]: ").length = 3 := by decide
  apply snprintf_fits
  simp only [List.length_append]
  omega

theorem confirm_head (sentCount : ℕ) : (confirm sentCount).head? = some 226 := rfl

theorem messaggio_ne_confirm (i : Fin maxClients) (buffer : Bytes) (sentCount : ℕ) :
    messaggio i buffer ≠ confirm sentCount := by
  intro heq
  have hhead : (messaggio i buffer).head? = some 91 := rfl
  rw [heq, confirm_head] at hhead
  cases hhead

section Sends
variable {esito : Fin maxClients → Esito} {msg : Bytes} {slots : List (Fin maxClients × ℕ)}

theorem sends_of_slots : ∀ c ∈ slots.map (sendTo msg esito),
    ∃ fd bytes esito, c = .send fd bytes esito := by
  intro c hc
  obtain ⟨slot, -, rfl⟩ := List.mem_map.mp hc
  exact ⟨slot.2, msg, esito slot.1, rfl⟩

theorem replies_of_slots (tail : List Call) : replies (slots.map (sendTo msg esito)++tail) =
    slots.map (fun slot => (slot.2, msg))++replies tail := by
  induction slots with
  | nil => rfl
  | cons slot slots ih => exact congrArg (List.cons (slot.2, msg)) ih

end Sends

section Messages
variable {d : Daemon} (hdistinct : Distinct d.clientFds) {i : Fin maxClients} {fd : ℕ}
  (hi : d.clientFds i = some fd) {buffer : Bytes} {tail : List (ℕ × Bytes)}
  (htail : ∀ send ∈ tail, ∃ sentCount, send = (fd, confirm sentCount))

include htail in
theorem count_confirmed {fd' : ℕ} (hne : fd' ≠ fd) : tail.count (fd', messaggio i buffer) = 0 := by
  apply List.count_eq_zero_of_not_mem
  intro hmem
  obtain ⟨sentCount, heq⟩ := htail _ hmem
  exact hne (Prod.mk.inj heq).1

include hdistinct hi htail

/-- A loop that has come to its end has delivered the message. -/
theorem delivered_of_all : Delivered (occupied d.clientFds) i fd buffer
    ((others d.clientFds i).map (fun slot => (slot.2, messaggio i buffer))++tail) := by
  have hother : ∀ slot ∈ others d.clientFds i, slot.2 ≠ fd := by
    rintro ⟨j, fd'⟩ hmem rfl
    obtain ⟨hji, hj⟩ := mem_others.mp hmem
    exact hji (hdistinct j i _ hj hi)
  refine ⟨?_, ?_, ?_, ?_⟩
  · intro fd' hmem hne
    obtain ⟨j, hj⟩ := mem_occupied.mp hmem
    have hji : j ≠ i := by
      rintro rfl
      rw [hi] at hj
      exact hne (Option.some.inj hj).symm
    rw [List.count_append, count_confirmed htail hne]
    apply List.count_eq_one_of_mem
    · refine List.Nodup.map_on ?_ (others_nodup d.clientFds i)
      rintro ⟨j₁, fd₁⟩ h₁ ⟨j₂, fd₂⟩ h₂ heq
      obtain rfl : fd₁ = fd₂ := (Prod.mk.inj heq).1
      rw [hdistinct j₁ j₂ fd₁ (mem_others.mp h₁).2 (mem_others.mp h₂).2]
    · exact List.mem_map.mpr ⟨(j, fd'), mem_others.mpr ⟨hji, hj⟩, rfl⟩
  · intro send hsend hne
    rcases List.mem_append.mp hsend with hmem | hmem
    · obtain ⟨⟨j, fd'⟩, hslot, rfl⟩ := List.mem_map.mp hmem
      exact ⟨mem_occupied.mpr ⟨j, (mem_others.mp hslot).2⟩, rfl⟩
    · obtain ⟨sentCount, rfl⟩ := htail send hmem
      exact absurd rfl hne
  · intro send hsend heq
    rcases List.mem_append.mp hsend with hmem | hmem
    · obtain ⟨slot, hslot, rfl⟩ := List.mem_map.mp hmem
      exact absurd heq (hother slot hslot)
    · obtain ⟨sentCount, rfl⟩ := htail send hmem
      exact ⟨sentCount, rfl⟩
  · intro hmem
    rcases List.mem_append.mp hmem with hmem | hmem
    · obtain ⟨slot, hslot, heq⟩ := List.mem_map.mp hmem
      exact hother slot hslot (Prod.mk.inj heq).1
    · obtain ⟨sentCount, heq⟩ := htail _ hmem
      exact messaggio_ne_confirm i buffer sentCount (Prod.mk.inj heq).2

/-- A loop that has been cut short has left out a client. -/
theorem not_delivered_of_cut {slots : List (Fin maxClients × ℕ)}
    (hpart : slots <+: others d.clientFds i) (hcut : slots ≠ others d.clientFds i) :
    ¬ Delivered (occupied d.clientFds) i fd buffer
      (slots.map (fun slot => (slot.2, messaggio i buffer))++tail) := by
  intro hdelivered
  obtain ⟨rest, hrest⟩ := hpart
  cases rest with
  | nil => exact hcut (by rw [← hrest, List.append_nil])
  | cons slot rest =>
    obtain ⟨j, fd'⟩ := slot
    have hmem : (j, fd') ∈ others d.clientFds i := by
      rw [← hrest]
      exact List.mem_append_right _ (List.mem_cons_self ..)
    obtain ⟨hji, hj⟩ := mem_others.mp hmem
    have hne : fd' ≠ fd := by
      rintro rfl
      exact hji (hdistinct j i _ hj hi)
    have hnodup : (slots++(j, fd')::rest).Nodup := hrest ▸ others_nodup d.clientFds i
    have hslots : (j, fd') ∉ slots := by
      intro hold
      exact (List.nodup_append'.mp hnodup).2.2 hold (List.mem_cons_self ..)
    have honce := hdelivered.once fd' (mem_occupied.mpr ⟨j, hj⟩) hne
    rw [List.count_append, count_confirmed htail hne, add_zero] at honce
    have hsent := List.count_pos_iff.mp (honce ▸ Nat.one_pos)
    obtain ⟨⟨k, fd''⟩, hk, heq⟩ := List.mem_map.mp hsent
    obtain rfl : fd'' = fd' := (Prod.mk.inj heq).1
    have hkslot : d.clientFds k = some fd'' := by
      apply (mem_others.mp (?_ : (k, fd'') ∈ others d.clientFds i)).2
      rw [← hrest]
      exact List.mem_append_left _ hk
    rw [hdistinct k j fd'' hkslot hj] at hk
    exact hslots hk

end Messages

/-- A message has been delivered exactly if the loop has come to all the slots,
and otherwise the process has been killed. -/
theorem gestisci_spec {d : Daemon} (hpc : d.pc ≠ .killed) (hdistinct : Distinct d.clientFds)
    {i : Fin maxClients} {fd : ℕ} (hi : d.clientFds i = some fd) {buffer : Bytes}
    (hbuffer : buffer ≠ []) (hlen : buffer.length ≤ bufferSize-1)
    (esito : Fin maxClients → Esito) :
    ∃ pc sends, gestisci i fd buffer esito d = { d with
        pc := pc, calls := d.calls++.recv i fd buffer::sends } ∧
      (pc = d.pc ∨ pc = .killed) ∧
      (∀ c ∈ sends, ∃ fd bytes esito, c = .send fd bytes esito) ∧
      (served esito (others d.clientFds i) = others d.clientFds i →
        Delivered (occupied d.clientFds) i fd buffer (replies sends)) ∧
      (served esito (others d.clientFds i) ≠ others d.clientFds i → pc = .killed ∧
        ¬ Delivered (occupied d.clientFds) i fd buffer (replies sends)) := by
  have hgestisci : gestisci i fd buffer esito d =
      inoltra i fd buffer esito { d with calls := d.calls++[.recv i fd buffer] } := if_neg hbuffer
  obtain ⟨pc, tail, hinoltra, hmoved, hend⟩ :=
    inoltra_spec i esito fd buffer (d := { d with calls := d.calls++[.recv i fd buffer] }) hpc
  rw [broadcast_msg_fits hlen] at hinoltra
  dsimp only at hinoltra hmoved hend
  have htail : ∀ c ∈ tail, ∃ fd bytes esito, c = .send fd bytes esito := by
    rcases hend with ⟨-, sentCount, rfl⟩ | ⟨-, rfl⟩
    · intro c hc
      exact ⟨fd, _, _, List.mem_singleton.mp hc⟩
    · intro c hc
      cases hc
  have hconfirm : ∀ send ∈ replies tail, ∃ sentCount, send = (fd, confirm sentCount) := by
    rcases hend with ⟨-, sentCount, rfl⟩ | ⟨-, rfl⟩
    · intro send hsend
      exact ⟨sentCount, List.mem_singleton.mp hsend⟩
    · intro send hsend
      cases hsend
  refine ⟨pc, (served esito (others d.clientFds i)).map (sendTo (messaggio i buffer) esito)++tail,
    ?_, hmoved, ?_, ?_, ?_⟩
  · rw [hgestisci, hinoltra, List.append_assoc, List.cons_append, List.nil_append]
  · intro c hc
    rcases List.mem_append.mp hc with hmem | hmem
    · exact sends_of_slots c hmem
    · exact htail c hmem
  · intro hall
    rw [replies_of_slots, hall]
    exact delivered_of_all hdistinct hi hconfirm
  · intro hcut
    rw [replies_of_slots]
    refine ⟨?_, not_delivered_of_cut hdistinct hi hconfirm (served_initial _ _) hcut⟩
    rcases hend with ⟨hall, -⟩ | ⟨hkilled, -⟩
    · exact absurd hall hcut
    · exact hkilled

end ProgSistema.ChatDaemon
