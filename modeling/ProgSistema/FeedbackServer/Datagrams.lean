import ProgSistema.FeedbackServer.Windows

/-!
# What a short datagram leaves behind

The variable `msg` is the same in every turn, and a datagram shorter than it
overwrites its beginning only. What is stored for such a datagram takes the rest
of its time from the datagrams before it, or from the stack if it is the first.
Whether a whole datagram is stored at all depends on those before it as soon as
they can have filled the array.
-/

set_option autoImplicit false

namespace ProgSistema.FeedbackServer
open ArrayPrefix CRuntime Runs

def storedPair (b : Bytes) (s : Server) : Option Messaggio :=
  if s.numMessaggi < maxMessaggi then (accepted b s).map Prod.snd else none

/-- The pair is appended to the array, before old messages may be dropped. -/
theorem receive_stored (ora : ℤ) (b : Bytes) (s : Server) :
    ∃ received : Server, received.stored = s.stored++(storedPair b s).toList ∧
      (receive ora b s = received ∨ receive ora b s = pulisciSeNecessario ora received) := by
  unfold receive storedPair
  cases haccepted : accepted b s with
  | none =>
    refine ⟨{ s with msg := recvfrom b s.msg }, ?_, Or.inl rfl⟩
    rw [Option.map_none, ite_self]
    exact (List.append_nil _).symm
  | some p =>
    refine ⟨_, ?_, Or.inr rfl⟩
    rw [memorizza_stored]
    show s.stored++(if s.numMessaggi < maxMessaggi then [p.2] else []) = _
    split <;> rfl

inductive SameTurn : Event → Event → Prop
  | datagram (b b' : Bytes) (oraPulizia oraCorrente : ℤ) :
      SameTurn (.datagram b oraPulizia oraCorrente) (.datagram b' oraPulizia oraCorrente)
  | idle (oraCorrente : ℤ) : SameTurn (.idle oraCorrente) (.idle oraCorrente)

def Event.isDatagram : Event → Bool
  | .datagram .. => true
  | .idle _ => false

/-- Of two runs that differ only in the `k` datagrams before a datagram, both
store the same for it, or both nothing. -/
def Independent (k : ℕ) (b : Bytes) : Prop :=
  ∀ (msg : MessaggioT) (inizioLezione : ℤ) (before before' : List Event) (l l' : Lesson),
    before.countP Event.isDatagram = k → List.Forall₂ SameTurn before before' →
    exec step before (begun msg inizioLezione) = some l →
    exec step before' (begun msg inizioLezione) = some l' →
    storedPair b l.server = storedPair b l'.server

/-- While there is room in the array, what is stored for a datagram is a function
of its bytes. -/
def Determined (b : Bytes) : Prop :=
  ∃ stored : Option Messaggio,
    ∀ (msg : MessaggioT) (inizioLezione : ℤ) (before : List Event) (l : Lesson),
      exec step before (begun msg inizioLezione) = some l →
      l.server.numMessaggi < maxMessaggi → storedPair b l.server = stored

def Named (b : Bytes) : Prop := (b.head?.bind charToIndex).isSome = true

theorem recvfrom_whole {b : Bytes} (h : 16 ≤ b.length) (msg msg' : MessaggioT) :
    recvfrom b msg = recvfrom b msg' := by
  funext i
  have hi : (i : ℕ) < b.length := by omega
  rw [recvfrom, recvfrom, List.getD_eq_getElem?_getD, List.getD_eq_getElem?_getD,
    List.getElem?_eq_getElem hi]
  rfl

/-- The category is always the datagram's own. -/
theorem accepted_cases (b : Bytes) (s : Server) : accepted b s =
    (b.head?.bind charToIndex).map fun idx => (idx, messaggio (recvfrom b s.msg)) := by
  unfold accepted
  cases b with
  | nil => rfl
  | cons c b => rfl

theorem stored_of_unnamed {b : Bytes} (h : ¬ Named b) (s : Server) : storedPair b s = none := by
  unfold storedPair
  rw [accepted_cases, Option.not_isSome_iff_eq_none.mp h]
  exact ite_self _

theorem stored_of_room {b : Bytes} {s : Server} (h : Named b) (hroom : s.numMessaggi < maxMessaggi) :
    storedPair b s = some (messaggio (recvfrom b s.msg)) := by
  obtain ⟨idx, hidx⟩ := Option.isSome_iff_exists.mp h
  unfold storedPair
  rw [if_pos hroom, accepted_cases, hidx]
  rfl

theorem determined_of_complete {b : Bytes} (h : Named b → 16 ≤ b.length) : Determined b := by
  by_cases hnamed : Named b
  · refine ⟨some (messaggio (recvfrom b fun _ => 0)), fun msg inizio before l _ hroom => ?_⟩
    rw [stored_of_room hnamed hroom, recvfrom_whole (h hnamed) l.server.msg fun _ => 0]
  · exact ⟨none, fun _ _ _ l _ _ => stored_of_unnamed hnamed l.server⟩

section Room

theorem iteration_le (e : Event) (s : Server) :
    (iteration e s).numMessaggi ≤ s.numMessaggi+(if e.isDatagram then 1 else 0) := by
  cases e with
  | idle oraCorrente => exact le_rfl
  | datagram b oraPulizia oraCorrente =>
    show (receive oraPulizia b s).numMessaggi ≤ s.numMessaggi+1
    obtain ⟨received, hstored, hreceive⟩ := receive_stored oraPulizia b s
    have hle : received.numMessaggi ≤ s.numMessaggi+1 := by
      rw [← stored_length, hstored, List.length_append, stored_length]
      cases storedPair b s <;> simp
    rcases hreceive with heq | heq
    · rw [heq]
      exact hle
    · rw [heq]
      unfold pulisciSeNecessario
      split
      · exact (compact_le _ _ _).trans hle
      · exact hle

/-- There are at most as many messages in the array as there were datagrams. -/
theorem exec_le {before : List Event} {l l' : Lesson} (h : exec step before l = some l') :
    l'.server.numMessaggi ≤ l.server.numMessaggi+before.countP Event.isDatagram := by
  induction before generalizing l with
  | nil =>
    cases h
    exact le_rfl
  | cons e before ih =>
    obtain ⟨u, hu, hrest⟩ := Option.bind_eq_some_iff.mp h
    have hfirst := iteration_le e l.server
    rw [← step_iteration hu] at hfirst
    have hlater := ih hrest
    rw [List.countP_cons]
    omega

end Room

theorem independent_of_complete {b : Bytes} {k : ℕ}
    (h : Named b → 16 ≤ b.length ∧ k < maxMessaggi) : Independent k b := by
  intro msg inizio before before' l l' hcount hsame hrun hrun'
  by_cases hnamed : Named b
  · obtain ⟨hlength, hk⟩ := h hnamed
    have hcount' : before'.countP Event.isDatagram = k := by
      rw [← hcount]
      clear hcount hrun hrun'
      induction hsame with
      | nil => rfl
      | cons hturn _ ih =>
        rw [List.countP_cons, List.countP_cons, ih]
        cases hturn <;> rfl
    have hroom := exec_le hrun
    have hroom' := exec_le hrun'
    rw [hcount] at hroom
    rw [hcount'] at hroom'
    have hstart : (begun msg inizio).server.numMessaggi = 0 := rfl
    rw [stored_of_room hnamed (by omega), stored_of_room hnamed (by omega),
      recvfrom_whole hlength l.server.msg l'.server.msg]
  · rw [stored_of_unnamed hnamed, stored_of_unnamed hnamed]

section Stale

def low : MessaggioT := fun _ => 0

def high : MessaggioT := fun i => if i.val = 15 then 1 else 0

theorem last_byte (f : Fin 8 → UInt8) : littleEndian (List.ofFn f) =
    littleEndian (List.ofFn fun i : Fin 7 => f i.castSucc)+256^7*(f 7).toNat := by
  rw [List.ofFn_succ', List.concat_eq_append, little_endian_append, List.length_ofFn]
  rfl

theorem time_differs (f g : Fin 8 → UInt8) (hsame : ∀ i : Fin 7, f i.castSucc = g i.castSucc)
    (hf : f 7 = 0) (hg : g 7 = 1) :
    toLong (littleEndian (List.ofFn f)) ≠ toLong (littleEndian (List.ofFn g)) := by
  have hlt := little_endian_lt (List.ofFn fun i : Fin 7 => f i.castSucc)
  rw [List.length_ofFn] at hlt
  rw [last_byte f, last_byte g, ← funext hsame, hf, hg]
  unfold toLong
  rw [Int.bmod_def, Int.bmod_def]
  simp only [UInt8.toNat_zero, UInt8.toNat_one]
  omega

/-- The last byte of the time is not the datagram's. -/
theorem stale_time {b : Bytes} (h : b.length < 16) :
    messaggio (recvfrom b low) ≠ messaggio (recvfrom b high) := by
  intro heq
  have hlast : ∀ msg : MessaggioT, recvfrom b msg (Fin.natAdd 8 (7 : Fin 8)) = msg 15 := by
    intro msg
    have hnone : b[(15 : ℕ)]? = none := List.getElem?_eq_none (by omega)
    show b.getD 15 (msg 15) = msg 15
    rw [List.getD_eq_getElem?_getD, hnone]
    rfl
  have hhigh : high 15 = 1 := if_pos rfl
  have htime : ∀ i : Fin 7, recvfrom b low (i.castSucc.natAdd 8) =
      recvfrom b high (i.castSucc.natAdd 8) := by
    intro i
    have hne : (i.castSucc.natAdd 8).val ≠ 15 := by
      show 8+(i : ℕ) ≠ 15
      omega
    have hsame : high (i.castSucc.natAdd 8) = low (i.castSucc.natAdd 8) := if_neg hne
    rw [recvfrom, recvfrom, hsame]
  have htimestamp := congrArg Messaggio.timestamp heq
  simp only [messaggio] at htimestamp
  exact time_differs (fun i => recvfrom b low (i.natAdd 8)) (fun i => recvfrom b high (i.natAdd 8))
    htime (hlast low) ((hlast high).trans hhigh) htimestamp

def filler (msg : MessaggioT) (ora : ℤ) : Event := .datagram (List.ofFn msg) ora ora

theorem recvfrom_of_fn (msg before : MessaggioT) : recvfrom (List.ofFn msg) before = msg := by
  funext i
  rw [recvfrom, List.getD_eq_getElem?_getD, List.getElem?_ofFn]
  simp

theorem filler_step (msg : MessaggioT) (hmsg : charToIndex (msg 0) = none) (l : Lesson) :
    ∃ l', step (filler msg l.clock) l = some l' ∧ l'.clock = l.clock ∧
      l'.server.numMessaggi = l.server.numMessaggi ∧ l'.server.msg = msg := by
  have hnone : accepted (List.ofFn msg) l.server = none := by
    rw [accepted_cases, List.ofFn_succ, List.head?_cons, Option.bind_some, hmsg]
    rfl
  have hserver : receive l.clock (List.ofFn msg) l.server = { l.server with msg := msg } := by
    unfold receive
    rw [hnone, recvfrom_of_fn]
  refine ⟨_, if_pos ⟨le_rfl, le_rfl⟩, rfl, ?_, ?_⟩
  · show (l.receive l.clock (List.ofFn msg)).server.numMessaggi = _
    rw [receive_server, hserver]
  · show (l.receive l.clock (List.ofFn msg)).server.msg = _
    rw [receive_server, hserver]

theorem filler_run (msg : MessaggioT) (hmsg : charToIndex (msg 0) = none) (k : ℕ) (l : Lesson) :
    ∃ l', exec step (List.replicate (k+1) (filler msg l.clock)) l = some l' ∧
      l'.clock = l.clock ∧ l'.server.numMessaggi = l.server.numMessaggi ∧ l'.server.msg = msg := by
  induction k with
  | zero =>
    obtain ⟨l', hstep, hspec⟩ := filler_step msg hmsg l
    exact ⟨l', by rw [List.replicate_one, exec, hstep]; rfl, hspec⟩
  | succ k ih =>
    obtain ⟨l₁, hrun, hclock₁, hnum₁, -⟩ := ih
    obtain ⟨l', hstep, hclock, hnum, hfilled⟩ := filler_step msg hmsg l₁
    refine ⟨l', ?_, hclock.trans hclock₁, hnum.trans hnum₁, hfilled⟩
    rw [hclock₁] at hstep
    rw [List.replicate_succ', exec_append, hrun, Option.bind_some, exec, hstep]
    rfl

theorem fillers_same (msg msg' : MessaggioT) (ora : ℤ) (k : ℕ) :
    List.Forall₂ SameTurn (List.replicate k (filler msg ora))
      (List.replicate k (filler msg' ora)) := by
  induction k with
  | zero => exact .nil
  | succ k ih => exact .cons (.datagram _ _ _ _) ih

theorem short_dependent {b : Bytes} (hnamed : Named b) (hshort : b.length < 16) (k : ℕ) :
    ¬ Independent (k+1) b := by
  intro hindependent
  obtain ⟨l, hrun, -, hnum, hmsg⟩ := filler_run low rfl k (begun low 0)
  obtain ⟨l', hrun', -, hnum', hmsg'⟩ := filler_run high rfl k (begun low 0)
  have hstart : (begun low 0).server.numMessaggi < maxMessaggi := by decide
  have hpair := hindependent low 0 _ _ l l' (by rw [List.countP_replicate]; rfl)
    (fillers_same low high 0 (k+1)) hrun hrun'
  rw [stored_of_room hnamed (hnum ▸ hstart), stored_of_room hnamed (hnum' ▸ hstart), hmsg,
    hmsg'] at hpair
  exact stale_time hshort (Option.some.inj hpair)

theorem complete_of_determined {b : Bytes} (h : Determined b) (hnamed : Named b) :
    16 ≤ b.length := by
  obtain ⟨stored, hstored⟩ := h
  by_contra hshort
  have hpos : 0 < maxMessaggi := by decide
  have hstart : ∀ msg, (begun msg 0).server.numMessaggi < maxMessaggi := fun _ => hpos
  have hlow := hstored low 0 [] _ rfl (hstart low)
  have hhigh := hstored high 0 [] _ rfl (hstart high)
  rw [stored_of_room hnamed (hstart low)] at hlow
  rw [stored_of_room hnamed (hstart high), ← hlow] at hhigh
  exact stale_time (not_le.mp hshort) (Option.some.inj hhigh).symm

end Stale

section Full

def marker : MessaggioT := fun i => if i.val = 0 then 65 else 0

def fill (n : ℕ) : List Messaggio := List.replicate n ⟨65, 0⟩

/-- A message more is stored while there is room, and none is ever old. -/
theorem marker_step {l : Lesson} {n : ℕ} (hclock : l.clock = 0) (hstored : l.server.stored = fill n)
    (hn : n ≤ maxMessaggi) : ∃ l', step (filler marker 0) l = some l' ∧ l'.clock = 0 ∧
      l'.server.stored = fill (min (n+1) maxMessaggi) := by
  have hnum : l.server.numMessaggi = n := by
    rw [← stored_length, hstored]
    exact List.length_replicate
  have hmarker : messaggio (recvfrom (List.ofFn marker) l.server.msg) = ⟨65, 0⟩ := by
    rw [recvfrom_of_fn]
    decide
  have hpair : storedPair (List.ofFn marker) l.server =
      if n < maxMessaggi then some ⟨65, 0⟩ else none := by
    rw [storedPair, hnum, accepted_cases, Option.map_map]
    have hname : (List.ofFn marker).head?.bind charToIndex = some 0 := by decide
    rw [hname, Option.map_some, Function.comp_apply, hmarker]
  have hnext : fill n++(storedPair (List.ofFn marker) l.server).toList =
      fill (min (n+1) maxMessaggi) := by
    rw [hpair]
    split
    · rename_i hroom
      rw [min_eq_left hroom]
      exact List.replicate_succ'.symm
    · rename_i hfull
      rw [show min (n+1) maxMessaggi = n by omega]
      exact List.append_nil _
  obtain ⟨received, hreceived, hreceive⟩ := receive_stored 0 (List.ofFn marker) l.server
  rw [hstored, hnext] at hreceived
  have hkept : (receive 0 (List.ofFn marker) l.server).stored = fill (min (n+1) maxMessaggi) := by
    rcases hreceive with heq | heq
    · rw [heq, hreceived]
    · rw [heq, pulisciSeNecessario]
      split
      · rw [pulisci_stored, hreceived]
        exact List.filter_eq_self.mpr fun m hm => by
          rw [List.eq_of_mem_replicate hm]
          rfl
      · exact hreceived
  refine ⟨_, if_pos ⟨hclock.le, le_rfl⟩, rfl, ?_⟩
  show (l.receive 0 (List.ofFn marker)).server.stored = _
  rw [receive_server, hkept]

theorem marker_run (k : ℕ) : ∃ l, exec step (List.replicate k (filler marker 0)) (begun low 0) =
    some l ∧ l.clock = 0 ∧ l.server.stored = fill (min k maxMessaggi) := by
  induction k with
  | zero => exact ⟨_, rfl, rfl, rfl⟩
  | succ k ih =>
    obtain ⟨l, hrun, hclock, hstored⟩ := ih
    obtain ⟨l', hstep, hclock', hstored'⟩ := marker_step hclock hstored (min_le_right _ _)
    refine ⟨l', ?_, hclock', ?_⟩
    · rw [List.replicate_succ', exec_append, hrun, Option.bind_some, exec, hstep]
      rfl
    · rw [hstored']
      congr 1
      omega

/-- Where the array can be full, a whole message may be dropped. -/
theorem full_dependent {b : Bytes} (hnamed : Named b) {k : ℕ} (hk : maxMessaggi ≤ k+1) :
    ¬ Independent (k+1) b := by
  intro hindependent
  obtain ⟨l, hrun, -, hstored⟩ := marker_run (k+1)
  obtain ⟨l', hrun', -, hnum', -⟩ := filler_run low rfl k (begun low 0)
  have hfull : ¬ l.server.numMessaggi < maxMessaggi := by
    rw [← stored_length, hstored, fill, List.length_replicate]
    omega
  have hroom : l'.server.numMessaggi < maxMessaggi := hnum' ▸ (by decide : 0 < maxMessaggi)
  have hpair := hindependent low 0 _ _ l l' (by rw [List.countP_replicate]; rfl)
    (fillers_same marker low 0 (k+1)) hrun hrun'
  rw [storedPair, if_neg hfull, stored_of_room hnamed hroom] at hpair
  cases hpair

end Full

theorem same_without_datagrams {before before' : List Event}
    (h : List.Forall₂ SameTurn before before') (hcount : before.countP Event.isDatagram = 0) :
    before = before' := by
  induction h with
  | nil => rfl
  | cons hturn _ ih =>
    cases hturn with
    | datagram => simp [Event.isDatagram] at hcount
    | idle ora => rw [ih hcount]

/-- Runs that differ before a datagram store the same for it exactly if no
datagram comes before it, or it names no category, or it is a whole message and
fewer datagrams come before it than the array has places. While there is room,
those that name no category and the whole messages are exactly the datagrams
whose bytes determine what is stored. -/
theorem pair_independent_iff (b : Bytes) :
    (∀ k, Independent k b ↔ k = 0 ∨ (Named b → 16 ≤ b.length ∧ k < maxMessaggi)) ∧
      (Determined b ↔ (Named b → 16 ≤ b.length)) := by
  refine ⟨fun k => ?_, complete_of_determined, determined_of_complete⟩
  cases k with
  | zero =>
    refine iff_of_true ?_ (Or.inl rfl)
    intro msg inizio before before' l l' hcount hsame hrun hrun'
    rw [← same_without_datagrams hsame hcount, hrun] at hrun'
    cases hrun'
    rfl
  | succ k =>
    refine ⟨fun h => Or.inr fun hnamed => ⟨?_, ?_⟩, fun h => ?_⟩
    · by_contra hshort
      exact short_dependent hnamed (not_le.mp hshort) k h
    · by_contra hfull
      exact full_dependent hnamed (not_lt.mp hfull) h
    · exact independent_of_complete (h.resolve_left (Nat.succ_ne_zero k))

def applausoTardi : Bytes := [65, 0, 0, 0, 0, 0, 0, 0, 5, 0xf1, 0x53, 0x65, 0, 0, 0, 0]

def afterOne (b : Bytes) : Option Lesson :=
  exec step [.datagram b 1700000010 1700000010] (begun (fun _ => 0) 1700000000)

theorem applauso_runs : (afterOne applauso).isSome = true := by
  decide

theorem applauso_tardi_runs : (afterOne applausoTardi).isSome = true := by
  decide

/-- A datagram of one byte is stored with the time of the one before it. -/
theorem one_byte_dependent : ¬ ∀ k b, Independent k b := by
  intro h
  have htimes := h 1 [66] (fun _ => 0) 1700000000 [.datagram applauso 1700000010 1700000010]
      [.datagram applausoTardi 1700000010 1700000010] ((afterOne applauso).get applauso_runs)
      ((afterOne applausoTardi).get applauso_tardi_runs) rfl (.cons (.datagram _ _ _ _) .nil)
      (Option.some_get applauso_runs).symm (Option.some_get applauso_tardi_runs).symm
  revert htimes
  decide

end ProgSistema.FeedbackServer
