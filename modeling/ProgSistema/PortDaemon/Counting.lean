import ProgSistema.PortDaemon.Model
import ProgSistema.Lib.Runs

/-!
# The count of clients

The table only grows: a client that leaves keeps its place, and the count goes
on counting it. What the count is above the number of active clients is the
number of clients that have left.
-/

set_option autoImplicit false

namespace ProgSistema.PortDaemon
open ArrayPrefix CRuntime Runs

def Reported (k : Sockets) (d : Daemon) : Prop :=
  d.numClients = connessi d ∧ ∀ durata,
    (stampaStatistiche k durata d)[4]? =
      some (text "Client attualmente connessi: "++decimal (connessi d))

/-- Connections have been refused only while all the clients were connected. -/
def RefusedWhenFull (d : Daemon) : Prop := ∀ n ∈ d.refused, n = maxClients

def Disconnects : Event → Prop
  | .recv buffer _ => buffer = []
  | _ => False

instance : ∀ e : Event, Decidable (Disconnects e)
  | .recv buffer _ => inferInstanceAs (Decidable (buffer = []))
  | .io | .select _ | .selectFails _ | .accept _ | .signal => inferInstanceAs (Decidable False)

structure Untouched (d d' : Daemon) : Prop where
  clients : d'.clients = d.clients
  numClients : d'.numClients = d.numClients
  refused : d'.refused = d.refused

inductive Change (e : Event) (d d' : Daemon) : Prop where
  | none (hstays : ¬ Disconnects e) (h : Untouched d d')
  | refusal (hstays : ¬ Disconnects e) (hfull : maxClients ≤ d.numClients)
      (hclients : d'.clients = d.clients) (hnum : d'.numClients = d.numClients)
      (hrefused : d'.refused = d.refused++[connessi d])
  | arrival (hstays : ¬ Disconnects e) (hroom : d.numClients < maxClients) (c : ClientInfo)
      (hactive : c.attivo = true) (hclients : d'.clients = Function.update d.clients d.numClients c)
      (hnum : d'.numClients = d.numClients+1) (hrefused : d'.refused = d.refused)
  | departure (hleaves : Disconnects e) (i : ℕ) (hi : i < d.numClients)
      (hactive : (d.clients i).attivo = true)
      (hclients : d'.clients = Function.update d.clients i { d.clients i with attivo := false })
      (hnum : d'.numClients = d.numClients) (hrefused : d'.refused = d.refused)

theorem io_untouched {k : Sockets} {d d' : Daemon} (h : ioMultiplexingThread k d = some d') :
    Untouched d d' := by
  unfold ioMultiplexingThread at h
  cases hpc : d.pc with
  | loopTest =>
    rw [hpc] at h
    dsimp only at h
    split at h <;> cases h <;> exact ⟨rfl, rfl, rfl⟩
  | listening i | serving i =>
    rw [hpc] at h
    dsimp only at h
    split at h
    · cases h
      exact ⟨rfl, rfl, rfl⟩
    · split at h
      · cases h
      · cases h
        exact ⟨rfl, rfl, rfl⟩
  | selecting | ended =>
    rw [hpc] at h
    cases h

theorem step_cases {k : Sockets} {e : Event} {d d' : Daemon} (h : step k e d = some d') :
    Change e d d' := by
  cases e with
  | io => exact .none id (io_untouched h)
  | select ready =>
    simp only [step] at h
    split at h
    · cases h
      exact .none id ⟨rfl, rfl, rfl⟩
    · cases h
  | selectFails interrotto =>
    simp only [step] at h
    split at h
    · cases h
      exact .none id ⟨rfl, rfl, rfl⟩
    · cases h
  | accept clientSocket =>
    simp only [step] at h
    split at h
    · split at h
      · cases h
        cases clientSocket with
        | none => exact .none id ⟨rfl, rfl, rfl⟩
        | some fd =>
          by_cases hfull : d.numClients ≥ maxClients
          · simp only [accettaConnessione, if_pos hfull]
            exact .refusal id hfull rfl rfl rfl
          · simp only [accettaConnessione, if_neg hfull, aggiungiClient]
            exact .arrival id (not_le.mp hfull) _ rfl rfl rfl rfl
      · cases h
    · cases h
  | recv buffer inviato =>
    simp only [step] at h
    split at h
    · split at h
      · rename_i i _ hready
        obtain ⟨hi, hserve, -⟩ := hready
        have hactive : (d.clients i).attivo = true := (Bool.and_eq_true_iff.mp hserve).1
        cases h
        by_cases hleaves : buffer = []
        · simp only [gestisciClientData, if_pos hleaves]
          exact .departure hleaves i hi hactive rfl rfl rfl
        · simp only [gestisciClientData, if_neg hleaves]
          cases inviato <;> exact .none hleaves ⟨rfl, rfl, rfl⟩
      · cases h
    · cases h
  | signal =>
    cases h
    exact .none id ⟨rfl, rfl, rfl⟩

def eccesso (d : Daemon) : ℤ := d.numClients-connessi d

theorem connessi_congr {d d' : Daemon} (h : d'.clients = d.clients) : connessi d' = connessi d := by
  unfold connessi
  rw [h]

/-- The count never exceeds the table, no entry behind it is active, and a
refusal can have come too early only by as many clients as are counted too
many. -/
structure Inv (d : Daemon) : Prop where
  fits : d.numClients ≤ maxClients
  behind : ∀ i, d.numClients ≤ i → (d.clients i).attivo = false
  refused : ∀ n ∈ d.refused, n ≤ maxClients ∧ (maxClients : ℤ) ≤ n+eccesso d

theorem inv_started (k : Sockets) : Inv (started k) :=
  ⟨Nat.zero_le _, fun _ _ => rfl, fun _ hn => nomatch hn⟩

def uscita (e : Event) : ℤ := if Disconnects e then 1 else 0

theorem eccesso_step {k : Sockets} {e : Event} {d d' : Daemon} (hi : Inv d)
    (h : step k e d = some d') : eccesso d' = eccesso d+uscita e := by
  unfold eccesso uscita
  cases step_cases h with
  | none hstays hsame =>
    rw [connessi_congr hsame.clients, hsame.numClients, if_neg hstays, add_zero]
  | refusal hstays hfull hclients hnum hrefused =>
    rw [connessi_congr hclients, hnum, if_neg hstays, add_zero]
  | arrival hstays hroom c hactive hclients hnum hrefused =>
    have hcount := count_update ClientInfo.attivo d.clients c hroom
    rw [hi.behind d.numClients le_rfl, hactive, ← hclients] at hcount
    simp only [Bool.toNat_false, Bool.toNat_true] at hcount
    rw [if_neg hstays]
    unfold connessi
    omega
  | departure hleaves i hlt hactive hclients hnum hrefused =>
    have hcount := count_update ClientInfo.attivo d.clients { d.clients i with attivo := false }
      (hlt.trans_le hi.fits)
    rw [hactive, ← hclients] at hcount
    simp only [Bool.toNat_false, Bool.toNat_true] at hcount
    rw [if_pos hleaves]
    unfold connessi
    omega

theorem eccesso_le {k : Sockets} {e : Event} {d d' : Daemon} (hi : Inv d)
    (h : step k e d = some d') : eccesso d ≤ eccesso d' := by
  rw [eccesso_step hi h]
  unfold uscita
  split <;> omega

theorem refused_step {k : Sockets} {e : Event} {d d' : Daemon} (hi : Inv d)
    (h : step k e d = some d') :
    ∀ n ∈ d'.refused, n ≤ maxClients ∧ (maxClients : ℤ) ≤ n+eccesso d' := by
  have hle := eccesso_le hi h
  have hold : ∀ n ∈ d.refused, n ≤ maxClients ∧ (maxClients : ℤ) ≤ n+eccesso d' := by
    intro n hn
    obtain ⟨hfits, hmany⟩ := hi.refused n hn
    exact ⟨hfits, by omega⟩
  cases step_cases h with
  | none _ hsame => rwa [hsame.refused]
  | arrival _ _ _ _ _ _ hrefused | departure _ _ _ _ _ _ hrefused => rwa [hrefused]
  | refusal _ hfull hclients hnum hrefused =>
    have hlen : connessi d ≤ maxClients :=
      List.countP_le_length.trans_eq (contents_length d.clients maxClients)
    have hcount : eccesso d = d.numClients-connessi d := rfl
    rw [hrefused]
    intro n hn
    rcases List.mem_append.mp hn with hmem | hnew
    · exact hold n hmem
    · rw [List.mem_singleton.mp hnew]
      exact ⟨hlen, by omega⟩

theorem inv_step {k : Sockets} {e : Event} {d d' : Daemon} (hi : Inv d)
    (h : step k e d = some d') : Inv d' := by
  have hrefusals := refused_step hi h
  have hfits := hi.fits
  cases step_cases h with
  | none _ hsame =>
    obtain ⟨hclients, hnum, -⟩ := hsame
    exact ⟨by omega, by rw [hclients, hnum]; exact hi.behind, hrefusals⟩
  | refusal _ hfull hclients hnum hrefused =>
    exact ⟨by omega, by rw [hclients, hnum]; exact hi.behind, hrefusals⟩
  | arrival _ hroom c hactive hclients hnum hrefused =>
    refine ⟨by omega, fun i hle => ?_, hrefusals⟩
    rw [hclients, Function.update_of_ne (by omega)]
    exact hi.behind i (by omega)
  | departure _ i hlt hactive hclients hnum hrefused =>
    refine ⟨by omega, fun j hle => ?_, hrefusals⟩
    rw [hclients, Function.update_of_ne (by omega)]
    exact hi.behind j (by omega)

/-- The clients that have left in a run are still counted at its end. -/
theorem eccesso_run {k : Sockets} {es : List Event} {d : Daemon}
    (h : exec (step k) es (started k) = some d) : eccesso d = (es.map uscita).sum := by
  have hsum := exec_weighs (step k) Inv eccesso uscita (fun _ _ _ hi hstep => inv_step hi hstep)
    (fun _ _ _ hi hstep => eccesso_step hi hstep) (inv_started k) h
  have hnone : eccesso (started k) = 0 := by rfl
  rwa [hnone, zero_add] at hsum

theorem uscite_none (es : List Event) : (es.map uscita).sum = 0 ↔ ∀ e ∈ es, ¬ Disconnects e := by
  induction es with
  | nil => simp
  | cons e es ih =>
    have hpos : 0 ≤ (es.map uscita).sum := by
      apply List.sum_nonneg
      intro x hx
      obtain ⟨e, -, rfl⟩ := List.mem_map.mp hx
      unfold uscita
      split <;> omega
    rw [List.forall_mem_cons, ← ih, List.map_cons, List.sum_cons]
    unfold uscita at hpos ⊢
    by_cases hleaves : Disconnects e
    · rw [if_pos hleaves]
      constructor
      · omega
      · rintro ⟨hstays, -⟩
        exact absurd hleaves hstays
    · rw [if_neg hleaves, zero_add]
      exact (and_iff_right hleaves).symm

theorem reported_iff (k : Sockets) (d : Daemon) : Reported k d ↔ eccesso d = 0 := by
  unfold eccesso
  constructor
  · rintro ⟨hcount, -⟩
    omega
  · intro hcount
    have hnum : d.numClients = connessi d := by omega
    refine ⟨hnum, fun durata => ?_⟩
    rw [← hnum]
    rfl

/-- The places of clients that have left are never given to others: at a
refusal as many are missing from the table as have left. -/
theorem refused_after_departures {k : Sockets} {es : List Event} {d d' : Daemon} {fd : ℕ}
    (h : exec (step k) es (started k) = some d) (hstep : step k (.accept (some fd)) d = some d')
    (hrefused : d'.refused ≠ d.refused) :
    ∃ n : ℕ, d'.refused = d.refused++[n] ∧ (n : ℤ)+(es.map uscita).sum = maxClients := by
  have hinv : Inv d := exec_preserves (step k) Inv (fun _ _ _ hi hs => inv_step hi hs) es _ d
    (inv_started k) h
  rw [← eccesso_run h]
  cases step_cases hstep with
  | none _ hsame => exact absurd hsame.refused hrefused
  | arrival _ _ _ _ _ _ hsame | departure _ _ _ _ _ _ hsame => exact absurd hsame hrefused
  | refusal _ hfull hclients hnum hnew =>
    refine ⟨connessi d, hnew, ?_⟩
    have hfits := hinv.fits
    unfold eccesso
    omega

/-- After a run the statistics give the number of connected clients, and
connections have been refused only when there were `maxClients`, exactly if no
client has left. -/
theorem clients_counted {k : Sockets} {es : List Event} {d : Daemon}
    (h : exec (step k) es (started k) = some d) :
    Reported k d ∧ RefusedWhenFull d ↔ ∀ e ∈ es, ¬ Disconnects e := by
  have hinv : Inv d := exec_preserves (step k) Inv (fun _ _ _ hi hs => inv_step hi hs) es _ d
    (inv_started k) h
  rw [← uscite_none, ← eccesso_run h, reported_iff]
  constructor
  · exact And.left
  · intro hzero
    refine ⟨hzero, fun n hn => ?_⟩
    obtain ⟨hfits, hmany⟩ := hinv.refused n hn
    omega

def samplePorts : Sockets where
  portaBase := 8080
  listeningSocket i := i+3

def clientReady : List Event :=
  .io::.select {3}::.accept (some 13)::(List.replicate 13 .io++.select {13}::List.replicate 11 .io)

def lineSent : List Event := clientReady++[.recv [99, 105, 97, 111, 10] true, .io]

theorem line_sent_run :
    (exec (step samplePorts) lineSent (started samplePorts)).isSome = true := by decide +kernel

theorem line_sent_counted :
    let d := (exec (step samplePorts) lineSent (started samplePorts)).get line_sent_run
    Reported samplePorts d ∧ RefusedWhenFull d :=
  (clients_counted (Option.some_get line_sent_run).symm).mpr (by decide)

def clientLeft : List Event := clientReady++[.recv [] false, .io]

theorem client_left_run :
    (exec (step samplePorts) clientLeft (started samplePorts)).isSome = true := by decide +kernel

/-- The client that has left is reported as connected. -/
theorem departed_counted :
    ∃ d, Reachable (step samplePorts) (started samplePorts) d ∧ connessi d = 0 ∧
      (stampaStatistiche samplePorts 30 d)[4]? = some (text "Client attualmente connessi: 1") ∧
      ¬ (Reported samplePorts d ∧ RefusedWhenFull d) := by
  refine ⟨(exec (step samplePorts) clientLeft (started samplePorts)).get client_left_run,
    reachable_get client_left_run, ?_, ?_, ?_⟩
  · decide +kernel
  · decide +kernel
  · rintro ⟨⟨hcount, -⟩, -⟩
    revert hcount
    decide +kernel

end ProgSistema.PortDaemon
