import ProgSistema.FeedbackServer.Windows

/-!
# The purge is transparent

Dropping the messages older than five minutes changes no window that is
counted from then on, in whatever order the senders' clocks have put the
messages. Messages may be stored in between, as long as there would have been
room for them without the purge.
-/

set_option autoImplicit false

namespace ProgSistema.FeedbackServer
open ArrayPrefix Window

/-- A message before both windows is in no counter. -/
theorem conta_messaggio_old (limite5Min limite1Min : ℤ) (c : Fin 6 → Contatori) (m : Messaggio)
    (h5 : m.timestamp < limite5Min) (h1 : m.timestamp < limite1Min) :
    contaMessaggio limite5Min limite1Min c m = c := by
  unfold contaMessaggio
  cases charToIndex m.tipo with
  | none => rfl
  | some idx =>
    dsimp only
    rw [if_neg (not_le.mpr h5), if_neg (not_le.mpr h1)]
    exact Function.update_eq_self idx c

theorem conta_since {limite limite5Min limite1Min : ℤ} (h5 : limite ≤ limite5Min)
    (h1 : limite ≤ limite1Min) (ms : List Messaggio) (c : Fin 6 → Contatori) :
    (since limite ms).foldl (contaMessaggio limite5Min limite1Min) c =
      ms.foldl (contaMessaggio limite5Min limite1Min) c := by
  rw [since, recent, List.foldl_filter]
  apply List.foldl_ext
  intro c m _
  by_cases hrecent : limite ≤ m.timestamp
  · rw [if_pos (decide_eq_true hrecent)]
  · have hold : m.timestamp < limite := not_le.mp hrecent
    rw [if_neg (by simpa using hold)]
    exact (conta_messaggio_old _ _ c m (hold.trans_le h5) (hold.trans_le h1)).symm

/-- A recount sees only the messages since five minutes before it. -/
theorem aggiorna_contatori_since {s s' : Server} {limite ora : ℤ} (hlimite : limite ≤ ora-300)
    (hcontatori : s.contatori = s'.contatori)
    (hstored : since limite s.stored = since limite s'.stored) :
    (aggiornaContatori ora s).contatori = (aggiornaContatori ora s').contatori := by
  have hone : limite ≤ ora-60 := by omega
  show s.stored.foldl _ _ = s'.stored.foldl _ _
  rw [← conta_since hlimite hone s.stored, hstored, conta_since hlimite hone, hcontatori]

/-- Messages that find room are appended in the order they come. -/
theorem memorizza_all (ms : List Messaggio) (s : Server)
    (hroom : s.numMessaggi+ms.length ≤ maxMessaggi) :
    (ms.foldl (fun s m => memorizza m s) s).stored = s.stored++ms ∧
      (ms.foldl (fun s m => memorizza m s) s).contatori = s.contatori := by
  induction ms generalizing s with
  | nil => exact ⟨(List.append_nil _).symm, rfl⟩
  | cons m ms ih =>
    rw [List.length_cons] at hroom
    have hfits : s.numMessaggi < maxMessaggi := by omega
    have hstored : (memorizza m s).stored = s.stored++[m] := by
      rw [memorizza_stored, if_pos hfits]
    have hnum : (memorizza m s).numMessaggi = s.numMessaggi+1 := by
      rw [← stored_length, hstored, List.length_append, stored_length]
      rfl
    obtain ⟨hrest, hcontatori⟩ := ih (memorizza m s) (by omega)
    rw [List.foldl_cons]
    refine ⟨?_, hcontatori.trans (memorizza_contatori m s)⟩
    rw [hrest, hstored, List.append_assoc]
    rfl

/-- A purge keeps the messages of the last five minutes in their order, and the
counters computed at any later time are those without it. -/
theorem purge_transparent (ora : ℤ) (s : Server) :
    (pulisciMessaggiVecchi ora s).stored =
        s.stored.filter (fun m => m.timestamp ≥ ora-300) ∧
      (∀ ora', ora ≤ ora' → (aggiornaContatori ora' (pulisciMessaggiVecchi ora s)).contatori =
        (aggiornaContatori ora' s).contatori) ∧
      ∀ ora' (ms : List Messaggio), ora ≤ ora' → s.numMessaggi+ms.length ≤ maxMessaggi →
        (aggiornaContatori ora' (ms.foldl (fun s m => memorizza m s)
            (pulisciMessaggiVecchi ora s))).contatori =
          (aggiornaContatori ora' (ms.foldl (fun s m => memorizza m s) s)).contatori := by
  have hsince : since (ora-300) (pulisciMessaggiVecchi ora s).stored =
      since (ora-300) s.stored := by
    rw [pulisci_stored]
    exact recent_recent _ le_rfl _
  refine ⟨pulisci_stored ora s, ?_, ?_⟩
  · intro ora' hlater
    exact aggiorna_contatori_since (by omega) rfl hsince
  · intro ora' ms hlater hroom
    have hle : (pulisciMessaggiVecchi ora s).numMessaggi ≤ s.numMessaggi := compact_le _ _ _
    obtain ⟨hstored, hcontatori⟩ := memorizza_all ms s hroom
    obtain ⟨hstored', hcontatori'⟩ := memorizza_all ms (pulisciMessaggiVecchi ora s) (by omega)
    refine aggiorna_contatori_since (show ora-300 ≤ ora'-300 by omega) ?_ ?_
    · rw [hcontatori, hcontatori']
      rfl
    · rw [hstored, hstored', since, recent_append, since, recent_append]
      exact congrArg (·++_) hsince

def twoStored : Server :=
  { started (fun _ => 0) with
    messaggi := fun i => if i = 0 then ⟨65, 1000⟩ else ⟨66, 1290⟩, numMessaggi := 2 }

theorem old_message_dropped : (pulisciMessaggiVecchi 1310 twoStored).stored = [⟨66, 1290⟩] ∧
    ((aggiornaContatori 1320 (pulisciMessaggiVecchi 1310 twoStored)).contatori 5).ultimoMin =
      1 := by
  obtain ⟨hkept, hlater, -⟩ := purge_transparent 1310 twoStored
  refine ⟨?_, ?_⟩
  · rw [hkept]
    decide
  · rw [hlater 1320 (by decide)]
    decide

end ProgSistema.FeedbackServer
