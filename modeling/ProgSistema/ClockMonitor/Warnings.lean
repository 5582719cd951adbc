import ProgSistema.ClockMonitor.Model
import ProgSistema.Lib.Custody

/-!
# The warnings of the clock monitor

The monitor compares its reading of the clock with the last answer that the
other thread has stored. The clocks agree, but the answer has an age: the
warning says that the two readings are more than thirty seconds apart.
-/

set_option autoImplicit false

namespace ProgSistema.ClockMonitor

structure Consistent (k : Shared) : Prop where
  time : k.sharedData.nistTime = ((k.stored.getLast?).map second).getD 0
  valid : k.sharedData.valid = true → k.stored ≠ []

def AtRest (k : Shared) : Prop := Consistent k

def Pc.inside : Pc → Bool
  | storeTime _ | storeValid | nistUnlock | readTime _ | readValid _ _ _ => true
  | monitorUnlock _ _ _ _ => true
  | _ => false

def Seen (nistTime : ℤ) (nistValid : Bool) (seen : List ℕ) : Prop :=
  nistValid = true → ∃ a, seen.getLast? = some a ∧ nistTime = second a

def Stage : Pc → Shared → Prop
  | .storeValid, k => k.stored ≠ [] ∧ Consistent k
  | .readValid _ nistTime seen, k =>
    seen = k.stored ∧ nistTime = k.sharedData.nistTime ∧ Consistent k
  | .monitorUnlock _ nistTime nistValid seen, k => Seen nistTime nistValid seen ∧ Consistent k
  | _, k => Consistent k

section
variable {k k' : Shared} (hdata : k'.sharedData = k.sharedData) (hstored : k'.stored = k.stored)
include hdata hstored

theorem consistent_congr (h : Consistent k) : Consistent k' := by
  refine ⟨?_, ?_⟩
  · rw [hdata, hstored]
    exact h.time
  · rw [hdata, hstored]
    exact h.valid

theorem stage_congr {pc : Pc} (h : Stage pc k) : Stage pc k' := by
  cases pc with
  | storeValid => exact ⟨by rw [hstored]; exact h.1, consistent_congr hdata hstored h.2⟩
  | readValid system nistTime seen =>
    obtain ⟨hseen, htime, hk⟩ := h
    exact ⟨by rw [hstored]; exact hseen, by rw [hdata]; exact htime,
      consistent_congr hdata hstored hk⟩
  | monitorUnlock system nistTime nistValid seen =>
    exact ⟨h.1, consistent_congr hdata hstored h.2⟩
  | _ => exact consistent_congr hdata hstored h

end

abbrev Kept (s : Threads) : Prop :=
  Custody.Kept Pc.inside (fun k : Shared => k.sharedData.mutex = none) AtRest Stage s

abbrev Moves (pc pc' : Pc) (k k' : Shared) : Prop :=
  Custody.Moves Pc.inside (fun k : Shared => k.sharedData.mutex = none) AtRest Stage pc pc' k k'

theorem kept_created (clock : ℕ) : Kept (created clock) := by
  refine Custody.kept_outside (fun t => ?_) ⟨rfl, nofun⟩
  cases t <;> rfl

theorem consistent_seen {k : Shared} {nistTime : ℤ} (hk : Consistent k)
    (htime : nistTime = k.sharedData.nistTime) : Seen nistTime k.sharedData.valid k.stored := by
  intro hvalid
  obtain ⟨a, ha⟩ := Option.isSome_iff_exists.mp
    (List.getLast?_isSome.mpr (hk.valid hvalid))
  refine ⟨a, ha, ?_⟩
  rw [htime, hk.time, ha]
  rfl

theorem nist_moves {event : Event} {pc pc' : Pc} {k k' : Shared}
    (hstage : pc.inside = true → Stage pc k)
    (htaken : pc.inside = true → k.sharedData.mutex ≠ none)
    (h : nistThread event pc k = some (pc', k')) :
    Moves pc pc' k k' ∧ k'.comparisons = k.comparisons := by
  have hout : ∀ {q q' : Pc}, q.inside = false → q'.inside = false → Moves q q' k k :=
    fun hq hq' => .outside hq hq' (fun _ _ h => h) id id
  unfold nistThread at h
  split at h
  · cases h
    refine ⟨hout rfl ?_, rfl⟩
    split <;> rfl
  · cases h
    exact ⟨hout rfl rfl, rfl⟩
  · cases h
    exact ⟨hout rfl rfl, rfl⟩
  · split at h
    · rename_i hfree
      cases h
      exact ⟨.enters hfree rfl fun hrest => ⟨⟨hrest.time, hrest.valid⟩, nofun⟩, rfl⟩
    · cases h
  · rename_i answered
    cases h
    refine ⟨.works rfl rfl ⟨List.append_ne_nil_of_right_ne_nil _ nofun, ?_, ?_⟩ (htaken rfl), rfl⟩
    · simp
    · intro _
      exact List.append_ne_nil_of_right_ne_nil _ nofun
  · obtain ⟨hstored, hk⟩ := hstage rfl
    cases h
    exact ⟨.works rfl rfl ⟨hk.time, fun _ => hstored⟩ (htaken rfl), rfl⟩
  · have hk : Consistent k := hstage rfl
    cases h
    exact ⟨.leaves rfl rfl ⟨hk.time, hk.valid⟩, rfl⟩
  · cases h

def Right (c : Comparison) : Prop :=
  ∃ a, c.seen.getLast? = some a ∧
    (c.warned = true ↔ 30 < |second c.system-second a|)

theorem comparison_right {system : ℕ} {nistTime : ℤ} {seen : List ℕ}
    (h : Seen nistTime true seen) :
    Right ⟨system, seen,
      decide (second system-nistTime > 30 ∨ second system-nistTime < -30)⟩ := by
  obtain ⟨a, ha, rfl⟩ := h rfl
  refine ⟨a, ha, ?_⟩
  dsimp only
  rw [decide_eq_true_eq, lt_abs]
  omega

def Local : Pc → Prop
  | .compare _ nistTime nistValid seen => Seen nistTime nistValid seen
  | _ => True

theorem monitor_moves {event : Event} {pc pc' : Pc} {k k' : Shared}
    (hstage : pc.inside = true → Stage pc k)
    (htaken : pc.inside = true → k.sharedData.mutex ≠ none) (hlocal : Local pc)
    (h : monitorThread event pc k = some (pc', k')) :
    Moves pc pc' k k' ∧ Local pc' ∧
      (k'.comparisons = k.comparisons ∨ ∃ c, Right c ∧ k'.comparisons = k.comparisons++[c]) := by
  unfold monitorThread at h
  split at h
  · cases h
    refine ⟨.outside rfl ?_ (fun _ _ h => h) id id, ?_, .inl rfl⟩
    · split <;> rfl
    · split <;> trivial
  · cases h
    exact ⟨.outside rfl rfl (fun _ _ h => h) id id, trivial, .inl rfl⟩
  · split at h
    · rename_i hfree
      cases h
      exact ⟨.enters hfree rfl fun hrest => ⟨⟨hrest.time, hrest.valid⟩, nofun⟩, trivial, .inl rfl⟩
    · cases h
  · have hk : Consistent k := hstage rfl
    cases h
    exact ⟨.works rfl rfl ⟨rfl, rfl, hk⟩ (htaken rfl), trivial, .inl rfl⟩
  · obtain ⟨hseen, htime, hk⟩ := hstage rfl
    cases h
    rw [hseen]
    exact ⟨.works rfl rfl ⟨consistent_seen hk htime, hk⟩ (htaken rfl), trivial, .inl rfl⟩
  · obtain ⟨hseen, hk⟩ := hstage rfl
    cases h
    exact ⟨.leaves rfl rfl ⟨hk.time, hk.valid⟩, hseen, .inl rfl⟩
  · rename_i system nistTime nistValid seen
    cases h
    cases nistValid with
    | false =>
      exact ⟨.outside rfl rfl (fun _ _ h => h) id id, trivial, .inl rfl⟩
    | true =>
      rw [if_pos rfl]
      exact ⟨.outside rfl rfl (fun q _ hq => stage_congr (by rfl) (by rfl) hq)
        (fun hrest => consistent_congr (by rfl) (by rfl) hrest) id, trivial,
        .inr ⟨_, comparison_right hlocal, rfl⟩⟩
  · cases h

/-- The clock goes on, or the signal arrives. -/
theorem idle_moves {pc : Pc} {k k' : Shared} (hdata : k'.sharedData = k.sharedData)
    (hstored : k'.stored = k.stored) (hstage : pc.inside = true → Stage pc k)
    (htaken : pc.inside = true → k.sharedData.mutex ≠ none) : Moves pc pc k k' := by
  cases hin : pc.inside with
  | true =>
    refine .works hin hin (stage_congr hdata hstored (hstage hin)) ?_
    rw [hdata]
    exact htaken hin
  | false =>
    refine .outside hin hin (fun _ _ hq => stage_congr hdata hstored hq)
      (consistent_congr hdata hstored) ?_
    rw [hdata]
    exact id

theorem nist_local {event : Event} {pc pc' : Pc} {k k' : Shared}
    (h : nistThread event pc k = some (pc', k')) : Local pc' := by
  unfold nistThread at h
  split at h
  · cases h
    split <;> trivial
  · cases h
    trivial
  · cases h
    trivial
  · split at h <;> cases h
    trivial
  · cases h
    trivial
  · cases h
    trivial
  · cases h
    trivial
  · cases h

theorem act_moves {t : Thread} {event : Event} {pc pc' : Pc} {k k' : Shared}
    (hstage : pc.inside = true → Stage pc k)
    (htaken : pc.inside = true → k.sharedData.mutex ≠ none) (hlocal : Local pc)
    (h : act t event pc k = some (pc', k')) :
    Moves pc pc' k k' ∧ Local pc' ∧
      (k'.comparisons = k.comparisons ∨ ∃ c, Right c ∧ k'.comparisons = k.comparisons++[c]) := by
  unfold act at h
  split at h
  · cases h
    exact ⟨idle_moves rfl rfl hstage htaken, hlocal, .inl rfl⟩
  · cases h
    exact ⟨idle_moves rfl rfl hstage htaken, hlocal, .inl rfl⟩
  · split at h
    · cases h
      cases t <;> exact ⟨.outside rfl rfl (fun _ _ h => h) id id, trivial, .inl rfl⟩
    · cases h
  · split at h
    · obtain ⟨hmoves, hsame⟩ := nist_moves hstage htaken h
      exact ⟨hmoves, nist_local h, .inl hsame⟩
    · exact monitor_moves hstage htaken hlocal h

structure MonitorInv (s : Threads) : Prop where
  kept : Kept s
  read : ∀ t, Local (s.procs t)
  right : ∀ c ∈ s.shared.comparisons, Right c

theorem monitor_inv_created (clock : ℕ) : MonitorInv (created clock) := by
  refine ⟨kept_created clock, fun t => ?_, nofun⟩
  cases t <;> trivial

theorem step_monitor_inv (a : Thread × Event) (s s' : Threads) (hi : MonitorInv s)
    (h : Sharing.step act a s = some s') : MonitorInv s' := by
  obtain ⟨pc, k, hact, rfl⟩ := Sharing.step_next _ h
  obtain ⟨hmoves, hlocal, hcomparisons⟩ :=
    act_moves (hi.kept.stage a.1) (hi.kept.taken a.1) (hi.read a.1) hact
  refine ⟨Custody.kept_step hi.kept hmoves, ?_, ?_⟩
  · apply (Function.forall_update_iff s.procs fun _ q => Local q).mpr
    exact ⟨hlocal, fun t _ => hi.read t⟩
  · intro c hc
    rcases hcomparisons with hsame | ⟨new, hright, happend⟩
    · exact hi.right c (hsame ▸ hc)
    · dsimp only at hc
      rw [happend] at hc
      rcases List.mem_append.mp hc with hold | hnew
      · exact hi.right c hold
      · rw [List.mem_singleton.mp hnew]
        exact hright

/-- Readings at most thirty seconds apart are no more than thirty apart in whole
seconds. -/
theorem seconds_apart {m n : ℕ} (h : |(m : ℤ)-n| ≤ 30*10^9) : |second m-second n| ≤ 30 := by
  rw [abs_le] at h ⊢
  unfold second
  omega

/-- A check prints the warning exactly if the second at which the monitor has
read the clock and the second of the last answer stored by then differ by more
than thirty, and so never if the two readings are at most thirty seconds apart. -/
theorem warning_iff (clock : ℕ) (s : Threads) (h : Reachable clock s) :
    ∀ c ∈ s.shared.comparisons, ∃ a, c.seen.getLast? = some a ∧
      (c.warned = true ↔ 30 < |second c.system-second a|) ∧
      (|(c.system : ℤ)-a| ≤ 30*10^9 → c.warned = false) := by
  intro c hc
  have hi := Runs.reachable_invariant _ MonitorInv (monitor_inv_created clock) step_monitor_inv h
  obtain ⟨a, ha, hwarned⟩ := hi.right c hc
  refine ⟨a, ha, hwarned, fun hclose => ?_⟩
  rw [Bool.eq_false_iff, ne_eq, hwarned, not_lt]
  exact seconds_apart hclose

def firstAnswer : List (Thread × Event) :=
  [(.nist, .run), (.nist, .answer), (.nist, .run), (.nist, .run), (.nist, .run), (.nist, .run),
    (.nist, .advance (10^9))]

def lateFailure : List (Thread × Event) :=
  [(.nist, .advance (29*10^9)), (.nist, .run), (.nist, .run), (.nist, .fail),
    (.nist, .advance (10^9)), (.monitor, .run)]

def oneCheck : List (Thread × Event) := List.replicate 7 (.monitor, .run)

/-- An answer is stored at once; thirty seconds later the query fails, and one
second after that the monitor checks for the second time. -/
def failedQuery : List (Thread × Event) := firstAnswer++oneCheck++lateFailure++oneCheck

theorem failed_query_run :
    (Runs.exec (Sharing.step act) failedQuery (created 0)).isSome = true := by
  decide +kernel

def failedQueryEnd : Threads :=
  (Runs.exec (Sharing.step act) failedQuery (created 0)).get failed_query_run

theorem failed_query_checks : ∃ a, [0].getLast? = some a ∧
    (true = true ↔ 30 < |second (31*10^9)-second a|) ∧
    (|(31*10^9 : ℤ)-a| ≤ 30*10^9 → true = false) :=
  warning_iff 0 failedQueryEnd (Runs.reachable_get failed_query_run) ⟨31*10^9, [0], true⟩
    (by decide +kernel)

theorem failed_query_warns : ¬ ∀ s, Reachable 0 s →
    ∀ c ∈ s.shared.comparisons, c.warned = false := by
  intro h
  have hno := h failedQueryEnd (Runs.reachable_get failed_query_run)
    ⟨31*10^9, [0], true⟩ (by decide +kernel)
  cases hno

end ProgSistema.ClockMonitor
