import Mathlib.Tactic

/-!
# Differences between snapshots

A snapshot gives the value of each key that is present. A monitor compares a
new snapshot with a baseline and then lays the new one over it. Laying over
keeps the keys that have vanished, so the comparisons are those between
successive snapshots exactly as long as no key vanishes before the last one.
-/

set_option autoImplicit false

namespace ProgSistema.Snapshot

inductive Change (κ : Type*) where
  | created (k : κ)
  | modified (k : κ)
  | deleted (k : κ)
  deriving DecidableEq, Repr

variable {κ ν : Type*}

def Change.key : Change κ → κ
  | created k => k
  | modified k => k
  | deleted k => k

def Differs (S S' : κ → Option ν) : Change κ → Prop
  | .created k => S k = none ∧ S' k ≠ none
  | .modified k => ∃ a b, S k = some a ∧ S' k = some b ∧ a ≠ b
  | .deleted k => S k ≠ none ∧ S' k = none

def Reports (S S' : κ → Option ν) (log : List (Change κ)) : Prop :=
  log.Nodup ∧ ∀ c, c ∈ log ↔ Differs S S' c

def overlay (B S : κ → Option ν) : κ → Option ν := fun k => (S k).or (B k)

def Extends (B S : κ → Option ν) : Prop := ∀ k a, S k = some a → B k = some a

def Persists (S S' : κ → Option ν) : Prop := ∀ k, S k ≠ none → S' k ≠ none

theorem overlay_extends (B S : κ → Option ν) : Extends (overlay B S) S := by
  intro k a h
  rw [overlay, h, Option.some_or]

theorem overlay_eq_iff (S S' : κ → Option ν) : overlay S S' = S' ↔ Persists S S' := by
  constructor
  · intro h k hk hnone
    have hkey := congrFun h k
    rw [overlay, hnone, Option.none_or] at hkey
    exact hk hkey
  · intro h
    ext1 k
    cases hk : S' k with
    | some a => rw [overlay, hk, Option.some_or]
    | none =>
      rw [overlay, hk, Option.none_or]
      by_contra hne
      exact h k hne hk

/-- A baseline with more keys than the snapshot it stands for is seen at the
next comparison, whatever happened to those keys. -/
theorem differs_iff {B S : κ → Option ν} (h : Extends B S) (S' : κ → Option ν) :
    (∀ c, Differs B S' c ↔ Differs S S' c) ↔ B = S := by
  constructor
  · intro hsame
    ext1 k
    cases hs : S k with
    | some a => exact h k a hs
    | none =>
      by_contra hb
      by_cases hk : S' k = none
      · exact ((hsame (.deleted k)).mp ⟨hb, hk⟩).1 hs
      · exact hb ((hsame (.created k)).mpr ⟨hs, hk⟩).1
  · rintro rfl c
    rfl

theorem reports_iff {B S S' : κ → Option ν} {log : List (Change κ)} (h : Extends B S)
    (hlog : Reports B S' log) : Reports S S' log ↔ B = S := by
  rw [← differs_iff h S']
  constructor
  · intro hS c
    rw [← hlog.2 c, ← hS.2 c]
  · intro hsame
    exact ⟨hlog.1, fun c => by rw [hlog.2 c, hsame c]⟩

def ReportsAll : (κ → Option ν) → List (κ → Option ν) → List (List (Change κ)) → Prop
  | _, [], [] => True
  | S, S'::rest, log::logs => Reports S S' log ∧ ReportsAll S' rest logs
  | _, _, _ => False

def ReportsOverlaid : (κ → Option ν) → List (κ → Option ν) → List (List (Change κ)) → Prop
  | _, [], [] => True
  | B, S::rest, log::logs => Reports B S log ∧ ReportsOverlaid (overlay B S) rest logs
  | _, _, _ => False

theorem reports_overlaid_iff (B S : κ → Option ν) (rest : List (κ → Option ν))
    (logs : List (List (Change κ))) (hB : Extends B S) (h : ReportsOverlaid B rest logs) :
    ReportsAll S rest logs ↔ rest = [] ∨ B = S ∧ (S::rest).dropLast.IsChain Persists := by
  induction rest generalizing B S logs with
  | nil =>
    cases logs with
    | nil => simp [ReportsAll]
    | cons log logs => cases h
  | cons S' rest ih =>
    cases logs with
    | nil => cases h
    | cons log logs =>
      obtain ⟨hlog, hlogs⟩ := h
      rw [ReportsAll, reports_iff hB hlog, ih _ S' logs (overlay_extends B S') hlogs]
      cases rest with
      | nil => simp
      | cons S'' rest =>
        have hdrop : (S::S'::S''::rest).dropLast = S::(S'::S''::rest).dropLast := rfl
        have hhead : (S'::S''::rest).dropLast = S'::(S''::rest).dropLast := rfl
        rw [hdrop, hhead, List.isChain_cons_cons, ← overlay_eq_iff]
        constructor
        · rintro ⟨rfl, hnil | ⟨hover, hchain⟩⟩
          · cases hnil
          · exact .inr ⟨rfl, hover, hchain⟩
        · rintro (hnil | ⟨rfl, hover, hchain⟩)
          · cases hnil
          · exact ⟨rfl, .inr ⟨hover, hchain⟩⟩

/-- Comparisons with the overlaid baseline are the successive differences
exactly when no key vanishes before the last snapshot. -/
theorem reports_all_iff (S : κ → Option ν) (rest : List (κ → Option ν))
    (logs : List (List (Change κ))) (h : ReportsOverlaid S rest logs) :
    ReportsAll S rest logs ↔ (S::rest).dropLast.IsChain Persists := by
  rw [reports_overlaid_iff S S rest logs (fun _ _ hk => hk) h]
  cases rest <;> simp

end ProgSistema.Snapshot
