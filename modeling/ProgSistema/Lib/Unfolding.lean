import Mathlib.Data.Set.Card
import Mathlib.Data.List.Nodup

/-!
# Unfoldings of a graph

Following the edges of a graph from a start unfolds it: each sequence of labels
leads to a node or nowhere. The unfolding has every node once exactly when no
edge leads to the start and no two edges lead to the same node.
-/

set_option autoImplicit false

namespace ProgSistema

structure Unfolding (Label Node : Type*) where
  place : List Label → Option Node
  start : Node
  atStart : place [] = some start
  closed : ∀ ls l, place ls = none → place (ls++[l]) = none

namespace Unfolding
variable {Label Node : Type*} (u : Unfolding Label Node)

def Edge (d : Node) (l : Label) (d' : Node) : Prop :=
  ∃ ls, u.place ls = some d ∧ u.place (ls++[l]) = some d'

structure SingleEntry : Prop where
  start : ∀ d l, ¬ u.Edge d l u.start
  unique : ∀ d₁ l₁ d₂ l₂ d, u.Edge d₁ l₁ d → u.Edge d₂ l₂ d → d₁ = d₂ ∧ l₁ = l₂

variable {u}

theorem edge_to {ls : List Label} {l : Label} {d' : Node} (h : u.place (ls++[l]) = some d') :
    ∃ d, u.place ls = some d ∧ u.Edge d l d' := by
  cases hls : u.place ls with
  | none => rw [u.closed ls l hls] at h; cases h
  | some d => exact ⟨d, rfl, ls, hls, h⟩

theorem single_way (h : u.SingleEntry) (ls ms : List Label) (d : Node) (hls : u.place ls = some d)
    (hms : u.place ms = some d) : ls = ms := by
  induction ls using List.reverseRecOn generalizing ms d with
  | nil =>
    rw [u.atStart] at hls
    cases hls
    cases ms using List.reverseRecOn with
    | nil => rfl
    | append_singleton ms m =>
      obtain ⟨d, -, hedge⟩ := edge_to hms
      exact absurd hedge (h.start d m)
  | append_singleton ls l ih =>
    obtain ⟨d₁, hd₁, hedge₁⟩ := edge_to hls
    cases ms using List.reverseRecOn with
    | nil =>
      rw [u.atStart] at hms
      cases hms
      exact absurd hedge₁ (h.start d₁ l)
    | append_singleton ms m =>
      obtain ⟨d₂, hd₂, hedge₂⟩ := edge_to hms
      obtain ⟨rfl, rfl⟩ := h.unique _ _ _ _ _ hedge₁ hedge₂
      rw [ih ms d₁ hd₁ hd₂]

theorem single_entry_iff : u.SingleEntry ↔
    ∀ ls ms d, u.place ls = some d → u.place ms = some d → ls = ms := by
  constructor
  · exact single_way
  · intro h
    refine ⟨?_, ?_⟩
    · rintro d l ⟨ls, -, hl⟩
      have hnil := h _ [] _ hl u.atStart
      simp at hnil
    · rintro d₁ l₁ d₂ l₂ d ⟨ls, hls, hl⟩ ⟨ms, hms, hm⟩
      obtain ⟨rfl, hlabel⟩ := List.append_inj' (h _ _ _ hl hm) rfl
      rw [hls] at hms
      exact ⟨Option.some.inj hms, by simpa using hlabel⟩

def nodes (u : Unfolding Label Node) : Set Node := {d | ∃ ls, u.place ls = some d}

structure Enumerates (u : Unfolding Label Node) (found : List (List Label)) : Prop where
  nodup : found.Nodup
  mem : ∀ ls, ls ∈ found ↔ ls ≠ [] ∧ (u.place ls).isSome

variable {found : List (List Label)} (h : u.Enumerates found)
include h

theorem places_nodup : ([]::found).Nodup :=
  List.nodup_cons.mpr ⟨fun hnil => ((h.mem []).mp hnil).1 rfl, h.nodup⟩

theorem mem_places (ls : List Label) : ls ∈ []::found ↔ (u.place ls).isSome := by
  rw [List.mem_cons, h.mem]
  by_cases hnil : ls = []
  · simp [hnil, u.atStart]
  · simp [hnil]

/-- The nodes are those that the places lead to. -/
theorem nodes_card [DecidableEq Node] :
    u.nodes.ncard = (([]::found).map u.place).toFinset.card := by
  have himage : some '' u.nodes = ↑(([]::found).map u.place).toFinset := by
    ext place
    rw [Set.mem_image, List.coe_toFinset, Set.mem_ofPred_eq, List.mem_map]
    constructor
    · rintro ⟨d, ⟨ls, hls⟩, rfl⟩
      exact ⟨ls, (mem_places h ls).mpr (by simp [hls]), hls⟩
    · rintro ⟨ls, hls, rfl⟩
      obtain ⟨d, hd⟩ := Option.isSome_iff_exists.mp ((mem_places h ls).mp hls)
      exact ⟨d, ⟨ls, hd⟩, hd.symm⟩
  rw [← Set.ncard_image_of_injective u.nodes (Option.some_injective Node), himage,
    Set.ncard_coe_finset]

theorem single_entry_iff_nodup : u.SingleEntry ↔ (([]::found).map u.place).Nodup := by
  rw [single_entry_iff, List.nodup_map_iff_inj_on (places_nodup h)]
  constructor
  · intro hway ls hls ms _ heq
    obtain ⟨d, hd⟩ := Option.isSome_iff_exists.mp ((mem_places h ls).mp hls)
    exact hway ls ms d hd (heq ▸ hd)
  · intro hinj ls ms d hls hms
    exact hinj ls ((mem_places h ls).mpr (by simp [hls])) ms ((mem_places h ms).mpr (by simp [hms]))
      (hls.trans hms.symm)

/-- No node is met twice, and the places are no more than the nodes, exactly
when each node has a single entry. -/
theorem each_once_iff :
    (found.map u.place).Nodup ∧ found.length+1 ≤ u.nodes.ncard ↔ u.SingleEntry := by
  classical
  rw [single_entry_iff_nodup h, nodes_card h]
  constructor
  · rintro ⟨-, hle⟩
    have hlen : (([]::found).map u.place).length = found.length+1 := by simp
    rw [← Multiset.coe_nodup, ← Multiset.toFinset_card_eq_card_iff_nodup]
    refine le_antisymm (Multiset.toFinset_card_le _) ?_
    rw [Multiset.coe_card, hlen]
    exact hle
  · intro hnd
    refine ⟨(List.nodup_cons.mp hnd).2, ?_⟩
    rw [List.toFinset_card_of_nodup hnd]
    simp

end Unfolding
end ProgSistema
