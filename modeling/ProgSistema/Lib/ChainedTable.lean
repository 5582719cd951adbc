import ProgSistema.Lib.LinkedChain

/-!
# A table of slots on chains

Slots lie at places, and a slot in use is on the chain of its bucket. One more
chain has the slots that are free. A pointer field leads from each place to the
next one of its chain, and a chain begins with the field at its head.
-/

set_option autoImplicit false

namespace ProgSistema.ChainedTable
open LinkedChain
variable {σ κ δ β : Type*}

/-- Where the chains begin, and what the slots of a table are like. The chain of
the free slots is `none`. -/
structure Scheme (σ κ δ β : Type*) where
  head : Option β → ℕ
  key : σ → κ
  value : σ → δ
  hash : κ → β
  Blank : σ → Prop
  head_injective : Function.Injective head

structure Chained (S : Scheme σ κ δ β) (next : ℕ → ℕ) (slot : ℕ → Option σ)
    (chain : Option β → List ℕ) : Prop where
  zero : slot 0 = none
  heads : ∀ b, slot (S.head b) = none
  linked : ∀ b, Linked id 0 next (next (S.head b)) (chain b)
  nodup : ∀ b, (chain b).Nodup
  member : ∀ b, ∀ o ∈ chain b, ∃ x, slot o = some x
  filed : ∀ o x, slot o = some x → o ∈ chain none ∨ o ∈ chain (some (S.hash (S.key x)))
  bucket : ∀ b, ∀ o ∈ chain (some b), ∀ x, slot o = some x → S.hash (S.key x) = b
  free : ∀ b, ∀ o ∈ chain none, o ∉ chain (some b)
  blank : ∀ o ∈ chain none, ∀ x, slot o = some x → S.Blank x
  once : ∀ b, ∀ o ∈ chain (some b), ∀ o' ∈ chain (some b), ∀ x x', slot o = some x →
    slot o' = some x' → S.key x = S.key x' → o = o'

def Holds (S : Scheme σ κ δ β) (slot : ℕ → Option σ) (chain : Option β → List ℕ)
    (m : κ → Option δ) : Prop :=
  ∀ k d, m k = some d ↔
    ∃ o x, o ∈ chain (some (S.hash k)) ∧ slot o = some x ∧ S.key x = k ∧ S.value x = d

section chains
variable {S : Scheme σ κ δ β} {next : ℕ → ℕ} {slot : ℕ → Option σ} {chain : Option β → List ℕ}
  {m : κ → Option δ} {b c : Option β} {o : ℕ} {x : σ}

theorem one_chain (h : Chained S next slot chain) (hb : o ∈ chain b) (hc : o ∈ chain c) :
    b = c := by
  obtain ⟨x, hx⟩ := h.member b o hb
  cases b with
  | none =>
    cases c with
    | none => rfl
    | some c => exact absurd hc (h.free c o hb)
  | some b =>
    cases c with
    | none => exact absurd hb (h.free b o hc)
    | some c => rw [← h.bucket b o hb x hx, h.bucket c o hc x hx]

theorem head_not_mem (h : Chained S next slot chain) : S.head b ∉ chain c := by
  intro hmem
  obtain ⟨x, hx⟩ := h.member c _ hmem
  rw [h.heads b] at hx
  cases hx

/-- A chain with its head has no place in common with another one. -/
theorem chains_apart (h : Chained S next slot chain) (hb : o ∈ S.head b::chain b)
    (hc : o ∈ S.head c::chain c) : b = c := by
  rcases List.mem_cons.mp hb with rfl | hb
  · rcases List.mem_cons.mp hc with heq | hc
    · exact S.head_injective heq
    · exact absurd hc (head_not_mem h)
  · rcases List.mem_cons.mp hc with rfl | hc
    · exact absurd hb (head_not_mem h)
    · exact one_chain h hb hc

theorem whole_nodup (h : Chained S next slot chain) : (S.head b::chain b).Nodup :=
  List.nodup_cons.mpr ⟨head_not_mem h, h.nodup b⟩

theorem lookup_some (hm : Holds S slot chain m) (ho : o ∈ chain (some (S.hash (S.key x))))
    (hx : slot o = some x) : m (S.key x) = some (S.value x) :=
  (hm _ _).mpr ⟨o, x, ho, hx, rfl, rfl⟩

theorem slot_ne_head (h : Chained S next slot chain) (hx : slot o = some x) (c : Option β) :
    o ≠ S.head c := by
  rintro rfl
  rw [h.heads c] at hx
  cases hx

theorem slot_ne_zero (h : Chained S next slot chain) (hx : slot o = some x) : o ≠ 0 := by
  rintro rfl
  rw [h.zero] at hx
  cases hx

variable [DecidableEq β]

/-! A slot leaves its chain. -/

section remove
variable {before after : List ℕ} (h : Chained S next slot chain)
  (hb : chain b = before++o::after)
include h hb

omit [DecidableEq β] in
theorem rest_subset {p : ℕ} (hp : p ∈ before++after) : p ∈ chain b ∧ p ≠ o := by
  have hnodup := h.nodup b
  rw [hb] at hnodup ⊢
  have hno := (List.nodup_middle.mp hnodup).notMem
  refine ⟨?_, fun heq => hno (heq ▸ hp)⟩
  rcases List.mem_append.mp hp with hp | hp
  · exact List.mem_append_left _ hp
  · exact List.mem_append_right _ (List.mem_cons_of_mem _ hp)

theorem mem_removed {p : ℕ} :
    p ∈ Function.update chain b (before++after) c ↔ p ∈ chain c ∧ p ≠ o := by
  by_cases hc : c = b
  · subst hc
    rw [Function.update_self]
    refine ⟨fun hp => rest_subset h hb hp, fun ⟨hp, hne⟩ => ?_⟩
    rw [hb] at hp
    rcases List.mem_append.mp hp with hp | hp
    · exact List.mem_append_left _ hp
    · exact List.mem_append_right _ (List.mem_of_ne_of_mem hne hp)
  · rw [Function.update_of_ne hc]
    refine ⟨fun hp => ⟨hp, fun heq => ?_⟩, And.left⟩
    have ho : o ∈ chain b := by
      rw [hb]
      exact List.mem_append_right _ List.mem_cons_self
    exact hc (one_chain h (heq ▸ hp) ho)

omit [DecidableEq β] h in
theorem before_mem : before.getLastD (S.head b) ∈ S.head b::chain b := by
  rcases List.mem_cons.mp (List.getLastD_mem_cons (l := before) (a := S.head b)) with heq | hmem
  · rw [heq]
    exact List.mem_cons_self
  · rw [hb]
    exact List.mem_cons_of_mem _ (List.mem_append_left _ hmem)

omit [DecidableEq β] in
theorem before_ne : before.getLastD (S.head b) ≠ o := by
  have hnodup := whole_nodup (b := b) h
  rw [hb, ← List.cons_append] at hnodup
  have hno := (List.nodup_middle.mp hnodup).notMem
  exact fun heq => hno (List.mem_append_left _ (heq ▸ List.getLastD_mem_cons))

omit [DecidableEq β] in
theorem before_ne_head (hcb : c ≠ b) : before.getLastD (S.head b) ≠ S.head c := fun heq =>
  hcb (chains_apart h List.mem_cons_self (heq ▸ before_mem hb))

theorem remove : Chained S (Function.update next (before.getLastD (S.head b)) (next o))
    (Function.update slot o none) (Function.update chain b (before++after)) := by
  have ho : o ∈ chain b := by
    rw [hb]
    exact List.mem_append_right _ List.mem_cons_self
  have hslot : ∀ p x, Function.update slot o none p = some x → p ≠ o ∧ slot p = some x := by
    intro p x hp
    by_cases hpo : p = o
    · rw [hpo, Function.update_self] at hp
      cases hp
    · rw [Function.update_of_ne hpo] at hp
      exact ⟨hpo, hp⟩
  have hnone : ∀ p, slot p = none → Function.update slot o none p = none := by
    intro p hp
    by_cases hpo : p = o
    · rw [hpo, Function.update_self]
    · rw [Function.update_of_ne hpo, hp]
  have hmem : ∀ {c p}, p ∈ Function.update chain b (before++after) c → p ∈ chain c ∧ p ≠ o :=
    fun hp => (mem_removed h hb).mp hp
  refine ⟨hnone 0 h.zero, fun c => hnone _ (h.heads c), ?_, ?_, ?_, ?_, ?_, ?_, ?_, ?_⟩
  · intro c
    by_cases hc : c = b
    · subst hc
      have hnodup := whole_nodup (b := c) h
      have hlinked := h.linked c
      rw [hb] at hnodup hlinked
      rw [Function.update_self]
      exact linked_remove _ o before after hnodup hlinked
    · rw [Function.update_of_ne hc]
      refine linked_frame _ _ (fun i hi => ?_) (h.linked c)
      have hne : i ≠ before.getLastD (S.head b) := fun heq =>
        hc (chains_apart h hi (heq ▸ before_mem hb))
      rw [Function.update_of_ne hne]
  · intro c
    by_cases hc : c = b
    · rw [hc, Function.update_self]
      have hnodup := h.nodup b
      rw [hb] at hnodup
      exact (List.nodup_middle.mp hnodup).of_cons
    · rw [Function.update_of_ne hc]
      exact h.nodup c
  · intro c p hp
    obtain ⟨hp, hne⟩ := hmem hp
    rw [Function.update_of_ne hne]
    exact h.member c p hp
  · intro p x hx
    obtain ⟨hne, hx⟩ := hslot p x hx
    exact (h.filed p x hx).imp (fun hp => (mem_removed h hb).mpr ⟨hp, hne⟩)
      fun hp => (mem_removed h hb).mpr ⟨hp, hne⟩
  · exact fun c p hp x hx => h.bucket c p (hmem hp).1 x (hslot p x hx).2
  · exact fun c p hp hp' => h.free c p (hmem hp).1 (hmem hp').1
  · exact fun p hp x hx => h.blank p (hmem hp).1 x (hslot p x hx).2
  · exact fun c p hp p' hp' y y' hy hy' => h.once c p (hmem hp).1 p' (hmem hp').1 y y'
      (hslot p y hy).2 (hslot p' y' hy').2

/-- A free slot that leaves its chain takes nothing out of the table. -/
theorem holds_remove_free (hfree : b = none) (hm : Holds S slot chain m) :
    Holds S (Function.update slot o none) (Function.update chain b (before++after)) m := by
  have ho : o ∈ chain none := by
    rw [← hfree, hb]
    exact List.mem_append_right _ List.mem_cons_self
  intro k d
  rw [hm k d]
  constructor
  · rintro ⟨p, x, hp, hx, hkey⟩
    have hne : p ≠ o := fun heq => h.free _ o ho (heq ▸ hp)
    exact ⟨p, x, (mem_removed h hb).mpr ⟨hp, hne⟩, by rw [Function.update_of_ne hne, hx], hkey⟩
  · rintro ⟨p, x, hp, hx, hkey⟩
    obtain ⟨hp, hne⟩ := (mem_removed h hb).mp hp
    rw [Function.update_of_ne hne] at hx
    exact ⟨p, x, hp, hx, hkey⟩

theorem holds_remove [DecidableEq κ] (hx : slot o = some x) (hused : b = some (S.hash (S.key x)))
    (hm : Holds S slot chain m) :
    Holds S (Function.update slot o none) (Function.update chain b (before++after))
      (Function.update m (S.key x) none) := by
  have ho : o ∈ chain (some (S.hash (S.key x))) := by
    rw [← hused, hb]
    exact List.mem_append_right _ List.mem_cons_self
  intro k d
  constructor
  · intro hk
    by_cases hkx : k = S.key x
    · rw [hkx, Function.update_self] at hk
      cases hk
    · rw [Function.update_of_ne hkx] at hk
      obtain ⟨p, y, hp, hy, hkey, hd⟩ := (hm k d).mp hk
      have hne : p ≠ o := by
        rintro rfl
        rw [hx] at hy
        exact hkx (hkey ▸ congrArg S.key (Option.some.inj hy).symm)
      exact ⟨p, y, (mem_removed h hb).mpr ⟨hp, hne⟩, by rw [Function.update_of_ne hne, hy],
        hkey, hd⟩
  · rintro ⟨p, y, hp, hy, hkey, hd⟩
    obtain ⟨hp, hne⟩ := (mem_removed h hb).mp hp
    rw [Function.update_of_ne hne] at hy
    have hkx : k ≠ S.key x := by
      rintro rfl
      exact hne (h.once _ p hp o ho y x hy hx hkey)
    rw [Function.update_of_ne hkx]
    exact (hm k d).mpr ⟨p, y, hp, hy, hkey, hd⟩

end remove

/-! A slot comes to the front of a chain. -/

section push

theorem mem_pushed {p : ℕ} :
    p ∈ Function.update chain c (o::chain c) b ↔ p ∈ chain b ∨ b = c ∧ p = o := by
  by_cases hb : b = c
  · rw [hb, Function.update_self, List.mem_cons]
    simp [or_comm]
  · rw [Function.update_of_ne hb]
    simp [hb]

/-- The slot may go to the chain: as a blank one to the free slots, or to its
bucket with a key that no slot has there. -/
def Suits (S : Scheme σ κ δ β) (slot : ℕ → Option σ) (chain : Option β → List ℕ) (x : σ) :
    Option β → Prop
  | none => S.Blank x
  | some b => S.hash (S.key x) = b ∧
    ∀ o ∈ chain (some b), ∀ y, slot o = some y → S.key y ≠ S.key x

variable (h : Chained S next slot chain) (ho : slot o = none)
include h ho

omit [DecidableEq β] in
theorem free_not_mem (b : Option β) : o ∉ chain b := by
  intro hmem
  obtain ⟨y, hy⟩ := h.member b o hmem
  rw [ho] at hy
  cases hy

omit [DecidableEq β] in
/-- The places that were on the chains keep their slots. -/
theorem filled_old {p : ℕ} (hp : p ∈ chain b) : Function.update slot o (some x) p = slot p := by
  have hpo : p ≠ o := fun heq => free_not_mem h ho b (heq ▸ hp)
  exact Function.update_of_ne hpo _ _

/-- The pushed place is in front of the old ones, which still lead on as they did. -/
theorem push_linked (hhead : ∀ b, o ≠ S.head b) (b : Option β) :
    let next' := Function.update (Function.update next o (next (S.head c))) (S.head c) o
    Linked id 0 next' (next' (S.head b)) (Function.update chain c (o::chain c) b) := by
  dsimp only
  by_cases hb : b = c
  · subst hb
    rw [Function.update_self, Function.update_self]
    refine ⟨rfl, ?_⟩
    rw [Function.update_of_ne (hhead b), Function.update_self]
    refine (linked_congr _ _ fun i hi => ?_).mp (h.linked b)
    have hio : i ≠ o := fun heq => free_not_mem h ho b (heq ▸ hi)
    have hih : i ≠ S.head b := fun heq => head_not_mem h (heq ▸ hi)
    rw [Function.update_of_ne hih, Function.update_of_ne hio]
  · rw [Function.update_of_ne hb]
    refine linked_frame _ _ (fun i hi => ?_) (h.linked b)
    have hio : i ≠ o := by
      rintro rfl
      rcases List.mem_cons.mp hi with heq | hi
      · exact hhead b heq
      · exact free_not_mem h ho b hi
    have hih : i ≠ S.head c := fun heq =>
      hb (chains_apart h hi (heq ▸ List.mem_cons_self))
    rw [Function.update_of_ne hih, Function.update_of_ne hio]

theorem push_nodup (b : Option β) : (Function.update chain c (o::chain c) b).Nodup := by
  by_cases hb : b = c
  · rw [hb, Function.update_self]
    exact List.nodup_cons.mpr ⟨free_not_mem h ho c, h.nodup c⟩
  · rw [Function.update_of_ne hb]
    exact h.nodup b

/-- What is on a chain after the push: the slots that were there, and the new one
on its own chain. -/
theorem pushed_slot {p : ℕ} {y : σ} (hp : p ∈ Function.update chain c (o::chain c) b)
    (hy : Function.update slot o (some x) p = some y) :
    (p ∈ chain b ∧ slot p = some y) ∨ (b = c ∧ p = o ∧ y = x) := by
  rcases mem_pushed.mp hp with hp | ⟨hb, rfl⟩
  · rw [filled_old h ho hp] at hy
    exact .inl ⟨hp, hy⟩
  · rw [Function.update_self] at hy
    exact .inr ⟨hb, rfl, (Option.some.inj hy).symm⟩

omit ho in
theorem push_filed (hx : Suits S slot chain x c) {p : ℕ} {y : σ}
    (hy : Function.update slot o (some x) p = some y) :
    p ∈ Function.update chain c (o::chain c) none ∨
      p ∈ Function.update chain c (o::chain c) (some (S.hash (S.key y))) := by
  by_cases hpo : p = o
  · rw [hpo, Function.update_self] at hy
    obtain rfl := Option.some.inj hy
    cases c with
    | none => exact .inl (mem_pushed.mpr (.inr ⟨rfl, hpo⟩))
    | some c => exact .inr (mem_pushed.mpr (.inr ⟨congrArg some hx.1, hpo⟩))
  · rw [Function.update_of_ne hpo] at hy
    exact (h.filed p y hy).imp (fun hp => mem_pushed.mpr (.inl hp))
      fun hp => mem_pushed.mpr (.inl hp)

theorem push_free {b : β} {p : ℕ} (hp : p ∈ Function.update chain c (o::chain c) none) :
    p ∉ Function.update chain c (o::chain c) (some b) := by
  intro hp'
  rcases mem_pushed.mp hp with hq | ⟨hc, rfl⟩
  · rcases mem_pushed.mp hp' with hq' | ⟨-, rfl⟩
    · exact h.free b p hq hq'
    · exact free_not_mem h ho none hq
  · rcases mem_pushed.mp hp' with hq' | ⟨hc', -⟩
    · exact free_not_mem h ho _ hq'
    · rw [← hc] at hc'
      cases hc'

/-- No two slots of a bucket have one key. -/
theorem push_once (hx : Suits S slot chain x c) {b : β} {p p' : ℕ} {y y' : σ}
    (hp : p ∈ Function.update chain c (o::chain c) (some b))
    (hp' : p' ∈ Function.update chain c (o::chain c) (some b))
    (hy : Function.update slot o (some x) p = some y)
    (hy' : Function.update slot o (some x) p' = some y') (hkey : S.key y = S.key y') :
    p = p' := by
  rcases pushed_slot h ho hp hy with ⟨hq, hold⟩ | ⟨rfl, rfl, rfl⟩
  · rcases pushed_slot h ho hp' hy' with ⟨hq', hold'⟩ | ⟨rfl, rfl, rfl⟩
    · exact h.once b p hq p' hq' y y' hold hold' hkey
    · exact absurd hkey (hx.2 p hq y hold)
  · rcases pushed_slot h ho hp' hy' with ⟨hq', hold'⟩ | ⟨-, rfl, -⟩
    · exact absurd hkey.symm (hx.2 p' hq' y' hold')
    · rfl

theorem push (hzero : o ≠ 0) (hhead : ∀ b, o ≠ S.head b) (hx : Suits S slot chain x c) :
    Chained S (Function.update (Function.update next o (next (S.head c))) (S.head c) o)
      (Function.update slot o (some x)) (Function.update chain c (o::chain c)) where
  zero := by rw [Function.update_of_ne hzero.symm, h.zero]
  heads b := by rw [Function.update_of_ne (hhead b).symm, h.heads b]
  linked := push_linked h ho hhead
  nodup := push_nodup h ho
  member b p hp := by
    rcases mem_pushed.mp hp with hp | ⟨-, rfl⟩
    · obtain ⟨y, hy⟩ := h.member b p hp
      exact ⟨y, (filled_old h ho hp).trans hy⟩
    · exact ⟨x, Function.update_self ..⟩
  filed p y hy := push_filed h hx hy
  bucket b p hp y hy := by
    rcases pushed_slot h ho hp hy with ⟨hp, hy⟩ | ⟨rfl, rfl, rfl⟩
    · exact h.bucket b p hp y hy
    · exact hx.1
  free b p hp := push_free h ho hp
  blank p hp y hy := by
    rcases pushed_slot h ho hp hy with ⟨hp, hy⟩ | ⟨rfl, rfl, rfl⟩
    · exact h.blank p hp y hy
    · exact hx
  once b p hp p' hp' y y' hy hy' hkey := push_once h ho hx hp hp' hy hy' hkey

end push

theorem holds_push_free (h : Chained S next slot chain) (ho : slot o = none)
    (hm : Holds S slot chain m) :
    Holds S (Function.update slot o (some x)) (Function.update chain none (o::chain none)) m := by
  intro k d
  rw [hm k d]
  refine exists_congr fun p => ?_
  have hbucket : some (S.hash k) ≠ none := Option.some_ne_none _
  by_cases hp : p = o
  · subst hp
    have hno : p ∉ chain (some (S.hash k)) := fun hmem => by
      obtain ⟨y, hy⟩ := h.member _ p hmem
      rw [ho] at hy
      cases hy
    simp [hno, hbucket]
  · rw [Function.update_of_ne hbucket, Function.update_of_ne hp]

theorem holds_push [DecidableEq κ] (h : Chained S next slot chain) (ho : slot o = none)
    (hx : Suits S slot chain x (some (S.hash (S.key x)))) (hm : Holds S slot chain m) :
    Holds S (Function.update slot o (some x))
      (Function.update chain (some (S.hash (S.key x))) (o::chain (some (S.hash (S.key x)))))
      (Function.update m (S.key x) (some (S.value x))) := by
  have hno : ∀ b, o ∉ chain b := by
    intro b hmem
    obtain ⟨y, hy⟩ := h.member b o hmem
    rw [ho] at hy
    cases hy
  intro k d
  by_cases hk : k = S.key x
  · subst hk
    rw [Function.update_self]
    constructor
    · intro hd
      exact ⟨o, x, mem_pushed.mpr (Or.inr ⟨rfl, rfl⟩), Function.update_self .., rfl,
        Option.some.inj hd⟩
    · rintro ⟨p, y, hp, hy, hkey, rfl⟩
      rcases mem_pushed.mp hp with hp | ⟨-, rfl⟩
      · have hpo : p ≠ o := fun heq => hno _ (heq ▸ hp)
        rw [Function.update_of_ne hpo] at hy
        exact absurd hkey (hx.2 p hp y hy)
      · rw [Function.update_self] at hy
        rw [Option.some.inj hy]
  · rw [Function.update_of_ne hk, hm k d]
    refine exists_congr fun p => exists_congr fun y => ?_
    constructor
    · rintro ⟨hp, hy, hrest⟩
      have hpo : p ≠ o := fun heq => hno _ (heq ▸ hp)
      exact ⟨mem_pushed.mpr (Or.inl hp), by rw [Function.update_of_ne hpo, hy], hrest⟩
    · rintro ⟨hp, hy, hkey, hd⟩
      rcases mem_pushed.mp hp with hp | ⟨-, rfl⟩
      · have hpo : p ≠ o := fun heq => hno _ (heq ▸ hp)
        rw [Function.update_of_ne hpo] at hy
        exact ⟨hp, hy, hkey, hd⟩
      · rw [Function.update_self] at hy
        exact absurd (hkey.symm.trans (congrArg S.key (Option.some.inj hy).symm)) hk

/-! A slot goes from one chain to the front of another one. -/

section move
variable {before after : List ℕ} {y : σ} (h : Chained S next slot chain)
  (hb : chain b = before++o::after)
include h hb

theorem move (hx : slot o = some x) (hcb : c ≠ b)
    (hy : Suits S (Function.update slot o none) (Function.update chain b (before++after)) y c) :
    Chained S (Function.update (Function.update
        (Function.update next (before.getLastD (S.head b)) (next o)) o (next (S.head c)))
        (S.head c) o)
      (Function.update slot o (some y))
      (Function.update (Function.update chain b (before++after)) c (o::chain c)) := by
  have hpushed := push (remove h hb) (Function.update_self ..) (slot_ne_zero h hx)
    (slot_ne_head h hx) hy
  rwa [Function.update_idem, Function.update_of_ne (before_ne_head h hb hcb).symm,
    Function.update_of_ne hcb] at hpushed

/-- A slot that becomes free takes its key with it. -/
theorem holds_retire [DecidableEq κ] (hx : slot o = some x) (hused : b = some (S.hash (S.key x)))
    (hm : Holds S slot chain m) :
    Holds S (Function.update slot o (some y))
      (Function.update (Function.update chain b (before++after)) none (o::chain none))
      (Function.update m (S.key x) none) := by
  have hholds := holds_push_free (x := y) (remove h hb) (Function.update_self ..)
    (holds_remove h hb hx hused hm)
  have hne : none ≠ b := by
    rw [hused]
    exact (Option.some_ne_none _).symm
  rwa [Function.update_idem, Function.update_of_ne hne] at hholds

/-- A free slot that is used again brings its new key. -/
theorem holds_revive [DecidableEq κ] (hfree : b = none)
    (hy : Suits S (Function.update slot o none) (Function.update chain b (before++after)) y
      (some (S.hash (S.key y)))) (hm : Holds S slot chain m) :
    Holds S (Function.update slot o (some y))
      (Function.update (Function.update chain b (before++after)) (some (S.hash (S.key y)))
        (o::chain (some (S.hash (S.key y)))))
      (Function.update m (S.key y) (some (S.value y))) := by
  have hholds := holds_push (remove h hb) (Function.update_self ..) hy
    (holds_remove_free h hb hfree hm)
  have hne : some (S.hash (S.key y)) ≠ b := by
    rw [hfree]
    exact Option.some_ne_none _
  rwa [Function.update_idem, Function.update_of_ne hne] at hholds

end move

/-! A slot gets another value. -/

omit [DecidableEq β] in
theorem rewrite_slot (h : Chained S next slot chain) (hx : slot o = some x) {y : σ}
    (hkey : S.key y = S.key x) (hused : ∃ b, o ∈ chain (some b)) :
    Chained S next (Function.update slot o (some y)) chain := by
  obtain ⟨b, hb⟩ := hused
  have hslot : ∀ p z, Function.update slot o (some y) p = some z →
      ∃ z', slot p = some z' ∧ S.key z' = S.key z := by
    intro p z hp
    by_cases hpo : p = o
    · rw [hpo, Function.update_self] at hp
      exact ⟨x, by rw [hpo, hx], by rw [← hkey, Option.some.inj hp]⟩
    · rw [Function.update_of_ne hpo] at hp
      exact ⟨z, hp, rfl⟩
  have hnone : ∀ p, slot p = none → Function.update slot o (some y) p = none := by
    intro p hp
    by_cases hpo : p = o
    · rw [hpo, hx] at hp
      cases hp
    · rw [Function.update_of_ne hpo, hp]
  refine ⟨hnone 0 h.zero, fun c => hnone _ (h.heads c), h.linked, h.nodup, ?_, ?_, ?_, h.free,
    ?_, ?_⟩
  · intro c p hp
    by_cases hpo : p = o
    · exact ⟨y, by rw [hpo, Function.update_self]⟩
    · rw [Function.update_of_ne hpo]
      exact h.member c p hp
  · intro p z hz
    obtain ⟨z', hz', hsame⟩ := hslot p z hz
    rw [← hsame]
    exact h.filed p z' hz'
  · intro c p hp z hz
    obtain ⟨z', hz', hsame⟩ := hslot p z hz
    rw [← hsame]
    exact h.bucket c p hp z' hz'
  · intro p hp z hz
    have hpo : p ≠ o := fun heq => h.free b o (heq ▸ hp) hb
    rw [Function.update_of_ne hpo] at hz
    exact h.blank p hp z hz
  · intro c p hp p' hp' z z' hz hz' hsame
    obtain ⟨w, hw, heq⟩ := hslot p z hz
    obtain ⟨w', hw', heq'⟩ := hslot p' z' hz'
    exact h.once c p hp p' hp' w w' hw hw' (by rw [heq, heq', hsame])

omit [DecidableEq β] in
theorem holds_rewrite [DecidableEq κ] (h : Chained S next slot chain) (hx : slot o = some x)
    {y : σ} (hkey : S.key y = S.key x) (ho : o ∈ chain (some (S.hash (S.key x))))
    (hm : Holds S slot chain m) :
    Holds S (Function.update slot o (some y)) chain
      (Function.update m (S.key x) (some (S.value y))) := by
  intro k d
  by_cases hk : k = S.key x
  · subst hk
    rw [Function.update_self]
    constructor
    · exact fun hd => ⟨o, y, ho, Function.update_self .., hkey, Option.some.inj hd⟩
    · rintro ⟨p, z, hp, hz, hzkey, rfl⟩
      by_cases hpo : p = o
      · rw [hpo, Function.update_self] at hz
        rw [Option.some.inj hz]
      · rw [Function.update_of_ne hpo] at hz
        exact absurd (h.once _ p hp o ho z x hz hx hzkey) hpo
  · rw [Function.update_of_ne hk, hm k d]
    refine exists_congr fun p => ?_
    by_cases hpo : p = o
    · subst hpo
      rw [Function.update_self]
      constructor
      · rintro ⟨z, -, hz, hzkey, -⟩
        rw [hx] at hz
        exact absurd (hzkey.symm.trans (congrArg S.key (Option.some.inj hz).symm)) hk
      · rintro ⟨z, -, hz, hzkey, -⟩
        have hzx : S.key z = S.key x := (congrArg S.key (Option.some.inj hz).symm).trans hkey
        exact absurd (hzkey.symm.trans hzx) hk
    · rw [Function.update_of_ne hpo]

end chains

end ProgSistema.ChainedTable
