import Mathlib.Tactic

/-!
# Chains of cells linked by a successor field

Cells are named by an index type and addressed by an injection into a pointer
type that has one further value, the end marker. A chain is the list of
cells met when the successor field is followed from a pointer to that marker.
-/

set_option autoImplicit false

namespace ProgSistema.LinkedChain
variable {ι κ : Type*}

def Linked (addr : ι → κ) (stop : κ) (next : ι → κ) : κ → List ι → Prop
  | p, [] => p = stop
  | p, i::l => p = addr i ∧ Linked addr stop next (next i) l

variable {addr : ι → κ} {stop : κ}

theorem linked_congr {next next' : ι → κ} (p : κ) (l : List ι)
    (h : ∀ i ∈ l, next i = next' i) :
    Linked addr stop next p l ↔ Linked addr stop next' p l := by
  induction l generalizing p with
  | nil => rfl
  | cons i l ih =>
    rw [Linked, Linked, h i (by simp), ih _ (fun j hj => h j (by simp [hj]))]

theorem linked_stop {next : ι → κ} (hs : ∀ i, addr i ≠ stop) (l : List ι)
    (h : Linked addr stop next stop l) : l = [] := by
  cases l with
  | nil => rfl
  | cons i l => exact absurd h.1.symm (hs i)

/-- Pointers determine chains: there is at most one way to reach the end. -/
theorem linked_unique {next : ι → κ} (ha : Function.Injective addr)
    (hs : ∀ i, addr i ≠ stop) (p : κ) (l l' : List ι)
    (h : Linked addr stop next p l) (h' : Linked addr stop next p l') : l = l' := by
  induction l generalizing p l' with
  | nil =>
    rw [Linked] at h
    subst h
    exact (linked_stop hs l' h').symm
  | cons i l ih =>
    cases l' with
    | nil => exact absurd (h.1.symm.trans h') (hs i)
    | cons j l' =>
      have hij : i = j := ha (h.1.symm.trans h'.1)
      subst hij
      rw [ih _ _ h.2 h'.2]

theorem linked_suffix {next : ι → κ} (p : κ) (l r : List ι) (i : ι)
    (h : Linked addr stop next p (l++i::r)) : Linked addr stop next (next i) r := by
  induction l generalizing p with
  | nil => exact h.2
  | cons j l ih => exact ih _ h.2

/-- A chain that ends cannot meet a cell twice, since the two remainders
would be different chains from one pointer. -/
theorem linked_nodup {next : ι → κ} (ha : Function.Injective addr)
    (hs : ∀ i, addr i ≠ stop) (p : κ) (l : List ι)
    (h : Linked addr stop next p l) : l.Nodup := by
  induction l generalizing p with
  | nil => exact List.nodup_nil
  | cons i l ih =>
    refine List.nodup_cons.mpr ⟨?_, ih _ h.2⟩
    intro hi
    obtain ⟨a, b, rfl⟩ := List.append_of_mem hi
    have hr := linked_suffix _ _ _ _ h.2
    have heq := congrArg List.length (linked_unique ha hs _ _ _ hr h.2)
    simp only [List.length_append, List.length_cons] at heq
    omega

theorem linked_push [DecidableEq ι] {next : ι → κ} (p q : κ) (l : List ι) (i : ι)
    (hi : i ∉ l) (h : Linked addr stop next p l) (hq : q = p) :
    Linked addr stop (Function.update next i q) (addr i) (i::l) := by
  refine ⟨rfl, ?_⟩
  rw [Function.update_self, hq]
  refine (linked_congr p l ?_).mp h
  intro j hj
  have hne : j ≠ i := fun hji => hi (hji ▸ hj)
  rw [Function.update_of_ne hne]

/-- A chain from the field of `q` is still one where no field on it has changed. -/
theorem linked_frame {next next' : ι → κ} (q : ι) (l : List ι)
    (h : ∀ i ∈ q::l, next i = next' i) (hl : Linked addr stop next (next q) l) :
    Linked addr stop next' (next' q) l := by
  rw [← h q List.mem_cons_self]
  exact (linked_congr _ l fun i hi => h i (List.mem_cons_of_mem _ hi)).mp hl

/-- A cell is taken out when the field before it gets what its own field has. -/
theorem linked_remove [DecidableEq ι] {next : ι → κ} (q o : ι) (before after : List ι)
    (hd : (q::(before++o::after)).Nodup)
    (h : Linked addr stop next (next q) (before++o::after)) :
    Linked addr stop (Function.update next (before.getLastD q) (next o))
      (Function.update next (before.getLastD q) (next o) q) (before++after) := by
  induction before generalizing q with
  | nil =>
    rw [List.getLastD_nil, Function.update_self]
    refine (linked_congr _ after fun i hi => ?_).mp h.2
    have hne : i ≠ q := fun heq =>
      (List.nodup_cons.mp hd).1 (heq ▸ List.mem_cons_of_mem o hi)
    rw [Function.update_of_ne hne]
  | cons p before ih =>
    obtain ⟨hq, hd'⟩ := List.nodup_cons.mp hd
    have hlast : before.getLastD p ∈ p::(before++o::after) := by
      rcases List.mem_cons.mp (List.getLastD_mem_cons (l := before) (a := p)) with heq | hmem
      · rw [heq]
        exact List.mem_cons_self
      · exact List.mem_cons_of_mem _ (List.mem_append_left _ hmem)
    have hne : q ≠ before.getLastD p := fun heq => hq (heq ▸ hlast)
    rw [List.getLastD_cons, Function.update_of_ne hne]
    exact ⟨h.1, ih p hd' h.2⟩

/-- The field before a cell of the chain points to it. -/
theorem linked_pointer {next : ι → κ} (q o : ι) (before after : List ι)
    (h : Linked addr stop next (next q) (before++o::after)) :
    next (before.getLastD q) = addr o := by
  induction before generalizing q with
  | nil => exact h.1
  | cons p before ih =>
    rw [List.getLastD_cons]
    exact ih p h.2

end ProgSistema.LinkedChain
