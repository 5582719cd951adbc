import ProgSistema.DiskScanner.Total

/-!
# Answers of the inode table

`is_inode_visited` records a number while there is room for it. Once the table is
full a number that is not in it is taken for a new one at every call.
-/

set_option autoImplicit false

namespace ProgSistema.DiskScanner

def answers (inodes : List ℕ) : List Bool :=
  (Runs.replies (fun inode tracker => isInodeVisited tracker inode) inodes ⟨[]⟩).1

theorem replies_fresh (before inodes : List ℕ) :
    (Runs.replies (fun inode tracker => isInodeVisited tracker inode) inodes
        ⟨(Tally.firstKeys before).take maxInodes⟩).1.count false =
      (Tally.chargedAfter maxInodes id before inodes).length := by
  induction inodes generalizing before with
  | nil => rfl
  | cons inode inodes ih =>
    rw [Runs.replies, is_inode_visited_spec, Tally.record_first, Tally.chargedAfter]
    dsimp only [id]
    rw [List.count_cons, ih]
    by_cases hknown : inode ∈ (Tally.firstKeys before).take maxInodes
    · simp [hknown]
    · simp [hknown]

theorem answers_fresh (inodes : List ℕ) : (answers inodes).count false =
    (Tally.chargedAfter maxInodes id [] inodes).length :=
  replies_fresh [] inodes

/-- There are as many answers 0 as different numbers exactly if no number comes
again that is not among the first `maxInodes` different ones. -/
theorem fresh_answers_iff (inodes : List ℕ) :
    (answers inodes).count false = inodes.toFinset.card ↔
      ∀ inode ∈ inodes, inode ∉ (Tally.firstKeys inodes).take maxInodes →
        inodes.count inode = 1 := by
  rw [answers_fresh]
  exact Tally.charged_length_iff maxInodes inodes

def oneTooMany : List ℕ := List.range (maxInodes+1)++[maxInodes]

theorem one_too_many_first :
    (Tally.firstKeys oneTooMany).take maxInodes = List.range maxInodes := by
  have hmem : maxInodes ∈ List.range (maxInodes+1) := List.mem_range.mpr (Nat.lt_succ_self _)
  rw [oneTooMany, Tally.first_keys_concat, if_pos hmem, Tally.firstKeys,
    (List.nodup_reverse.mpr List.nodup_range).dedup, List.reverse_reverse, List.range_succ,
    List.take_left' List.length_range]

/-- The number that has not fitted is new twice. -/
theorem new_again : ¬ ∀ inodes, (answers inodes).count false = inodes.toFinset.card := by
  intro h
  have hsame := h oneTooMany
  have hmem : maxInodes ∈ oneTooMany := List.mem_append_right _ (List.mem_singleton_self _)
  have hnot : maxInodes ∉ (Tally.firstKeys oneTooMany).take maxInodes := by
    rw [one_too_many_first]
    exact List.not_mem_range_self
  rw [answers_fresh, Tally.charged_length_iff] at hsame
  have hcount := hsame maxInodes hmem hnot
  rw [oneTooMany, List.range_succ, List.count_append, List.count_append,
    List.count_singleton_self] at hcount
  omega

end ProgSistema.DiskScanner
