import ProgSistema.Lib.Semaphore

/-!
# A semaphore that ends of processes undo

The system remembers for each process what it has taken from a semaphore with
`SEM_UNDO` and not given back, and gives it back when the process ends. Setting
the value clears what is remembered.
-/

set_option autoImplicit false

namespace ProgSistema.UndoSemaphore
open Semaphore

def semvmx : ℕ := 32767

structure Sem (ι : Type*) where
  value : ℕ
  semadj : ι → ℤ

section
variable {ι : Type*}

def Sem.setval (n : ℕ) (_ : Sem ι) : Sem ι := { value := n, semadj := fun _ => 0 }

def Sem.holds (s : Sem ι) (i : ι) : Option Unit := if s.semadj i = 1 then some () else none

structure Binary (s : Sem ι) : Prop where
  guards : Guards (fun _ => s.value) s.holds
  owed : ∀ i, s.semadj i = 0 ∨ s.semadj i = 1

theorem holds_of_semadj {s : Sem ι} {i : ι} (h : s.semadj i = 1) : s.holds i = some () := if_pos h

theorem binary_alone {s : Sem ι} (hb : Binary s) {i j : ι} (hi : s.semadj i = 1)
    (hj : s.semadj j = 1) : i = j :=
  hb.guards.alone i j () (holds_of_semadj hi) (holds_of_semadj hj)

theorem binary_setval (s : Sem ι) : Binary (s.setval 1) := by
  refine ⟨⟨alone_of_empty fun _ => rfl, fun _ _ h => ?_, fun _ => le_rfl⟩, fun _ => .inl rfl⟩
  cases h

variable [DecidableEq ι]

/-- `semop` of one operation with `SEM_UNDO`; it waits where it has no value. -/
def Sem.semop (i : ι) (op : ℤ) (s : Sem ι) : Option (Sem ι) :=
  if 0 ≤ s.value+op ∧ s.value+op ≤ semvmx then
    some { value := (s.value+op).toNat
           semadj := Function.update s.semadj i (s.semadj i-op) }
  else none

def Sem.undo (i : ι) (s : Sem ι) : Sem ι where
  value := min semvmx (s.value+s.semadj i).toNat
  semadj := Function.update s.semadj i 0

theorem holds_update (value : ℕ) (s : Sem ι) (i : ι) (n : ℤ) :
    Sem.holds { value := value, semadj := Function.update s.semadj i n } =
      Function.update s.holds i (if n = 1 then some () else none) :=
  Sharing.keys_update (fun n : ℤ => if n = 1 then some () else none) s.semadj i n

theorem owed_update {s : Sem ι} (hb : Binary s) (i : ι) {n : ℤ} (hn : n = 0 ∨ n = 1) (j : ι) :
    Function.update s.semadj i n j = 0 ∨ Function.update s.semadj i n j = 1 :=
  (Function.forall_update_iff s.semadj fun _ m => m = 0 ∨ m = 1).mpr
    ⟨hn, fun j _ => hb.owed j⟩ j

theorem semop_value {s s' : Sem ι} {i : ι} {op : ℤ} (h : s.semop i op = some s') :
    0 ≤ s.value+op ∧ s' = { value := (s.value+op).toNat
                            semadj := Function.update s.semadj i (s.semadj i-op) } := by
  unfold Sem.semop at h
  split at h
  · rename_i hin
    cases h
    exact ⟨hin.1, rfl⟩
  · cases h

/-- An operation is remembered for the process that makes it. -/
theorem semop_others {s s' : Sem ι} {i j : ι} {op : ℤ} (h : s.semop i op = some s') (hj : j ≠ i) :
    s'.semadj j = s.semadj j := by
  obtain ⟨-, rfl⟩ := semop_value h
  exact Function.update_of_ne hj _ _

theorem undo_others (s : Sem ι) {i j : ι} (hj : j ≠ i) : (s.undo i).semadj j = s.semadj j :=
  Function.update_of_ne hj _ _

theorem semop_wait {s s' : Sem ι} {i : ι} (hb : Binary s) (h : s.semop i (-1) = some s') :
    Binary s' ∧ s'.semadj i = 1 := by
  obtain ⟨hin, rfl⟩ := semop_value h
  have hpos : s.value ≠ 0 := by omega
  have hfree : s.semadj i = 0 := by
    rcases hb.owed i with hzero | hone
    · exact hzero
    · exact absurd (hb.guards.taken i () (holds_of_semadj hone)) hpos
  have hone : s.semadj i-(-1) = 1 := by omega
  have hvalue : ((s.value : ℤ)+-1).toNat = s.value-1 := by omega
  rw [hone, hvalue]
  refine ⟨⟨?_, owed_update hb i (.inr rfl)⟩, Function.update_self _ _ _⟩
  rw [holds_update, if_pos rfl]
  exact guards_wait_one hb.guards i hpos

/-- The value that a process gives back when it has taken the semaphore. -/
theorem binary_given {s : Sem ι} {i : ι} (hb : Binary s) (hi : s.semadj i = 1) :
    Binary { value := s.value+1, semadj := Function.update s.semadj i 0 } := by
  refine ⟨?_, owed_update hb i (.inl rfl)⟩
  rw [holds_update, if_neg (by decide)]
  exact guards_post_one hb.guards (holds_of_semadj hi)

theorem semop_post {s s' : Sem ι} {i : ι} (hb : Binary s) (hi : s.semadj i = 1)
    (h : s.semop i 1 = some s') : Binary s' := by
  obtain ⟨-, rfl⟩ := semop_value h
  have hzero : s.semadj i-1 = 0 := by omega
  have hvalue : ((s.value : ℤ)+1).toNat = s.value+1 := by omega
  rw [hzero, hvalue]
  exact binary_given hb hi

theorem binary_undo {s : Sem ι} (hb : Binary s) (i : ι) : Binary (s.undo i) := by
  have hle := hb.guards.binary ()
  rcases hb.owed i with hzero | hone
  · have hvalue : min semvmx ((s.value : ℤ)+s.semadj i).toNat = s.value := by
      rw [hzero, semvmx]
      omega
    have hsame : s.undo i = s := by
      rw [Sem.undo, hvalue, ← hzero, Function.update_eq_self]
    rw [hsame]
    exact hb
  · have htaken := hb.guards.taken i () (holds_of_semadj hone)
    have hvalue : min semvmx ((s.value : ℤ)+s.semadj i).toNat = s.value+1 := by
      rw [hone, htaken]
      decide
    rw [Sem.undo, hvalue]
    exact binary_given hb hone

end

end ProgSistema.UndoSemaphore
