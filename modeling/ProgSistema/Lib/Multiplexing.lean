import Mathlib.Data.Finset.Basic
import Mathlib.Tactic

/-!
# Waiting on many descriptors

A program that serves many connections in one thread gives `select` a set of
descriptors and a bound on them. The result is a part of the set, below the
bound.
-/

set_option autoImplicit false

namespace ProgSistema.Multiplexing

structure Monitored where
  fds : Finset ℕ
  maxFd : ℕ
  deriving DecidableEq

namespace Monitored

def zero : Monitored := ⟨∅, 0⟩

/-- `FD_SET`, which also raises the bound. -/
def watch (m : Monitored) (fd : ℕ) : Monitored where
  fds := insert fd m.fds
  maxFd := if fd > m.maxFd then fd else m.maxFd

def forget (m : Monitored) (fd : ℕ) : Monitored := { m with fds := m.fds.erase fd }

def watchAll (m : Monitored) (fds : List ℕ) : Monitored := fds.foldl watch m

def Reports (m : Monitored) (ready : Finset ℕ) : Prop :=
  ready ⊆ m.fds ∧ ∀ fd ∈ ready, fd ≤ m.maxFd

instance (m : Monitored) (ready : Finset ℕ) : Decidable (m.Reports ready) :=
  inferInstanceAs (Decidable (_ ∧ _))

def Bounded (m : Monitored) : Prop := ∀ fd ∈ m.fds, fd ≤ m.maxFd

theorem zero_bounded : zero.Bounded := fun _ hfd => absurd hfd (Finset.notMem_empty _)

theorem max_fd_le_watch (m : Monitored) (fd : ℕ) : m.maxFd ≤ (m.watch fd).maxFd := by
  unfold watch
  dsimp only
  split <;> omega

theorem le_watch (m : Monitored) (fd : ℕ) : fd ≤ (m.watch fd).maxFd := by
  unfold watch
  dsimp only
  split <;> omega

theorem Bounded.watch {m : Monitored} (h : m.Bounded) (fd : ℕ) : (m.watch fd).Bounded := by
  intro fd' hmem
  rcases Finset.mem_insert.mp hmem with rfl | hold
  · exact le_watch m fd'
  · exact (h fd' hold).trans (max_fd_le_watch m fd)

theorem Bounded.forget {m : Monitored} (h : m.Bounded) (fd : ℕ) : (m.forget fd).Bounded :=
  fun fd' hmem => h fd' (Finset.mem_of_mem_erase hmem)

theorem watch_all_fds (m : Monitored) (fds : List ℕ) :
    (m.watchAll fds).fds = m.fds ∪ fds.toFinset := by
  induction fds generalizing m with
  | nil => simp [watchAll]
  | cons fd fds ih =>
    have hnext : (m.watchAll (fd::fds)).fds = insert fd m.fds ∪ fds.toFinset := ih (m.watch fd)
    rw [hnext, List.toFinset_cons, Finset.insert_union, Finset.union_insert]

theorem Bounded.watch_all {m : Monitored} (h : m.Bounded) (fds : List ℕ) :
    (m.watchAll fds).Bounded := by
  induction fds generalizing m with
  | nil => exact h
  | cons fd fds ih => exact ih (h.watch fd)

end Monitored

end ProgSistema.Multiplexing
