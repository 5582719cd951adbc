import ProgSistema.Lib.Sharing

/-!
# Binary semaphores

Processes hold keys: the semaphore of a critical section they are in, or an
object they are setting up. A family of semaphores with initial value one is
exclusive whatever order the processes wait and post in, also when some of
them never post.
-/

set_option autoImplicit false

namespace ProgSistema.Semaphore

section
variable {ι κ : Type*}

def Alone (holds : ι → Option κ) : Prop :=
  ∀ i j k, holds i = some k → holds j = some k → i = j

theorem alone_of_empty {holds : ι → Option κ} (h : ∀ i, holds i = none) : Alone holds := by
  intro i j k hi
  rw [h i] at hi
  cases hi

structure Guards (value : κ → ℕ) (holds : ι → Option κ) : Prop where
  alone : Alone holds
  taken : ∀ i k, holds i = some k → value k = 0
  binary : ∀ k, value k ≤ 1

/-- A semaphore that nobody holds may be set to one. -/
theorem guards_set [DecidableEq κ] {value : κ → ℕ} {holds : ι → Option κ}
    (hg : Guards value holds) (k : κ) (hfree : ∀ i, holds i ≠ some k) :
    Guards (Function.update value k 1) holds := by
  constructor
  · exact hg.alone
  · intro i k' hi
    have hk : k' ≠ k := by
      intro hk
      rw [hk] at hi
      exact hfree i hi
    rw [Function.update_of_ne hk]
    exact hg.taken i k' hi
  · intro k'
    by_cases hk : k' = k
    · rw [hk, Function.update_self]
    · rw [Function.update_of_ne hk]
      exact hg.binary k'

variable [DecidableEq ι]

theorem alone_update {holds : ι → Option κ} (ha : Alone holds) (i : ι) (next : Option κ)
    (hfree : ∀ k, next = some k → ∀ j, j ≠ i → holds j ≠ some k) :
    Alone (Function.update holds i next) := by
  apply Sharing.pairs_update fun j q l q' => ∀ k, q = some k → q' = some k → j = l
  · intro j q l q' hsame k hq hq'
    exact (hsame k hq' hq).symm
  · intro _ _ _
    rfl
  · intro j hj k hk hheld
    exact absurd hheld (hfree k hk j hj)
  · exact ha

/-- A step that neither takes nor gives back a semaphore. -/
theorem guards_keep {value : κ → ℕ} {holds : ι → Option κ} (hg : Guards value holds) {i : ι}
    {next : Option κ} (hnext : next = holds i) :
    Guards value (Function.update holds i next) := by
  rw [hnext, Function.update_eq_self]
  exact hg

theorem guards_leave {value : κ → ℕ} {holds : ι → Option κ} (hg : Guards value holds) (i : ι) :
    Guards value (Function.update holds i none) := by
  constructor
  · apply alone_update hg.alone
    intro k hk
    cases hk
  · intro j k hj
    by_cases hji : j = i
    · rw [hji, Function.update_self] at hj
      cases hj
    · rw [Function.update_of_ne hji] at hj
      exact hg.taken j k hj
  · exact hg.binary

variable [DecidableEq κ]

theorem guards_wait {value : κ → ℕ} {holds : ι → Option κ} (hg : Guards value holds) (i : ι)
    (k : κ) (hpos : value k ≠ 0) :
    Guards (Function.update value k (value k-1)) (Function.update holds i (some k)) := by
  have hone : value k = 1 := by
    have hle := hg.binary k
    omega
  constructor
  · apply alone_update hg.alone
    intro k' hk' j _ hj
    cases hk'
    exact hpos (hg.taken j k hj)
  · intro j k' hj
    by_cases hk : k' = k
    · rw [hk, Function.update_self, hone]
    · rw [Function.update_of_ne hk]
      by_cases hji : j = i
      · rw [hji, Function.update_self] at hj
        exact absurd (Option.some.inj hj).symm hk
      · rw [Function.update_of_ne hji] at hj
        exact hg.taken j k' hj
  · intro k'
    by_cases hk : k' = k
    · rw [hk, Function.update_self, hone]
      omega
    · rw [Function.update_of_ne hk]
      exact hg.binary k'

theorem guards_post {value : κ → ℕ} {holds : ι → Option κ} (hg : Guards value holds) (i : ι)
    (k : κ) (hi : holds i = some k) :
    Guards (Function.update value k (value k+1)) (Function.update holds i none) := by
  rw [hg.taken i k hi]
  apply guards_set (guards_leave hg i)
  intro j hj
  by_cases hji : j = i
  · rw [hji, Function.update_self] at hj
    cases hj
  · rw [Function.update_of_ne hji] at hj
    exact hji (hg.alone j i k hj hi)

structure Balanced (value : κ → ℕ) (holds : ι → Option κ) : Prop extends Guards value holds where
  owner : ∀ k, value k = 0 → ∃ i, holds i = some k

theorem balanced_wait {value : κ → ℕ} {holds : ι → Option κ} (hb : Balanced value holds) (i : ι)
    (k : κ) (hi : holds i = none) (hpos : value k ≠ 0) :
    Balanced (Function.update value k (value k-1)) (Function.update holds i (some k)) := by
  refine ⟨guards_wait hb.toGuards i k hpos, ?_⟩
  intro k' hzero
  by_cases hk : k' = k
  · exact ⟨i, by rw [hk, Function.update_self]⟩
  · rw [Function.update_of_ne hk] at hzero
    obtain ⟨j, hj⟩ := hb.owner k' hzero
    have hji : j ≠ i := by
      intro hji
      rw [hji, hi] at hj
      cases hj
    exact ⟨j, by rw [Function.update_of_ne hji, hj]⟩

theorem balanced_post {value : κ → ℕ} {holds : ι → Option κ} (hb : Balanced value holds) (i : ι)
    (k : κ) (hi : holds i = some k) :
    Balanced (Function.update value k (value k+1)) (Function.update holds i none) := by
  refine ⟨guards_post hb.toGuards i k hi, ?_⟩
  intro k' hzero
  have hk : k' ≠ k := by
    intro hk
    rw [hk, Function.update_self] at hzero
    omega
  rw [Function.update_of_ne hk] at hzero
  obtain ⟨j, hj⟩ := hb.owner k' hzero
  have hji : j ≠ i := by
    intro hji
    rw [hji, hi] at hj
    exact hk (Option.some.inj hj).symm
  exact ⟨j, by rw [Function.update_of_ne hji, hj]⟩

end

/-! A single semaphore. -/

section One
variable {ι : Type*} [DecidableEq ι] {value : ℕ} {holds : ι → Option Unit} {i : ι}

theorem update_one (value next : ℕ) :
    Function.update (fun _ : Unit => value) () next = fun _ => next := by
  funext u
  rw [Subsingleton.elim u (), Function.update_self]

theorem guards_wait_one (hg : Guards (fun _ => value) holds) (i : ι) (hpos : value ≠ 0) :
    Guards (fun _ => value-1) (Function.update holds i (some ())) := by
  rw [← update_one value]
  exact guards_wait hg i () hpos

theorem guards_post_one (hg : Guards (fun _ => value) holds) (hi : holds i = some ()) :
    Guards (fun _ => value+1) (Function.update holds i none) := by
  rw [← update_one value]
  exact guards_post hg i () hi

theorem balanced_wait_one (hb : Balanced (fun _ => value) holds) (hi : holds i = none)
    (hpos : value ≠ 0) : Balanced (fun _ => value-1) (Function.update holds i (some ())) := by
  rw [← update_one value]
  exact balanced_wait hb i () hi hpos

theorem balanced_post_one (hb : Balanced (fun _ => value) holds) (hi : holds i = some ()) :
    Balanced (fun _ => value+1) (Function.update holds i none) := by
  rw [← update_one value]
  exact balanced_post hb i () hi

theorem balanced_keep {key : Option Unit} (hb : Balanced (fun _ => value) holds)
    (hkey : key = holds i) : Balanced (fun _ => value) (Function.update holds i key) := by
  rw [hkey, Function.update_eq_self]
  exact hb

inductive Passes (old new : Option Unit) (value value' : ℕ) : Prop where
  | keeps (hkey : new = old) (hvalue : value' = value)
  | waits (hold : old = none) (hpos : value ≠ 0) (hkey : new = some ()) (hvalue : value' = value-1)
  | posts (hold : old = some ()) (hkey : new = none) (hvalue : value' = value+1)

theorem balanced_passes {key : Option Unit} {value' : ℕ}
    (hb : Balanced (fun _ => value) holds) (h : Passes (holds i) key value value') :
    Balanced (fun _ => value') (Function.update holds i key) := by
  cases h with
  | keeps hkey hvalue =>
    rw [hvalue]
    exact balanced_keep hb hkey
  | waits hold hpos hkey hvalue =>
    rw [hkey, hvalue]
    exact balanced_wait_one hb hold hpos
  | posts hold hkey hvalue =>
    rw [hkey, hvalue]
    exact balanced_post_one hb hold

end One

end ProgSistema.Semaphore
