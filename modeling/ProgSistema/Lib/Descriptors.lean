import ProgSistema.Lib.Slots

/-!
# Descriptors of sockets

The kernel keeps which sockets the open descriptors of a process stand for.
The connections are numbered in the order of acceptance; a descriptor that has
been closed may stand for a later one.
-/

set_option autoImplicit false

namespace ProgSistema.Descriptors
open Slots

/-- The listening sockets, the connection of each descriptor, the number of
accepted connections and those that have been closed. Each accepted connection
is closed or stands behind exactly one descriptor. -/
structure Table where
  listening : Finset ℕ
  connection : ℕ → Option ℕ
  accepted : ℕ
  closed : List ℕ
  distinct : Distinct connection
  disjoint : ∀ fd ∈ listening, connection fd = none
  nodup : closed.Nodup
  accounted : ∀ c, c < accepted ↔ c ∈ closed ∨ ∃ fd, connection fd = some c
  open_or_closed : ∀ c ∈ closed, ∀ fd, connection fd ≠ some c

namespace Table

def empty : Table where
  listening := ∅
  connection _ := none
  accepted := 0
  closed := []
  distinct := distinct_none
  disjoint _ _ := rfl
  nodup := List.nodup_nil
  accounted _ := by simp
  open_or_closed _ hc := nomatch hc

def IsOpen (t : Table) (fd : ℕ) : Prop := fd ∈ t.listening ∨ (t.connection fd).isSome = true

instance (t : Table) (fd : ℕ) : Decidable (t.IsOpen fd) := inferInstanceAs (Decidable (_ ∨ _))

theorem connection_of_free {t : Table} {fd : ℕ} (h : ¬ t.IsOpen fd) : t.connection fd = none :=
  Option.not_isSome_iff_eq_none.mp (not_or.mp h).2

def listen (t : Table) (fd : ℕ) (hfree : ¬ t.IsOpen fd) : Table :=
  { t with
    listening := insert fd t.listening,
    disjoint := by
      intro fd' hmem
      rcases Finset.mem_insert.mp hmem with rfl | hold
      · exact connection_of_free hfree
      · exact t.disjoint fd' hold }

theorem new_connection (t : Table) (fd : ℕ) : t.connection fd ≠ some t.accepted := by
  intro h
  exact lt_irrefl _ ((t.accounted t.accepted).mpr (Or.inr ⟨fd, h⟩))

theorem new_not_closed (t : Table) : t.accepted ∉ t.closed := by
  intro h
  exact lt_irrefl _ ((t.accounted t.accepted).mpr (Or.inl h))

def accept (t : Table) (fd : ℕ) (hfree : ¬ t.IsOpen fd) : Table :=
  { t with
    connection := Function.update t.connection fd (some t.accepted),
    accepted := t.accepted+1,
    distinct := t.distinct.put fd (new_connection t),
    disjoint := by
      intro fd' hmem
      have hne : fd' ≠ fd := by
        rintro rfl
        exact hfree (Or.inl hmem)
      rw [Function.update_of_ne hne]
      exact t.disjoint fd' hmem
    accounted := by
      intro c
      constructor
      · intro hc
        rcases Nat.lt_succ_iff_lt_or_eq.mp hc with hold | rfl
        · rcases (t.accounted c).mp hold with hclosed | ⟨fd', hfd'⟩
          · exact Or.inl hclosed
          · refine Or.inr ⟨fd', put_some.mpr (Or.inr ⟨?_, hfd'⟩)⟩
            rintro rfl
            rw [connection_of_free hfree] at hfd'
            cases hfd'
        · exact Or.inr ⟨fd, Function.update_self fd _ _⟩
      · rintro (hclosed | ⟨fd', hfd'⟩)
        · exact Nat.lt_succ_of_lt ((t.accounted c).mpr (Or.inl hclosed))
        · rcases put_some.mp hfd' with ⟨-, rfl⟩ | ⟨-, hold⟩
          · exact Nat.lt_succ_self _
          · exact Nat.lt_succ_of_lt ((t.accounted c).mpr (Or.inr ⟨fd', hold⟩))
    open_or_closed := by
      intro c hc fd' hfd'
      rcases put_some.mp hfd' with ⟨-, rfl⟩ | ⟨-, hold⟩
      · exact new_not_closed t hc
      · exact t.open_or_closed c hc fd' hold }

theorem mem_close {t : Table} {fd c : ℕ} :
    c ∈ t.closed++(t.connection fd).toList ↔ c ∈ t.closed ∨ t.connection fd = some c := by
  simp

def close (t : Table) (fd : ℕ) : Table :=
  { t with
    listening := t.listening.erase fd,
    connection := Function.update t.connection fd none,
    closed := t.closed++(t.connection fd).toList,
    distinct := t.distinct.clear fd,
    disjoint := by
      intro fd' hmem
      obtain ⟨hne, hold⟩ := Finset.mem_erase.mp hmem
      rw [Function.update_of_ne hne]
      exact t.disjoint fd' hold
    nodup := by
      cases hfd : t.connection fd with
      | none => simpa using t.nodup
      | some c =>
        have hnew : c ∉ t.closed := fun hc => t.open_or_closed c hc fd hfd
        exact List.nodup_append'.mpr ⟨t.nodup, List.nodup_singleton c, by simpa using hnew⟩
    accounted := by
      intro c
      rw [t.accounted c, mem_close]
      constructor
      · rintro (hclosed | ⟨fd', hfd'⟩)
        · exact Or.inl (Or.inl hclosed)
        · by_cases hne : fd' = fd
          · exact Or.inl (Or.inr (hne ▸ hfd'))
          · exact Or.inr ⟨fd', clear_some.mpr ⟨hne, hfd'⟩⟩
      · rintro ((hclosed | hfd) | ⟨fd', hfd'⟩)
        · exact Or.inl hclosed
        · exact Or.inr ⟨fd, hfd⟩
        · exact Or.inr ⟨fd', (clear_some.mp hfd').2⟩
    open_or_closed := by
      intro c hc fd' hfd'
      obtain ⟨hne, hold⟩ := clear_some.mp hfd'
      rcases mem_close.mp hc with hclosed | hfd
      · exact t.open_or_closed c hclosed fd' hold
      · exact hne (t.distinct fd' fd c hold hfd) }

theorem accept_connection (t : Table) (fd : ℕ) (hfree : ¬ t.IsOpen fd) :
    (t.accept fd hfree).connection = Function.update t.connection fd (some t.accepted) := rfl

theorem close_connection (t : Table) (fd : ℕ) :
    (t.close fd).connection = Function.update t.connection fd none := rfl

/-- A connection that is closed at once leaves the other descriptors as they
were. -/
theorem accept_close_connection (t : Table) (fd : ℕ) (hfree : ¬ t.IsOpen fd) :
    ((t.accept fd hfree).close fd).connection = t.connection := by
  rw [close_connection, accept_connection, Function.update_idem]
  exact Function.update_eq_self_iff.mpr (connection_of_free hfree).symm

theorem accept_close_listening (t : Table) (fd : ℕ) (hfree : ¬ t.IsOpen fd) :
    ((t.accept fd hfree).close fd).listening = t.listening :=
  Finset.erase_eq_of_notMem (not_or.mp hfree).1

structure Held {ι : Type*} (t : Table) (slots : ι → Option ℕ) : Prop where
  distinct : Distinct slots
  exactly : ∀ fd, (t.connection fd).isSome = true ↔ ∃ i, slots i = some fd

section Held
variable {ι : Type*} {t : Table} {slots : ι → Option ℕ}

theorem Held.refuse (h : Held t slots) {fd : ℕ} (hfree : ¬ t.IsOpen fd) :
    Held ((t.accept fd hfree).close fd) slots := by
  refine ⟨h.distinct, ?_⟩
  rw [accept_close_connection]
  exact h.exactly

/-- An accepted connection is closed, or one slot holds it. -/
theorem Held.accounted (h : Held t slots) {c : ℕ} (hc : c < t.accepted) :
    (c ∈ t.closed ∧ ∀ i, (slots i).bind t.connection ≠ some c) ∨
      c ∉ t.closed ∧ ∃! i, (slots i).bind t.connection = some c := by
  rcases (t.accounted c).mp hc with hclosed | ⟨fd, hfd⟩
  · refine Or.inl ⟨hclosed, fun i hi => ?_⟩
    obtain ⟨fd, -, hfd⟩ := Option.bind_eq_some_iff.mp hi
    exact t.open_or_closed c hclosed fd hfd
  · refine Or.inr ⟨fun hclosed => t.open_or_closed c hclosed fd hfd, ?_⟩
    obtain ⟨i, hi⟩ := (h.exactly fd).mp (Option.isSome_of_eq_some hfd)
    have hic : (slots i).bind t.connection = some c := by
      rw [hi]
      exact hfd
    exact ⟨i, hic, fun j hj => h.distinct.bind t.distinct j i c hj hic⟩

variable [DecidableEq ι]

theorem Held.accept (h : Held t slots) {fd : ℕ} (hfree : ¬ t.IsOpen fd) {i : ι}
    (hslot : slots i = none) :
    Held (t.accept fd hfree) (Function.update slots i (some fd)) := by
  have hnone := connection_of_free hfree
  have hnew : ∀ j, slots j ≠ some fd := by
    intro j hj
    have hsome := (h.exactly fd).mpr ⟨j, hj⟩
    rw [hnone] at hsome
    cases hsome
  refine ⟨h.distinct.put i hnew, fun fd' => ?_⟩
  rw [accept_connection]
  by_cases hfd : fd' = fd
  · subst hfd
    rw [Function.update_self]
    exact iff_of_true rfl ⟨i, Function.update_self i _ slots⟩
  · rw [Function.update_of_ne hfd, h.exactly fd']
    constructor
    · rintro ⟨j, hj⟩
      refine ⟨j, put_some.mpr (Or.inr ⟨?_, hj⟩)⟩
      rintro rfl
      rw [hslot] at hj
      cases hj
    · rintro ⟨j, hj⟩
      rcases put_some.mp hj with ⟨-, heq⟩ | ⟨-, hold⟩
      · exact absurd heq.symm hfd
      · exact ⟨j, hold⟩

theorem Held.close (h : Held t slots) {fd : ℕ} {i : ι} (hi : slots i = some fd) :
    Held (t.close fd) (Function.update slots i none) := by
  refine ⟨h.distinct.clear i, fun fd' => ?_⟩
  rw [close_connection]
  by_cases hfd : fd' = fd
  · subst hfd
    rw [Function.update_self]
    refine iff_of_false Bool.false_ne_true ?_
    rintro ⟨j, hj⟩
    obtain ⟨hne, hold⟩ := clear_some.mp hj
    exact hne (h.distinct j i fd' hold hi)
  · rw [Function.update_of_ne hfd, h.exactly fd']
    constructor
    · rintro ⟨j, hj⟩
      refine ⟨j, clear_some.mpr ⟨?_, hj⟩⟩
      rintro rfl
      rw [hi] at hj
      exact hfd (Option.some.inj hj).symm
    · rintro ⟨j, hj⟩
      exact ⟨j, (clear_some.mp hj).2⟩

end Held

end Table

end ProgSistema.Descriptors
