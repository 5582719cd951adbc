import Mathlib.Tactic

/-!
# Stacks of bounded height

The bound is part of the value. A push on a full stack and a pop of an empty
one leave the stack as it is.
-/

set_option autoImplicit false

namespace ProgSistema

structure BoundedStack (α : Type*) (cap : ℕ) where
  items : List α
  bounded : items.length ≤ cap

namespace BoundedStack
variable {α : Type*} {cap : ℕ}

def empty : BoundedStack α cap := ⟨[], Nat.zero_le cap⟩

def push (a : α) (s : BoundedStack α cap) : BoundedStack α cap :=
  if h : s.items.length < cap then ⟨a::s.items, h⟩ else s

def top? (s : BoundedStack α cap) : Option α := s.items.head?

def pop (s : BoundedStack α cap) : BoundedStack α cap :=
  ⟨s.items.tail, by have := s.bounded; rw [List.length_tail]; omega⟩

def height (s : BoundedStack α cap) : ℕ := s.items.length

theorem items_pop (s : BoundedStack α cap) : s.pop.items = s.items.tail := rfl

theorem items_push_of_lt (a : α) (s : BoundedStack α cap) (h : s.height < cap) :
    (s.push a).items = a::s.items := by
  have h' : s.items.length < cap := h
  rw [push, dif_pos h']

theorem push_of_full (a : α) (s : BoundedStack α cap) (h : ¬ s.height < cap) :
    s.push a = s := by
  have h' : ¬ s.items.length < cap := h
  rw [push, dif_neg h']

theorem pop_of_empty (s : BoundedStack α cap) (h : s.items = []) : s.pop = s := by
  obtain ⟨items, hb⟩ := s
  subst h
  rfl

end BoundedStack
end ProgSistema
