import ProgSistema.Lib.CRuntime

/-!
# Reading from standard input

The input is the list of bytes still to come; after the last one every read
reports the end of the input.
-/

set_option autoImplicit false

namespace ProgSistema.CRuntime

/-- The spaces and the sign that a conversion has read when it finds no digit. -/
def skipSign (s : Bytes) : Bytes :=
  match s.dropWhile isSpace with
  | 45::s => s
  | 43::s => s
  | s => s

/-- `scanf("%d", ..)`: the value if one is stored, and the input after the call. -/
def scanfInt (stdin : Bytes) : Option ℤ × Bytes :=
  match scanInteger stdin with
  | none => (none, skipSign stdin)
  | some _ => (some (toInt (strtoll stdin).1), (strtoll stdin).2.1)

/-- `while (getchar() != '\n');`: the input after the line, or `none` if no line
ends and the loop does not either. -/
def skipLine : Bytes → Option Bytes
  | [] => none
  | c::stdin => if c = 10 then some stdin else skipLine stdin

def readUpTo : ℕ → Bytes → Bytes × Bytes
  | 0, stdin => ([], stdin)
  | _+1, [] => ([], [])
  | n+1, c::stdin =>
    if c = 10 then ([c], stdin) else (c::(readUpTo n stdin).1, (readUpTo n stdin).2)

/-- `fgets` with a buffer of `size` bytes: the string in the buffer and the input
after the call, or `none` at the end of the input. -/
def fgets (size : ℕ) (stdin : Bytes) : Option (Bytes × Bytes) :=
  if stdin = [] then none else some (readUpTo (size-1) stdin)

/-- A read ends with a line, in front of the rest of a long one, or with the input. -/
theorem read_up_to_spec (n : ℕ) (stdin : Bytes) : ∃ part, 10 ∉ part ∧ part.length ≤ n ∧
    ((readUpTo n stdin).1 = part++[10] ∧ stdin = part++10::(readUpTo n stdin).2 ∨
      (readUpTo n stdin).1 = part ∧ stdin = part++(readUpTo n stdin).2 ∧
        (part.length = n ∨ (readUpTo n stdin).2 = [])) := by
  induction n generalizing stdin with
  | zero => exact ⟨[], List.not_mem_nil, le_rfl, .inr ⟨rfl, rfl, .inl rfl⟩⟩
  | succ n ih =>
    cases stdin with
    | nil => exact ⟨[], List.not_mem_nil, Nat.zero_le _, .inr ⟨rfl, rfl, .inr rfl⟩⟩
    | cons c stdin =>
      rw [readUpTo]
      by_cases hc : c = 10
      · subst hc
        exact ⟨[], List.not_mem_nil, Nat.zero_le _, .inl ⟨rfl, rfl⟩⟩
      · rw [if_neg hc]
        obtain ⟨part, hclean, hlength, hread⟩ := ih stdin
        refine ⟨c::part, ?_, Nat.succ_le_succ hlength, ?_⟩
        · rw [List.mem_cons, not_or]
          exact ⟨Ne.symm hc, hclean⟩
        · rcases hread with ⟨hbuffer, hsplit⟩ | ⟨hbuffer, hsplit, hend⟩
          · left
            exact ⟨congrArg (List.cons c) hbuffer, congrArg (List.cons c) hsplit⟩
          · right
            refine ⟨congrArg (List.cons c) hbuffer, congrArg (List.cons c) hsplit, ?_⟩
            exact hend.imp_left (congrArg Nat.succ)

end ProgSistema.CRuntime
