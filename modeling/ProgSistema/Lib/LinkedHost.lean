import ProgSistema.Lib.PathResolution

/-!
# File systems with symbolic links

A host is a set of directories, each with its entries; an entry is a directory,
a link with the path it stands for, or something else. Resolution follows the
links it meets, at most a given number in one path, and refuses long paths.
The same directory may then be reached by any number of paths, also by paths
that lead through itself.
-/

set_option autoImplicit false

namespace ProgSistema.FileTree

inductive Entry (δ : Type) where
  | directory (d : δ)
  | link (st : Stat) (isLink : st.type = .symlink) (target : Bytes)
  | other (st : Stat) (notDir : st.type ≠ .directory)

inductive Place (δ : Type) where
  | directory (d : δ)
  | other (st : Stat) (notDir : st.type ≠ .directory)

structure LinkedHost (δ : Type) where
  root : δ
  cwd : δ
  parent : δ → δ
  status : δ → Stat
  isDir : ∀ d, (status d).type = .directory
  entries : δ → List (Name × Entry δ)
  distinct : ∀ d, ((entries d).map Prod.fst).Nodup
  /-- How many links one resolution follows. -/
  symloopMax : ℕ
  /-- The size of the longest path, with its terminator. -/
  pathMax : ℕ

namespace LinkedHost
variable {δ : Type} (host : LinkedHost δ)

def entry (d : δ) (c : Bytes) : Option (Entry δ) :=
  ((host.entries d).find? fun e => e.1.bytes = c).map Prod.snd

def start (d : δ) (p : Bytes) : δ := if p.head? = some slash then host.root else d

/-- The walk along the components of a path, where `expand` follows a link that
is met in a directory before more components. -/
def walkWith (expand : Bytes → List Bytes → δ → Option (Place δ)) :
    List Bytes → δ → Option (Place δ)
  | [], d => some (.directory d)
  | c::cs, d =>
    if c = [] ∨ c = dot then walkWith expand cs d
    else if c = dotdot then walkWith expand cs (host.parent d)
    else match host.entry d c with
      | none => none
      | some (.directory d') => walkWith expand cs d'
      | some (.link _ _ target) => expand target cs d
      | some (.other st h) => if cs = [] then some (.other st h) else none

def walk : ℕ → List Bytes → δ → Option (Place δ)
  | 0 => host.walkWith fun _ _ _ => none
  | links+1 => host.walkWith fun target cs d =>
    if target = [] then none else walk links (components target++cs) (host.start d target)

def resolve (p : Bytes) : Option (Place δ) :=
  if p = [] ∨ host.pathMax ≤ p.length then none
  else host.walk host.symloopMax (components p) (host.start host.cwd p)

def directoryAt (p : Bytes) : Option δ :=
  match host.resolve p with
  | some (.directory d) => some d
  | _ => none

def stat (p : Bytes) : Option Stat :=
  match host.resolve p with
  | none => none
  | some (.directory d) => some (host.status d)
  | some (.other st _) => some st

/-- A link that a path ends in is not followed. -/
def lstat (p : Bytes) : Option Stat :=
  let last := (components p).getLastD []
  if p = [] ∨ host.pathMax ≤ p.length then none
  else match host.walk host.symloopMax (components p).dropLast (host.start host.cwd p) with
    | some (.directory d) => match host.entry d last with
      | some (.link st _ _) => some st
      | _ => host.stat p
    | _ => none

def fileSystem : FileSystem where
  opendir p := (host.directoryAt p).map fun d =>
    dot::dotdot::(host.entries d).map fun e => e.1.bytes
  stat := host.stat
  lstat := host.lstat

variable {host}

theorem path_short {p : Bytes} {d : δ} (h : host.directoryAt p = some d) :
    p ≠ [] ∧ p.length < host.pathMax := by
  unfold directoryAt resolve at h
  split at h
  · rename_i hplace
    split at hplace
    · cases hplace
    · rename_i hshort
      exact ⟨fun hp => hshort (Or.inl hp), Nat.lt_of_not_le fun hp => hshort (Or.inr hp)⟩
  · cases h

theorem directory_iff (host : LinkedHost δ) (p : Bytes) :
    (host.stat p).map Stat.type = some .directory ↔ (host.directoryAt p).isSome := by
  unfold stat directoryAt
  cases host.resolve p with
  | none => simp
  | some place =>
    cases place with
    | directory d => simp [host.isDir]
    | other st h => simp [h]

end LinkedHost
end ProgSistema.FileTree
