import ProgSistema.Lib.FileTree

/-!
# File system calls that fail

On top of a file system, a call of `opendir` or of `stat` may fail for some
paths, and `readdir` may fail after some entries, which the caller cannot tell
from the end of the directory. A reader of a directory then sees the first of
its entries.
-/

set_option autoImplicit false

namespace ProgSistema.FileTree

structure Faults where
  opendir : Bytes → Bool
  stat : Bytes → Bool
  /-- After how many entries `readdir` fails. -/
  readdir : Bytes → Option ℕ

namespace Faults
variable (f : Faults) (fs : FileSystem)

def none : Faults := ⟨fun _ => false, fun _ => false, fun _ => .none⟩

def read (p : Bytes) (stream : List Bytes) : List Bytes :=
  match f.readdir p with
  | .none => stream
  | some n => stream.take n

def apply : FileSystem where
  opendir p := if f.opendir p then .none else (fs.opendir p).map (f.read p)
  stat p := if f.stat p then .none else fs.stat p
  lstat p := if f.stat p then .none else fs.lstat p

def seen (p : Bytes) : ℕ :=
  ((f.read p ((fs.opendir p).getD [])).filter fun d => d ≠ dot ∧ d ≠ dotdot).length

end Faults

theorem prefix_of_read (f : Faults) (p : Bytes) (stream : List Bytes) : f.read p stream <+: stream := by
  unfold Faults.read
  split
  · exact List.prefix_rfl
  · exact List.take_prefix _ _

/-- What is read of a directory are its first entries. -/
theorem seen_entries (f : Faults) {fs : FileSystem} {p : Bytes} {stream : List Bytes}
    {es : List (Name × DirTree)} (hopen : fs.opendir p = some stream)
    (hstream : stream.filter (fun d => d ≠ dot ∧ d ≠ dotdot) = es.map fun e => e.1.bytes) :
    (f.read p stream).filter (fun d => d ≠ dot ∧ d ≠ dotdot) =
      (es.take (f.seen fs p)).map fun e => e.1.bytes := by
  have hpre := (prefix_of_read f p stream).filter fun d => d ≠ dot ∧ d ≠ dotdot
  rw [List.prefix_iff_eq_take, hstream] at hpre
  rw [Faults.seen, hopen, Option.getD_some, List.map_take]
  exact hpre

/-- Where no call fails the calls are those of the file system. -/
theorem apply_none (fs : FileSystem) : Faults.none.apply fs = fs := by
  obtain ⟨opendir, stat, lstat⟩ := fs
  have hopendir : (fun p => (opendir p).map (Faults.none.read p)) = opendir := by
    funext p
    cases opendir p <;> rfl
  show FileSystem.mk (fun p => (opendir p).map (Faults.none.read p)) stat lstat = _
  rw [hopendir]

theorem seen_none {fs : FileSystem} {p : Bytes} {stream : List Bytes} {es : List (Name × DirTree)}
    (hopen : fs.opendir p = some stream)
    (hstream : stream.filter (fun d => d ≠ dot ∧ d ≠ dotdot) = es.map fun e => e.1.bytes) :
    Faults.none.seen fs p = es.length := by
  have hread : Faults.none.read p stream = stream := rfl
  rw [Faults.seen, hopen, Option.getD_some, hread, hstream, List.length_map]

end ProgSistema.FileTree
