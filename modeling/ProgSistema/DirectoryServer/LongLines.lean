import ProgSistema.DirectoryServer.Interactive

/-!
# Lines and requests

A line that fits in the buffer is asked for as it is, or not at all. Of a line that
does not fit, every piece is taken for a path of its own, and is rejected or obeyed.
-/

set_option autoImplicit false

namespace ProgSistema.DirectoryServer
open CRuntime StreamSocket LineChunks Client

def piece (s : Session) : Option Bytes :=
  (fgets maxPathLength s.stdin).map fun r => pathInput r.1

/-- The next round reads from a line that does not fit in the buffer. -/
def TooLong (stdin : Bytes) (s : Session) : Prop :=
  s.stdin ≠ [] ∧ ∃ line ∈ (splitLines 10 stdin)[s.line]?, maxPathLength ≤ line.length

/-- No piece of a line that does not fit passes the validation. -/
def Invalid (stdin : Bytes) (s : Session) : Prop :=
  ∀ path ∈ piece s, TooLong stdin s → validatePath path = false

/-- A piece that would be asked for belongs to a line that fits in the buffer. -/
def Fits (stdin : Bytes) (s : Session) : Prop :=
  ∀ path ∈ piece s, requested path = true → ¬ TooLong stdin s

section
variable {stdin : Bytes} {s t : Session}

end

theorem requested_valid {path : Bytes} (h : requested path = true) : validatePath path = true := by
  rw [requested, Bool.and_eq_true] at h
  exact h.2

theorem Invalid.fits {stdin : Bytes} {s : Session} (h : Invalid stdin s) : Fits stdin s := by
  intro path hpath hrequested hlong
  have hinvalid := h path hpath hlong
  rw [requested_valid hrequested] at hinvalid
  cases hinvalid

instance (stdin : Bytes) (s : Session) : Decidable (TooLong stdin s) :=
  inferInstanceAs (Decidable (_ ∧ _))

instance (stdin : Bytes) (s : Session) : Decidable (Invalid stdin s) :=
  inferInstanceAs (Decidable (∀ path ∈ piece s, TooLong stdin s → validatePath path = false))

end ProgSistema.DirectoryServer
