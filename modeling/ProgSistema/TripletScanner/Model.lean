import ProgSistema.Lib.CRuntime
import ProgSistema.Lib.Mutex
import ProgSistema.Lib.Sharing

/-!
# The scanner for three equal characters

Two threads alternate in reading the next byte of a file, comparing it with the
one before it and writing the character `0` over it. They share the file, its
offset and the variables of the comparison, and hold a mutex meanwhile.
-/

set_option autoImplicit false

namespace ProgSistema.TripletScanner
open CRuntime

inductive Pc where
  | testExit
  | lock
  | read
  | setExit
  | seek
  | write (pos : ℤ)
  | count (pos : ℤ)
  | setPrevius (pos : ℤ)
  | report (pos : ℤ)
  | unlock
  | endedInside
  | ended
  deriving DecidableEq, Repr

/-- The globals, the file and what the program has printed. `scanned`, the
number of bytes that the program is done with, only records, and `aborted` is
the end of the program by `err_sys`. -/
structure Scan (ι : Type*) where
  file : Bytes
  offset : ℕ
  previus : UInt8
  current : UInt8
  counter : ℤ
  mutex : Option ι
  exit1 : Bool
  reports : List ℤ
  scanned : ℕ
  aborted : Bool

abbrev Scanner (ι : Type*) := Sharing.System ι Pc (Scan ι)

def toWrite : UInt8 := 48

section
variable {ι : Type*}

def compare (k : Scan ι) : ℤ := if k.previus = k.current then toInt (k.counter+1) else 0

/-- `threadFunc`. A thread that meets the end of the file leaves the loop with
the mutex, and the read, the seek and the write do not fail. -/
def threadFunc (i : ι) (k : Scan ι) : Pc → Option (Pc × Scan ι)
  | .testExit => some (if k.exit1 then .ended else .lock, k)
  | .lock => if k.mutex.isNone then some (.read, { k with mutex := some i }) else none
  | .read =>
    match k.file[k.offset]? with
    | some b => some (.seek, { k with current := b, offset := k.offset+1 })
    | none => some (.setExit, k)
  | .setExit => some (.endedInside, { k with exit1 := true })
  | .seek =>
    let pos := toInt ((k.offset : ℤ)-1)
    let k := { k with offset := k.offset-1 }
    -- `pos` is an `int`: the position 2^32-1 of a file is taken for a failure of the call
    if pos = -1 then some (.endedInside, { k with aborted := true }) else some (.write pos, k)
  | .write pos =>
    some (.count pos, { k with file := k.file.set k.offset toWrite, offset := k.offset+1 })
  | .count pos => some (.setPrevius pos, { k with counter := compare k })
  | .setPrevius pos => some (.report pos, { k with previus := k.current })
  | .report pos =>
    some (.unlock, { k with
      reports := if k.counter ≥ 2 then k.reports++[toInt (pos+1)] else k.reports,
      scanned := k.scanned+1 })
  | .unlock => some (.testExit, { k with mutex := none })
  | .endedInside => none
  | .ended => none

def act (i : ι) (_ : Unit) (pc : Pc) (k : Scan ι) : Option (Pc × Scan ι) :=
  if k.aborted then none else threadFunc i k pc

end

/-- `main` up to the start of the threads. In an empty file it cannot step back
and ends the program. -/
def start {ι : Type*} : Bytes → Option (Scanner ι)
  | [] => none
  | b::rest => some {
      procs := fun _ => .testExit,
      shared := {
        file := toWrite::rest,
        offset := 1,
        previus := b,
        current := 0,
        counter := 0,
        mutex := none,
        exit1 := false,
        reports := [],
        scanned := 1,
        aborted := false } }

def Pc.inside : Pc → Bool
  | .testExit | .lock | .ended => false
  | _ => true

section
variable {ι : Type*} {i : ι} {a : Unit} {pc p : Pc} {k k' : Scan ι}

inductive Move (i : ι) (pc p : Pc) (k k' : Scan ι) : Prop where
  | outside (hpc : pc.inside = false) (hp : p.inside = false) (hk : k' = k)
  | enters (hfree : k.mutex = none) (hpc : pc = .lock) (hp : p = .read)
      (hk : k' = { k with mutex := some i })
  | works (hpc : pc.inside = true) (hp : p.inside = true) (hmutex : k'.mutex = k.mutex)
  | leaves (hpc : pc = .unlock) (hp : p = .testExit) (hk : k' = { k with mutex := none })

theorem act_some (h : act i a pc k = some (p, k')) :
    k.aborted = false ∧ threadFunc i k pc = some (p, k') := by
  unfold act at h
  split at h
  · cases h
  · rename_i hrunning
    exact ⟨eq_false_of_ne_true hrunning, h⟩

theorem thread_move (h : threadFunc i k pc = some (p, k')) : Move i pc p k k' := by
  cases pc with simp only [threadFunc] at h
  | testExit =>
    cases h
    refine .outside rfl ?_ rfl
    split <;> rfl
  | lock =>
    split at h
    · rename_i hfree
      cases h
      exact .enters (Option.isNone_iff_eq_none.mp hfree) rfl rfl rfl
    · cases h
  | read =>
    split at h <;> cases h
    · exact .works rfl rfl rfl
    · exact .works rfl rfl rfl
  | seek =>
    split at h <;> cases h
    · exact .works rfl rfl rfl
    · exact .works rfl rfl rfl
  | setExit | write | count | setPrevius | report =>
    cases h
    exact .works rfl rfl rfl
  | unlock =>
    cases h
    exact .leaves rfl rfl rfl
  | endedInside | ended => cases h

theorem move_passes (h : Move i pc p k k') :
    Mutex.Passes i pc.inside p.inside k.mutex k'.mutex := by
  cases h with
  | outside hpc hp hk => exact .keeps (hp.trans hpc.symm) (by rw [hk])
  | enters hfree hpc hp hk => exact .takes hfree (by rw [hp]; rfl) (by rw [hk])
  | works hpc hp hmutex => exact .keeps (hp.trans hpc.symm) hmutex
  | leaves hpc hp hk => exact .releases (by rw [hpc]; rfl) (by rw [hp]; rfl) (by rw [hk])

/-- Nothing that has been printed is taken back. -/
theorem thread_reports (h : threadFunc i k pc = some (p, k')) : k.reports <+: k'.reports := by
  cases pc with simp only [threadFunc] at h
  | report =>
    cases h
    dsimp only
    split
    · exact List.prefix_append _ _
    · exact List.prefix_refl _
  | lock | read | seek =>
    split at h <;> cases h <;> exact List.prefix_refl _
  | testExit | setExit | write | count | setPrevius | unlock =>
    cases h
    exact List.prefix_refl _
  | endedInside | ended => cases h

end

end ProgSistema.TripletScanner
