import ProgSistema.Lib.Sharing

/-!
# The relay of a string

`P2` receives a string and stores it in a shared memory, from where `P3` sends
it on. Around its use of the memory each of them takes a record lock on a file,
with a request that fails instead of waiting.
-/

set_option autoImplicit false

namespace ProgSistema.StringRelay

inductive Program where
  | p2
  | p3
  deriving DecidableEq, Repr

/-- The next step. Only `P2` comes to `recv` and `store`, and only `P3` to
`load` and `send`. -/
inductive Pc where
  | openLockFile
  | socket
  | lockMem
  | attachMem
  | connect
  | recv
  | store
  | load
  | send
  | detachMem
  | unlockMem
  | close
  | ended
  deriving DecidableEq, Repr

/-- Whether `fdLockFile` and `result` are those of calls that succeeded. -/
structure Process where
  pc : Pc
  opened : Bool
  attached : Bool
  deriving DecidableEq, Repr

inductive Event where
  | run
  | fail
  | closed
  | kill
  deriving DecidableEq, Repr

abbrev Lock (ι : Type*) := Option ι

abbrev Relay (ι : Type*) := Sharing.System ι Process (Lock ι)

variable {ι : Type*} [DecidableEq ι]

def setLock (i : ι) (lock : Lock ι) : Lock ι := if lock = none then some i else lock

def release (i : ι) (lock : Lock ι) : Lock ι := if lock = some i then none else lock

/-- `strcpy` and `strncpy` end a process that has not attached the memory. A
lock that is not granted, a memory that is not attached and a file that is not
open are reported, if at all, and the process goes on. -/
def act (program : ι → Program) (i : ι) :
    Event → Process → Lock ι → Option (Process × Lock ι)
  | .run, p, lock =>
    match p.pc with
    | .openLockFile => some ({ p with pc := .socket, opened := true }, lock)
    | .socket => some ({ p with pc := .lockMem }, lock)
    | .lockMem => some ({ p with pc := .attachMem }, if p.opened then setLock i lock else lock)
    | .attachMem => some ({ p with pc := .connect, attached := true }, lock)
    | .connect => some ({ p with pc := if program i = .p2 then .recv else .load }, lock)
    | .recv => some ({ p with pc := .store }, lock)
    | .store =>
      if p.attached then some ({ p with pc := .detachMem }, lock)
      else some ({ p with pc := .ended }, release i lock)
    | .load =>
      if p.attached then some ({ p with pc := .send }, lock)
      else some ({ p with pc := .ended }, release i lock)
    | .send => some ({ p with pc := .detachMem }, lock)
    | .detachMem => some ({ p with pc := .unlockMem, attached := false }, lock)
    | .unlockMem => some ({ p with pc := .close }, if p.opened then release i lock else lock)
    | .close => some ({ p with pc := .socket }, lock)
    | .ended => none
  | .fail, p, lock =>
    match p.pc with
    | .openLockFile => some ({ p with pc := .socket, opened := false }, lock)
    | .lockMem => some ({ p with pc := .attachMem }, lock)
    | .attachMem => some ({ p with pc := .connect, attached := false }, lock)
    | .detachMem => some ({ p with pc := .unlockMem }, lock)
    | .unlockMem => some ({ p with pc := .close }, lock)
    | .socket | .connect | .recv | .send => some ({ p with pc := .ended }, release i lock)
    | .close => some ({ p with pc := .socket }, lock)
    | .store | .load | .ended => none
  | .closed, p, lock =>
    if p.pc = .recv then some ({ p with pc := .detachMem }, lock) else none
  | .kill, p, lock =>
    if p.pc = .ended then none else some ({ p with pc := .ended }, release i lock)

def started : Relay ι where
  procs _ := { pc := .openLockFile, opened := false, attached := false }
  shared := none

def Pc.inside : Pc → Bool
  | .attachMem | .connect | .recv | .store | .load | .send | .detachMem | .unlockMem => true
  | _ => false

def Apart (s : Relay ι) : Prop :=
  ∀ i j, (s.procs i).pc.inside = true → (s.procs j).pc.inside = true → i = j

end ProgSistema.StringRelay
