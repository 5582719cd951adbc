import ProgSistema.Lib.CRuntime
import ProgSistema.Lib.UndoSemaphore

/-!
# The queues of a crossing

The programs `coda1` to `coda4` let the cars of their queues pass one by one. A
thread of each program adds cars to its queue, and all programs share the
semaphore with the key 1234, which each of them sets to one when it starts.
-/

set_option autoImplicit false

namespace ProgSistema.QueueCrossing
open CRuntime UndoSemaphore

/-- The next step of `main`. A car is between `semaphore_p` and `semaphore_v`
from `entered` on. -/
inductive Pc where
  | off
  | semget
  | setval (found : Bool)
  | loop
  | semaphoreP
  | entered
  | leaving (loaded : ℤ)
  | semaphoreV
  | ended
  deriving DecidableEq, Repr

/-- The thread has loaded `fine` when it is about to store it again. -/
structure Process where
  pc : Pc
  fine : ℤ
  loaded : Option ℤ
  deriving DecidableEq, Repr

/-- A step of `main`, one of its calls that fails, a step of the thread, or the
end of the process by a signal. -/
inductive Action where
  | run
  | fail
  | thread
  | kill
  deriving DecidableEq, Repr

abbrev Crossing (ι : Type*) := Sharing.System ι Process (Sem ι)

variable {ι : Type*} [DecidableEq ι]

/-- `semaphore_p` and `semaphore_v` report a failure, and their results are not
used. The end of the process gives back what it has taken. -/
def act (i : ι) : Action → Process → Sem ι → Option (Process × Sem ι)
  | .run, p, sem =>
    match p.pc with
    | .off => some ({ p with pc := .semget }, sem)
    | .semget => some ({ p with pc := .setval true }, sem)
    | .setval true => some ({ p with pc := .loop }, sem.setval 1)
    | .loop => some ({ p with pc := if p.fine > 0 then .semaphoreP else .loop }, sem)
    | .semaphoreP => (sem.semop i (-1)).map fun sem => ({ p with pc := .entered }, sem)
    | .entered => some ({ p with pc := .leaving p.fine }, sem)
    | .leaving loaded => some ({ p with pc := .semaphoreV, fine := toInt (loaded-1) }, sem)
    | .semaphoreV => (sem.semop i 1).map fun sem => ({ p with pc := .loop }, sem)
    | _ => none
  | .fail, p, sem =>
    match p.pc with
    | .off => some ({ p with pc := .ended }, sem)
    | .semget => some ({ p with pc := .setval false }, sem)
    | .setval _ => some ({ p with pc := .ended }, sem.undo i)
    | .semaphoreP => some ({ p with pc := .entered }, sem)
    | .semaphoreV => some ({ p with pc := .loop }, sem)
    | _ => none
  | .thread, p, sem =>
    if p.pc = .off ∨ p.pc = .ended then none
    else match p.loaded with
      | none => some ({ p with loaded := some p.fine }, sem)
      | some fine => some ({ p with fine := toInt (fine+1), loaded := none }, sem)
  | .kill, p, sem =>
    if p.pc = .ended then none else some ({ p with pc := .ended }, sem.undo i)

/-- The semaphore may be left over from earlier processes. -/
def started (leftover : ℕ) : Crossing ι where
  procs _ := { pc := .off, fine := 0, loaded := none }
  shared := { value := leftover, semadj := fun _ => 0 }

def Pc.between : Pc → Bool
  | .entered | .leaving _ | .semaphoreV => true
  | _ => false

def AtMostOneCar (s : Crossing ι) : Prop :=
  ∀ i j, (s.procs i).pc.between = true → (s.procs j).pc.between = true → i = j

end ProgSistema.QueueCrossing
