import ProgSistema.ChatDaemon.Model
import ProgSistema.Lib.Traces

/-!
# The calls of the thread

Which connections are open, what the last `select` has reported and what has
been sent after a `recv` are read off the calls that the thread has made. What
is asked of the thread is asked of these calls.
-/

set_option autoImplicit false

namespace ProgSistema.ChatDaemon
open CRuntime Traces

def Call.connects (fds : Finset ℕ) : Call → Finset ℕ
  | .accept fd => insert fd fds
  | .close fd => fds.erase fd
  | _ => fds

def connected (calls : List Call) : Finset ℕ := calls.foldl Call.connects ∅

def Call.reports (ready : Finset ℕ) : Call → Finset ℕ
  | .select ready' => ready'
  | .accept fd | .close fd => ready.erase fd
  | _ => ready

/-- The descriptors that the last `select` has reported, without those that
have been closed or handed out again since. -/
def reported (calls : List Call) : Finset ℕ := calls.foldl Call.reports ∅

def replies : List Call → List (ℕ × Bytes)
  | .send fd bytes _::calls => (fd, bytes)::replies calls
  | _ => []

def messaggio (i : Fin maxClients) (buffer : Bytes) : Bytes :=
  text "[Client"++decimal i++text "]: "++cstr buffer

/-- The message has been sent exactly once to each open connection but that of
its sender, and to the sender nothing but the confirmation. -/
structure Delivered (fds : Finset ℕ) (i : Fin maxClients) (fd : ℕ) (buffer : Bytes)
    (sends : List (ℕ × Bytes)) : Prop where
  once : ∀ fd' ∈ fds, fd' ≠ fd → sends.count (fd', messaggio i buffer) = 1
  others : ∀ send ∈ sends, send.1 ≠ fd → send.1 ∈ fds ∧ send.2 = messaggio i buffer
  confirmed : ∀ send ∈ sends, send.1 = fd → ∃ sentCount, send.2 = confirm sentCount
  unreturned : (fd, messaggio i buffer) ∉ sends

/-- A connection is closed at once only when there are as many others as slots,
and a `recv` is only for a descriptor that `select` has reported and that still
stands for the same connection. -/
def Orderly (before : List Call) (call : Call) (after : List Call) : Prop :=
  match call with
  | .accept fd => after.head? = some (.close fd) → (connected before).card = maxClients
  | .recv _ fd _ => fd ∈ reported before ∧ fd ∈ connected before
  | _ => True

def Forwarded (before : List Call) (call : Call) (after : List Call) : Prop :=
  match call with
  | .recv i fd buffer => buffer ≠ [] → Delivered (connected before) i fd buffer (replies after)
  | _ => True

def Call.Opens : Call → Prop
  | .select _ | .accept _ | .recv .. => True
  | .send .. | .close _ => False

theorem connected_append (calls new : List Call) :
    connected (calls++new) = new.foldl Call.connects (connected calls) := List.foldl_append

theorem reported_append (calls new : List Call) :
    reported (calls++new) = new.foldl Call.reports (reported calls) := List.foldl_append

section Sends
variable {sends : List Call} (h : ∀ c ∈ sends, ∃ fd bytes esito, c = .send fd bytes esito)
include h

theorem connected_append_sends (calls : List Call) :
    connected (calls++sends) = connected calls := by
  rw [connected_append]
  induction sends with
  | nil => rfl
  | cons c sends ih =>
    obtain ⟨fd, bytes, esito, rfl⟩ := h c (List.mem_cons_self ..)
    exact ih fun c hc => h c (List.mem_cons_of_mem _ hc)

theorem reported_append_sends (calls : List Call) :
    reported (calls++sends) = reported calls := by
  rw [reported_append]
  induction sends with
  | nil => rfl
  | cons c sends ih =>
    obtain ⟨fd, bytes, esito, rfl⟩ := h c (List.mem_cons_self ..)
    exact ih fun c hc => h c (List.mem_cons_of_mem _ hc)

theorem everywhere_sends {P : List Call → Call → List Call → Prop}
    (hP : ∀ before fd bytes esito after, P before (.send fd bytes esito) after) :
    Everywhere P sends := by
  apply everywhere_of_forall
  intro c hc before after
  obtain ⟨fd, bytes, esito, rfl⟩ := h c hc
  exact hP before fd bytes esito after

end Sends

theorem replies_append_opens (calls rest : List Call) {call : Call} (h : call.Opens) :
    replies (calls++call::rest) = replies calls := by
  induction calls with
  | nil =>
    cases call with
    | select | accept | recv => rfl
    | send | close => exact h.elim
  | cons c calls ih =>
    cases c with
    | send fd bytes esito => exact congrArg (List.cons (fd, bytes)) ih
    | select | accept | recv | close => rfl

theorem Orderly.extend {before after : List Call} {c call : Call} (h : Orderly before c after)
    (hopens : call.Opens) (rest : List Call) : Orderly before c (after++call::rest) := by
  cases c with
  | accept fd =>
    intro hclose
    cases after with
    | nil =>
      cases hclose
      exact hopens.elim
    | cons c' after => exact h hclose
  | select | send | close => trivial
  | recv => exact h

theorem Forwarded.extend {before after : List Call} {c call : Call} (h : Forwarded before c after)
    (hopens : call.Opens) (rest : List Call) : Forwarded before c (after++call::rest) := by
  cases c with
  | recv i fd buffer =>
    intro hbuffer
    rw [replies_append_opens after rest hopens]
    exact h hbuffer
  | select | accept | send | close => trivial

section Extend
variable {calls rest : List Call} {call : Call} (hopens : call.Opens)
include hopens

theorem everywhere_orderly (h : Everywhere Orderly calls)
    (hnew : Everywhere (fun before => Orderly (calls++before)) (call::rest)) :
    Everywhere Orderly (calls++call::rest) :=
  everywhere_append.mpr ⟨h.mono fun _ _ _ ho => ho.extend hopens rest, hnew⟩

theorem everywhere_forwarded (h : Everywhere Forwarded calls)
    (hnew : Everywhere (fun before => Forwarded (calls++before)) (call::rest)) :
    Everywhere Forwarded (calls++call::rest) :=
  everywhere_append.mpr ⟨h.mono fun _ _ _ hf => hf.extend hopens rest, hnew⟩

end Extend

end ProgSistema.ChatDaemon
