import ProgSistema.DirectoryServer.Session
import ProgSistema.DirectoryServer.Children

/-!
# Clients that are served at the same time

The turns of all the children interleave in any order. Each connection is
touched by its own child alone, so it is answered as in a session of its own.
-/

set_option autoImplicit false

namespace ProgSistema.DirectoryServer
open CRuntime FileTree Framing StreamSocket Socket

section
variable {σ : Type} (explored : Bytes → σ → Option Bytes × σ)

end

section
variable {σ : Type} {getDirs : Bytes → σ → Except Fault (Option Bytes × σ)}
  {explored : Bytes → σ → Option Bytes × σ} (hret : ∀ path env, getDirs path env = .ok (explored path env))
include hret

omit hret in
/-- A turn on a stream that starts with no frame that is admitted leaves the
loop. -/
theorem turn_leaves {sock : Socket} (h : ∀ m tail, Admissible maxPathLength m →
    sock.stream ≠ frame m++tail) (env : σ) :
    ∃ sock', Server.turn getDirs env sock = .ok (none, sock') ∧ sock'.sent = sock.sent ∧
      sock'.outcomes = sock.outcomes := by
  have hstop := receive_stop maxPathLength (by decide) sock h
  refine ⟨(receiveMessageOn maxPathLength sock).2.2, ?_, ?_, ?_⟩
  · unfold Server.turn Server.receiveMessage
    simp only [hstop, show ((-1 : ℤ) ≤ 0) from by decide, if_true]
  all_goals
    unfold receiveMessageOn
    dsimp only
    split
    · rfl
    · split
      · rfl
      · split <;> rfl

end

namespace MainLoop
open Runs Semaphore

section
variable {σ : Type} (explored : Bytes → σ → Option Bytes × σ)

structure Session (sock₀ sock : Socket) (heap : σ) (requests : List Bytes) (left : Prop) :
    Prop where
  admissible : ∀ m ∈ requests, Admissible maxPathLength m
  full : sock.FullSends
  sent : sock.sent = sock₀.sent++(answers explored requests heap).flatMap wire
  stream : ¬ left → sock₀.stream = requests.flatMap frame++sock.stream
  complete : left → ∃ rest, MaximalFrames maxPathLength sock₀.stream requests rest

variable {explored}

variable {heaps : ℕ → σ} {peers : ℕ → Socket} {d d' : Daemon σ} {serverFd : ℕ}

theorem serving_socket (hi : Inv serverFd d) {pid : ℕ} {child : Child σ}
    (hpid : d.children pid = some child) (hpc : child.pc = .handleClient) :
    child.sockets child.clientFd = some (.connection child.connection) := by
  rw [(hi.child pid child hpid).sockets, hpc, childSockets]
  exact Function.update_self _ _ _

end
end MainLoop
end ProgSistema.DirectoryServer
