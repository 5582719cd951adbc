import ProgSistema.DirectoryServer.Protocol
import ProgSistema.Lib.Runs

/-!
# The main loop of the directory server

The daemon accepts a connection, forks a child for it and closes its own
descriptor. The child serves its connection until a receive fails. A child that
has ended stays a zombie until the handler of `SIGCHLD` collects it.
-/

set_option autoImplicit false

namespace ProgSistema.DirectoryServer
open CRuntime StreamSocket

def Server.turn {σ : Type} (getDirectoriesRecursive : Bytes → σ → Except Fault (Option Bytes × σ))
    (env : σ) (sock : Socket) : Except Fault (Option (Bytes × σ) × Socket) :=
  let (received, pathBuffer, sock) := Server.receiveMessage maxPathLength sock
  if received ≤ 0 then .ok (none, sock)
  else do
    let (reply, env) ← Server.answer getDirectoriesRecursive (cstr pathBuffer) env
    return (some (pathBuffer, env), (Server.sendMessage sock reply).2)

namespace MainLoop

/-- What a descriptor of a socket stands for. The connections are numbered in
the order of acceptance. -/
inductive Endpoint where
  | listening
  | connection (c : ℕ)
  deriving DecidableEq, Repr

abbrev Sockets := ℕ → Option Endpoint

def Sockets.close (sockets : Sockets) (fd : ℕ) : Sockets := Function.update sockets fd none

inductive ChildPc where
  | closeServerFd
  | handleClient
  | closeClientFd
  | exit
  deriving DecidableEq, Repr

structure Child (σ : Type) where
  pc : ChildPc
  sockets : Sockets
  clientFd : ℕ
  connection : ℕ
  env : σ

inductive Pc where
  | loopTest
  | accept
  | fork (clientFd c : ℕ)
  | closeClientFd (clientFd c : ℕ)
  | closeServerFd
  | ended
  deriving DecidableEq, Repr

/-- The daemon, its children by pid, the zombies and the connections. `sigchld`
is a signal that waits, `reaping` the handler at work. The requests processed on
each connection, the connections whose loop has been left and those that were
closed because `fork` failed only record. -/
structure Daemon (σ : Type) where
  pc : Pc
  daemonRunning : Bool
  sockets : Sockets
  accepted : ℕ
  children : ℕ → Option (Child σ)
  zombies : List ℕ
  sigchld : Bool
  reaping : Bool
  peers : ℕ → Socket
  requests : ℕ → List Bytes
  left : List ℕ
  refused : List ℕ

inductive Event where
  | test
  | accept (clientFd : ℕ)
  | acceptFails (interrupted : Bool)
  | fork (childPid : ℕ)
  | forkFails
  | closeClientFd
  | closeServerFd
  | terminate
  | deliver
  | waitpid (pid : Option ℕ)
  | child (pid : ℕ)
  | kill (pid : ℕ)
  deriving DecidableEq, Repr

section
variable {σ : Type}

def Daemon.setChild (d : Daemon σ) (pid : ℕ) (child : Child σ) : Daemon σ :=
  { d with children := Function.update d.children pid (some child) }

def Daemon.dies (d : Daemon σ) (pid : ℕ) : Daemon σ :=
  { d with
    children := Function.update d.children pid none,
    zombies := d.zombies++[pid],
    sigchld := true }

variable (getDirs : Bytes → σ → Except Fault (Option Bytes × σ)) (heaps : ℕ → σ) (serverFd : ℕ)

def Daemon.leaves (d : Daemon σ) (pid : ℕ) (child : Child σ) : Daemon σ :=
  { d.setChild pid { child with pc := .closeClientFd } with left := d.left++[child.connection] }

/-- A turn of the child on the connection behind its descriptor. A fault ends
the child, and a receive on a descriptor that is not open fails. -/
def serve (pid : ℕ) (child : Child σ) (d : Daemon σ) : Daemon σ :=
  match child.sockets child.clientFd with
  | some (.connection c) =>
    match Server.turn getDirs child.env (d.peers c) with
    | .error _ => d.dies pid
    | .ok (none, sock) => { d.leaves pid child with peers := Function.update d.peers c sock }
    | .ok (some (path, env), sock) =>
      { d.setChild pid { child with env := env } with
        peers := Function.update d.peers c sock,
        requests := Function.update d.requests c (d.requests c++[path]) }
  | _ => d.leaves pid child

def childStep (pid : ℕ) (child : Child σ) (d : Daemon σ) : Option (Daemon σ) :=
  match child.pc with
  | .closeServerFd => some (d.setChild pid
      { child with pc := .handleClient, sockets := child.sockets.close serverFd })
  | .handleClient => some (serve getDirs pid child d)
  | .closeClientFd => some (d.setChild pid
      { child with pc := .exit, sockets := child.sockets.close child.clientFd })
  | .exit => some (d.dies pid)

def forked (clientFd c : ℕ) (d : Daemon σ) : Child σ :=
  { pc := .closeServerFd, sockets := d.sockets, clientFd := clientFd, connection := c,
    env := heaps c }

def mainStep (e : Event) (d : Daemon σ) : Option (Daemon σ) :=
  match d.pc, e with
  | .loopTest, .test =>
    some { d with pc := if d.daemonRunning then .accept else .closeServerFd }
  | .accept, .accept clientFd =>
    if d.sockets clientFd = none then
      some { d with
        pc := .fork clientFd d.accepted,
        sockets := Function.update d.sockets clientFd (some (.connection d.accepted)),
        accepted := d.accepted+1 }
    else none
  | .accept, .acceptFails interrupted =>
    some { d with pc := if interrupted then .loopTest else .closeServerFd }
  | .fork clientFd c, .fork childPid =>
    if (d.children childPid).isNone ∧ childPid ∉ d.zombies then
      some { d.setChild childPid (forked heaps clientFd c d) with pc := .closeClientFd clientFd c }
    else none
  | .fork clientFd c, .forkFails =>
    some { d with pc := .closeClientFd clientFd c, refused := d.refused++[c] }
  | .closeClientFd clientFd _, .closeClientFd =>
    some { d with pc := .loopTest, sockets := d.sockets.close clientFd }
  | .closeServerFd, .closeServerFd =>
    some { d with pc := .ended, sockets := d.sockets.close serverFd }
  | _, _ => none

/-- `waitpid(-1, NULL, WNOHANG)` in the handler: a zombie, none if there is no
zombie. -/
def reap (pid : Option ℕ) (d : Daemon σ) : Option (Daemon σ) :=
  match pid with
  | some pid => if pid ∈ d.zombies then some { d with zombies := d.zombies.erase pid } else none
  | none => if d.zombies = [] then some { d with reaping := false } else none

/-- While the handler is at work `main` stands still. -/
def step (e : Event) (d : Daemon σ) : Option (Daemon σ) :=
  match e with
  | .terminate => if d.pc = .ended then none else some { d with daemonRunning := false }
  | .deliver =>
    if d.sigchld = true ∧ d.reaping = false ∧ d.pc ≠ .ended then
      some { d with sigchld := false, reaping := true }
    else none
  | .waitpid pid => if d.reaping then reap pid d else none
  | .child pid => (d.children pid).bind fun child => childStep getDirs serverFd pid child d
  | .kill pid => if (d.children pid).isSome then some (d.dies pid) else none
  | e => if d.reaping then none else mainStep heaps serverFd e d

def started (peers : ℕ → Socket) : Daemon σ where
  pc := .loopTest
  daemonRunning := true
  sockets := Function.update (fun _ => none) serverFd (some .listening)
  accepted := 0
  children _ := none
  zombies := []
  sigchld := false
  reaping := false
  peers := peers
  requests _ := []
  left := []
  refused := []

end
end MainLoop
end ProgSistema.DirectoryServer
