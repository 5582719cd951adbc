import ProgSistema.Lib.Descriptors
import ProgSistema.Lib.Multiplexing
import ProgSistema.Lib.Runs

/-!
# The server with a table of ten clients

One thread waits with `select` on the socket of the server and on those of the
clients in its table. It answers each byte with a random letter and frees the
slot of a client that has left.
-/

set_option autoImplicit false

namespace ProgSistema.SelectServer
open Descriptors Multiplexing

def maxClients : ℕ := 10

/-- The variables of `main`, what the kernel knows of its descriptors and what
has been sent. A slot that holds 0 is free. -/
structure Server where
  serverFd : ℕ
  clientSockets : Fin maxClients → ℕ
  descriptors : Table
  sent : List (ℕ × UInt8)

def readfds (s : Server) : Monitored :=
  (Monitored.zero.watch s.serverFd).watchAll
    (((List.finRange maxClients).map s.clientSockets).filter (· > 0))

def freeSlot (s : Server) : Option (Fin maxClients) :=
  (List.finRange maxClients).find? fun i => s.clientSockets i = 0

def newConnection (newSocket : ℕ) (s : Server) (hfree : ¬ s.descriptors.IsOpen newSocket) :
    Server :=
  { s with
    descriptors := s.descriptors.accept newSocket hfree,
    clientSockets := match freeSlot s with
      | none => s.clientSockets
      | some i => Function.update s.clientSockets i newSocket }

/-- The results of the calls in one iteration: what `select` leaves in the set,
the descriptor that `accept` returns, none if it fails, and for each slot the
result of `read` and a random number. -/
structure Results where
  ready : Finset ℕ
  newSocket : Option ℕ
  valread : Fin maxClients → ℤ
  rand : Fin maxClients → ℕ

def randomChar (rand : ℕ) : UInt8 := UInt8.ofNat (65+rand % 26)

def serveSlot (r : Results) (s : Server) (i : Fin maxClients) : Server :=
  let sd := s.clientSockets i
  if sd ∈ r.ready then
    if r.valread i = 0 then
      { s with descriptors := s.descriptors.close sd,
               clientSockets := Function.update s.clientSockets i 0 }
    else { s with sent := s.sent++[(sd, randomChar (r.rand i))] }
  else s

/-- The server socket is ready for `accept`. It returns a descriptor that was
not open, and never standard input, which `socket` has found open. -/
def acceptReady (r : Results) (s : Server) : Option Server :=
  if s.serverFd ∈ r.ready then
    match r.newSocket with
    | none => none
    | some newSocket =>
      if h : 0 < newSocket ∧ ¬ s.descriptors.IsOpen newSocket then
        some (newConnection newSocket s h.2)
      else none
  else some s

/-- An iteration of the loop of `main`. A failing `select` or `accept` ends the
program. -/
def iteration (r : Results) (s : Server) : Option Server :=
  if (readfds s).Reports r.ready then
    (acceptReady r s).map fun s => (List.finRange maxClients).foldl (serveSlot r) s
  else none

theorem empty_not_open (fd : ℕ) : ¬ Table.empty.IsOpen fd := by
  rintro (h | h)
  · exact absurd h (Finset.notMem_empty fd)
  · cases h

def started (serverFd : ℕ) : Server where
  serverFd := serverFd
  clientSockets _ := 0
  descriptors := Table.empty.listen serverFd (empty_not_open serverFd)
  sent := []

end ProgSistema.SelectServer
