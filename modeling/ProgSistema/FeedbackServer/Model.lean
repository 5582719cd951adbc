import ProgSistema.Lib.Runs
import ProgSistema.Lib.CRuntime
import ProgSistema.Lib.ArrayPrefix

/-!
# The feedback of a lesson

Students send datagrams with a category and a time of their own clock. The
server counts the messages of each category, and keeps the messages in an
array of fixed size to count those of the last minutes; when the array is
almost full it drops the old ones.
-/

set_option autoImplicit false

namespace ProgSistema.FeedbackServer
open CRuntime ArrayPrefix

def maxMessaggi : ℕ := 10000

structure Messaggio where
  tipo : UInt8
  timestamp : ℤ
  deriving DecidableEq, Repr

abbrev MessaggioT := Fin 16 → UInt8

/-- `none` is the index -1. -/
def charToIndex (c : UInt8) : Option (Fin 6) :=
  match c with
  | 65 => some 0
  | 82 => some 1
  | 73 => some 2
  | 78 => some 3
  | 67 => some 4
  | 66 => some 5
  | _ => none

/-- The category is the first byte; the time is aligned to eight bytes. -/
def messaggio (msg : MessaggioT) : Messaggio where
  tipo := msg 0
  timestamp := toLong (littleEndian (List.ofFn fun i : Fin 8 => msg (i.natAdd 8)))

/-- A datagram shorter than the variable leaves the rest of it as it was. -/
def recvfrom (b : Bytes) (msg : MessaggioT) : MessaggioT := fun i => b.getD i (msg i)

structure Contatori where
  totale : ℤ
  ultimi5Min : ℤ
  ultimoMin : ℤ
  deriving DecidableEq, Repr

structure Server where
  contatori : Fin 6 → Contatori
  messaggi : ℕ → Messaggio
  numMessaggi : ℕ
  msg : MessaggioT

def contaMessaggio (limite5Min limite1Min : ℤ) (contatori : Fin 6 → Contatori) (m : Messaggio) :
    Fin 6 → Contatori :=
  match charToIndex m.tipo with
  | none => contatori
  | some idx =>
    let c := contatori idx
    Function.update contatori idx
      { c with ultimi5Min := if m.timestamp ≥ limite5Min then toInt (c.ultimi5Min+1)
                             else c.ultimi5Min,
               ultimoMin := if m.timestamp ≥ limite1Min then toInt (c.ultimoMin+1)
                            else c.ultimoMin }

def aggiornaContatori (oraCorrente : ℤ) (s : Server) : Server :=
  let azzerati := fun i => { s.contatori i with ultimi5Min := 0, ultimoMin := 0 }
  let conta := contaMessaggio (oraCorrente-300) (oraCorrente-60)
  { s with contatori := (contents s.messaggi s.numMessaggi).foldl conta azzerati }

def pulisciMessaggiVecchi (oraCorrente : ℤ) (s : Server) : Server :=
  let (messaggi, j) := compact (fun m => m.timestamp ≥ oraCorrente-300) s.messaggi s.numMessaggi
  { s with messaggi := messaggi, numMessaggi := j }

def memorizza (m : Messaggio) (s : Server) : Server :=
  if s.numMessaggi < maxMessaggi then
    { s with messaggi := Function.update s.messaggi s.numMessaggi m,
             numMessaggi := s.numMessaggi+1 }
  else s

def pulisciSeNecessario (oraCorrente : ℤ) (s : Server) : Server :=
  if s.numMessaggi ≥ maxMessaggi-100 then pulisciMessaggiVecchi oraCorrente s else s

def aggiornaTotale (idx : Fin 6) (s : Server) : Server :=
  let c := s.contatori idx
  { s with contatori := Function.update s.contatori idx { c with totale := toInt (c.totale+1) } }

def accepted (b : Bytes) (s : Server) : Option (Fin 6 × Messaggio) :=
  if b = [] then none
  else
    let m := messaggio (recvfrom b s.msg)
    (charToIndex m.tipo).map fun idx => (idx, m)

def receive (oraCorrente : ℤ) (b : Bytes) (s : Server) : Server :=
  let received := { s with msg := recvfrom b s.msg }
  match accepted b s with
  | none => received
  | some (idx, m) => pulisciSeNecessario oraCorrente (memorizza m (aggiornaTotale idx received))

/-- One turn of the main loop: a datagram and the clock when the server drops
old messages and counts again, or a turn without a datagram. -/
inductive Event where
  | datagram (b : Bytes) (oraPulizia oraCorrente : ℤ)
  | idle (oraCorrente : ℤ)
  deriving DecidableEq, Repr

def iteration : Event → Server → Server
  | .datagram b oraPulizia oraCorrente, s => aggiornaContatori oraCorrente (receive oraPulizia b s)
  | .idle oraCorrente, s => aggiornaContatori oraCorrente s

def started (msg : MessaggioT) : Server where
  contatori _ := ⟨0, 0, 0⟩
  messaggi _ := ⟨0, 0⟩
  numMessaggi := 0
  msg := msg

end ProgSistema.FeedbackServer
