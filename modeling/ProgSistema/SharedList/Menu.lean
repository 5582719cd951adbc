import ProgSistema.Lib.Stdin
import ProgSistema.SharedList.Refinement

/-!
# The commands of the menu

A command reads its operands from the input, calls the operations of the list
and reports what it has done. The operations are whole critical sections, and
between them the other process is idle here.
-/

set_option autoImplicit false

namespace ProgSistema.SharedList
open CRuntime

inductive Report where
  | inserted (valore : ℤ)
  | invalidValue
  | removed (rimosso : ℤ)
  | emptyList
  | counted (count : ℤ)
  | printed (values : List ℤ) (count : ℤ)
  | skipped
  | insertedMany (numElementi : ℤ)
  | invalidNumber
  | memory (headOffset : ℤ) (head : Option ℤ) (count : ℤ) (liberi occupati : ℕ)
  | leaving
  | invalidChoice
  deriving DecidableEq, Repr

/-- The text printed; the lines that `list_insert`, `list_pop` and `list_count`
print themselves are left out. -/
def Report.message (processName : Bytes) : Report → Bytes
  | .inserted valore => text "✅ Elemento "++printInt valore++text " inserito!\n"
  | .invalidValue => text "❌ Valore non valido!\n"
  | .removed rimosso => text "✅ Elemento "++printInt rimosso++text " rimosso!\n"
  | .emptyList => text "❌ Lista vuota - niente da rimuovere!\n"
  | .counted count => text "📊 La lista contiene "++printInt count++text " elementi\n"
  | .printed values count => processName++text ": Lista: ["++
      (text " -> ").intercalate (values.map printInt)++text "] (count: "++printInt count++text ")\n"
  | .skipped => text "❌ Valore non valido, salto...\n"
  | .insertedMany numElementi => text "✅ Inseriti "++printInt numElementi++text " elementi!\n"
  | .invalidNumber => text "❌ Numero non valido!\n"
  | .memory headOffset head count liberi occupati =>
      text "\n"++processName++text ": === STATO MEMORIA CONDIVISA ===\n"++
      text "Head offset: "++printInt headOffset++
      head.elim (text " (lista vuota)\n") (fun data =>
        text " (primo elemento: "++printInt data++text ")\n")++
      text "Count: "++printInt count++text " elementi\n"++
      text "Pool nodi: "++decimal liberi++text " liberi + "++decimal occupati++
      text " occupati = "++decimal maxNodes++text " totali\n"++
      -- The pool has a hundred nodes, so the percentage is the number of used ones.
      text "Utilizzo memoria: "++decimal occupati++text ".0%\n"
  | .leaving => text "👋 "++processName++text " in uscita...\n"
  | .invalidChoice => text "❌ Scelta non valida! Riprova.\n"

/-- What a command leaves: its lines, the segment and the input after it, which is
`none` when the command goes on reading at the end of the input for ever. -/
structure Outcome where
  reports : List Report
  shm : SharedMemory
  stdin : Option Bytes

def Outcome.after (reports : List Report) (o : Outcome) : Outcome :=
  { o with reports := reports++o.reports }

def complain (report : Report) (shm : SharedMemory) (stdin : Bytes) : Outcome :=
  ⟨[report], shm, skipLine stdin⟩

def inserisciElemento (stdin : Bytes) (shm : SharedMemory) : Except Fault Outcome :=
  match scanfInt stdin with
  | (some valore, stdin) => do
    let shm ← listInsert valore shm
    return ⟨[.inserted valore], shm, some stdin⟩
  | (none, stdin) => .ok (complain .invalidValue shm stdin)

def rimuoviElemento (stdin : Bytes) (shm : SharedMemory) : Except Fault Outcome := do
  let (rimosso, shm) ← listPop shm
  if rimosso ≠ -1 then return ⟨[.removed rimosso], shm, some stdin⟩
  else return ⟨[.emptyList], shm, some stdin⟩

def inserisciLoop : ℕ → Bytes → SharedMemory → Except Fault Outcome
  | 0, stdin, shm => .ok ⟨[], shm, some stdin⟩
  | n+1, stdin, shm =>
    match scanfInt stdin with
    | (some valore, stdin) => do
      let shm ← listInsert valore shm
      inserisciLoop n stdin shm
    | (none, stdin) =>
      match skipLine stdin with
      | none => .ok ⟨[.skipped], shm, none⟩
      | some stdin => (inserisciLoop n stdin shm).map (Outcome.after [.skipped])

def inserisciMultipli (stdin : Bytes) (shm : SharedMemory) : Except Fault Outcome :=
  match scanfInt stdin with
  | (some numElementi, stdin) =>
    if numElementi > 0 then do
      let o ← inserisciLoop numElementi.toNat stdin shm
      match o.stdin with
      | none => return o
      | some stdin =>
        let ((values, count), shm) ← listPrint (maxNodes+1) o.shm
        return ⟨o.reports++[.insertedMany numElementi, .printed values count], shm, some stdin⟩
    else .ok (complain .invalidNumber shm stdin)
  | (none, stdin) => .ok (complain .invalidNumber shm stdin)

def stampaStatoMemoria (shm : SharedMemory) : Except Fault (Report × SharedMemory) := do
  let shm ← semWait shm
  let head ← (if shm.headOffset = -1 then .ok none
    else (deref (some shm.headOffset)).map fun i => some (shm.nodes i).data)
  let liberi := (List.finRange maxNodes).countP fun i => (shm.nodes i).isFree ≠ 0
  let occupati := (List.finRange maxNodes).countP fun i => (shm.nodes i).isFree = 0
  return (.memory shm.headOffset head shm.count liberi occupati, semPost shm)

def eseguiComando (scelta : ℤ) (stdin : Bytes) (shm : SharedMemory) : Except Fault Outcome :=
  if scelta = 1 then inserisciElemento stdin shm
  else if scelta = 2 then rimuoviElemento stdin shm
  else if scelta = 3 then do
    let (count, shm) ← listCount shm
    return ⟨[.counted count], shm, some stdin⟩
  else if scelta = 4 then do
    let ((values, count), shm) ← listPrint (maxNodes+1) shm
    return ⟨[.printed values count], shm, some stdin⟩
  else if scelta = 5 then inserisciMultipli stdin shm
  else if scelta = 6 then do
    let (report, shm) ← stampaStatoMemoria shm
    return ⟨[report], shm, some stdin⟩
  else if scelta = 0 then .ok ⟨[.leaving], shm, some stdin⟩
  else .ok ⟨[.invalidChoice], shm, some stdin⟩

def Report.insertions : Report → ℤ
  | .inserted _ => 1
  | .insertedMany numElementi => numElementi
  | _ => 0

def Outcome.insertions (o : Outcome) : ℤ := (o.reports.map Report.insertions).sum

/-! What the commands do to the list. -/

def readValues : ℕ → Bytes → List ℤ × Option Bytes
  | 0, stdin => ([], some stdin)
  | n+1, stdin =>
    match scanfInt stdin with
    | (some valore, stdin) => (valore::(readValues n stdin).1, (readValues n stdin).2)
    | (none, stdin) =>
      match skipLine stdin with
      | none => ([], none)
      | some stdin => readValues n stdin

theorem read_values_length (n : ℕ) (stdin : Bytes) : (readValues n stdin).1.length ≤ n := by
  induction n generalizing stdin with
  | zero => exact le_rfl
  | succ n ih =>
    rw [readValues]
    obtain ⟨value, stdin⟩ := scanfInt stdin
    cases value with
    | some valore => exact Nat.succ_le_succ (ih stdin)
    | none =>
      dsimp only
      cases skipLine stdin with
      | none => exact Nat.zero_le _
      | some stdin => exact (ih stdin).trans (Nat.le_succ n)

theorem height_push (v : ℤ) (s : Stack) : (s.push v).height = min (s.height+1) maxNodes := by
  have hbound : s.height ≤ maxNodes := s.bounded
  by_cases hroom : s.height < maxNodes
  · rw [BoundedStack.height, BoundedStack.items_push_of_lt v s hroom, List.length_cons]
    exact (min_eq_left hroom).symm
  · rw [BoundedStack.push_of_full v s hroom]
    omega

theorem count_height {shm : SharedMemory} {s : Stack} (h : Holds shm s) : shm.count = s.height := by
  obtain ⟨chain, hr, hs⟩ := h
  rw [hr.counted, height_eq hs]

/-- The loop inserts the numbers among its operands while there is room, and
reports none of them. -/
theorem inserisci_loop_holds (n : ℕ) (stdin : Bytes) {shm : SharedMemory} {s : Stack}
    (h : Holds shm s) : ∃ reports shm' s',
      inserisciLoop n stdin shm = .ok ⟨reports, shm', (readValues n stdin).2⟩ ∧ Holds shm' s' ∧
        s'.height = min (s.height+(readValues n stdin).1.length) maxNodes ∧
        (reports.map Report.insertions).sum = 0 := by
  induction n generalizing stdin shm s with
  | zero =>
    have hbound : s.height ≤ maxNodes := s.bounded
    exact ⟨[], shm, s, rfl, h, (min_eq_left hbound).symm, rfl⟩
  | succ n ih =>
    rw [inserisciLoop, readValues]
    obtain ⟨value, stdin⟩ := scanfInt stdin
    cases value with
    | some valore =>
      obtain ⟨shm₁, hinsert, h₁, -⟩ := insert_holds valore h
      obtain ⟨reports, shm', s', hloop, h', hheight, hnone⟩ := ih stdin h₁
      refine ⟨reports, shm', s', ?_, h', ?_, hnone⟩
      · dsimp only
        rw [hinsert]
        exact hloop
      · rw [hheight, height_push, List.length_cons]
        omega
    | none =>
      dsimp only
      cases skipLine stdin with
      | none =>
        have hbound : s.height ≤ maxNodes := s.bounded
        exact ⟨[.skipped], shm, s, rfl, h, (min_eq_left hbound).symm, rfl⟩
      | some stdin =>
        obtain ⟨reports, shm', s', hloop, h', hheight, hnone⟩ := ih stdin h
        refine ⟨.skipped::reports, shm', s', ?_, h', hheight, ?_⟩
        · dsimp only
          rw [hloop]
          rfl
        · rw [List.map_cons, List.sum_cons, hnone]
          rfl

theorem stampa_stato_holds {shm : SharedMemory} {s : Stack} (h : Holds shm s) :
    ∃ report, stampaStatoMemoria shm = .ok (report, shm) := by
  obtain ⟨hwait, hpost⟩ := sem_wait_holds h
  have hhead : ∃ head, (if shm.headOffset = -1 then Except.ok none
      else (deref (some shm.headOffset)).map fun i => some (shm.nodes i).data) = .ok head := by
    rcases head_holds h with hnull | ⟨i, hne, hi⟩
    · exact ⟨none, if_pos hnull⟩
    · rw [if_neg hne, hi]
      exact ⟨_, rfl⟩
  obtain ⟨head, hhead⟩ := hhead
  rw [stampaStatoMemoria, hwait, ok_bind]
  dsimp only
  rw [hhead, ok_bind, hpost]
  exact ⟨_, rfl⟩

def ElementFits (count : ℤ) (stdin : Bytes) : Prop :=
  (scanfInt stdin).1 = none ∨ count < maxNodes

/-- As many numbers follow as have been announced, and there is room for them. If
the input ends before, no number may have been inserted. -/
def ElementsFit (count : ℤ) (stdin : Bytes) : Prop :=
  ∀ n, (scanfInt stdin).1 = some n → 0 < n →
    ((readValues n.toNat (scanfInt stdin).2).2 ≠ none →
      (readValues n.toNat (scanfInt stdin).2).1.length = n ∧ count+n ≤ maxNodes) ∧
    ((readValues n.toNat (scanfInt stdin).2).2 = none →
      (readValues n.toNat (scanfInt stdin).2).1 = [] ∨ count = maxNodes)

theorem inserisci_elemento_holds (stdin : Bytes) {shm : SharedMemory} {s : Stack}
    (h : Holds shm s) : ∃ o s', inserisciElemento stdin shm = .ok o ∧ Holds o.shm s' ∧
      (o.insertions = s'.height-s.height ↔ ElementFits s.height stdin) := by
  rw [inserisciElemento, ElementFits]
  obtain ⟨value, rest⟩ := scanfInt stdin
  cases value with
  | none =>
    refine ⟨_, s, rfl, h, iff_of_true ?_ (.inl rfl)⟩
    rw [sub_self]
    rfl
  | some valore =>
    obtain ⟨shm', hinsert, h', -⟩ := insert_holds valore h
    refine ⟨⟨[.inserted valore], shm', some rest⟩, s.push valore, ?_, h', ?_⟩
    · dsimp only
      rw [hinsert]
      rfl
    · have hbound : s.height ≤ maxNodes := s.bounded
      have hone : Outcome.insertions ⟨[.inserted valore], shm', some rest⟩ = 1 := rfl
      rw [hone, height_push]
      simp only [reduceCtorEq, false_or]
      omega

theorem inserisci_multipli_holds (stdin : Bytes) {shm : SharedMemory} {s : Stack}
    (h : Holds shm s) : ∃ o s', inserisciMultipli stdin shm = .ok o ∧ Holds o.shm s' ∧
      (o.insertions = s'.height-s.height ↔ ElementsFit s.height stdin) := by
  rw [inserisciMultipli, ElementsFit]
  obtain ⟨value, rest⟩ := scanfInt stdin
  have hcomplain : (complain .invalidNumber shm rest).insertions = (s.height : ℤ)-s.height := by
    rw [sub_self]
    rfl
  cases value with
  | none => exact ⟨_, s, rfl, h, iff_of_true hcomplain nofun⟩
  | some n =>
    dsimp only
    by_cases hn : n > 0
    · rw [if_pos hn]
      obtain ⟨reports, shm', s', hloop, h', hheight, hnone⟩ := inserisci_loop_holds n.toNat rest h
      have hlength := read_values_length n.toNat rest
      have hbound : s.height ≤ maxNodes := s.bounded
      have hfit : ∀ P : ℤ → Prop, (∀ m, some n = some m → 0 < m → P m) ↔ P n := by
        intro P
        constructor
        · exact fun hall => hall n rfl hn
        · rintro hP m ⟨⟩ -
          exact hP
      rw [hloop, ok_bind, hfit]
      generalize readValues n.toNat rest = read at hheight hlength ⊢
      obtain ⟨values, left⟩ := read
      cases left with
      | none =>
        refine ⟨_, s', rfl, h', ?_⟩
        have hzero : Outcome.insertions ⟨reports, shm', none⟩ = 0 := hnone
        rw [hzero, ← List.length_eq_zero_iff]
        dsimp only at hheight
        simp only [ne_eq, not_true_eq_false, false_imp_iff, true_and, true_imp_iff]
        omega
      | some left =>
        dsimp only
        rw [print_holds h' (maxNodes+1) (Nat.lt_succ_self _)]
        refine ⟨_, s', rfl, h', ?_⟩
        have hall : Outcome.insertions ⟨reports++[.insertedMany n, .printed s'.items s'.height],
            shm', some left⟩ = n := by
          rw [Outcome.insertions, List.map_append, List.sum_append, hnone]
          simp [Report.insertions]
        dsimp only
        rw [hall]
        dsimp only at hheight hlength
        simp only [ne_eq, reduceCtorEq, not_false_eq_true, true_imp_iff, false_imp_iff, and_true]
        omega
    · rw [if_neg hn]
      refine ⟨_, s, rfl, h, iff_of_true hcomplain ?_⟩
      rintro m ⟨⟩ hm
      exact absurd hm hn

/-- No command blocks, leaves the pool or takes the list apart. -/
theorem comando_holds (scelta : ℤ) (stdin : Bytes) {shm : SharedMemory} {s : Stack}
    (h : Holds shm s) : ∃ o s', eseguiComando scelta stdin shm = .ok o ∧ Holds o.shm s' := by
  unfold eseguiComando
  by_cases h1 : scelta = 1
  · obtain ⟨o, s', hrun, hs', -⟩ := inserisci_elemento_holds stdin h
    exact ⟨o, s', by rw [if_pos h1, hrun], hs'⟩
  rw [if_neg h1]
  by_cases h2 : scelta = 2
  · obtain ⟨shm', hpop, hs', -⟩ := pop_holds h
    rw [if_pos h2, rimuoviElemento, hpop, ok_bind]
    dsimp only
    split
    · exact ⟨_, s.pop, rfl, hs'⟩
    · exact ⟨_, s.pop, rfl, hs'⟩
  rw [if_neg h2]
  by_cases h3 : scelta = 3
  · rw [if_pos h3, count_holds h]
    exact ⟨_, s, rfl, h⟩
  rw [if_neg h3]
  by_cases h4 : scelta = 4
  · rw [if_pos h4, print_holds h (maxNodes+1) (Nat.lt_succ_self _)]
    exact ⟨_, s, rfl, h⟩
  rw [if_neg h4]
  by_cases h5 : scelta = 5
  · obtain ⟨o, s', hrun, hs', -⟩ := inserisci_multipli_holds stdin h
    exact ⟨o, s', by rw [if_pos h5, hrun], hs'⟩
  rw [if_neg h5]
  by_cases h6 : scelta = 6
  · obtain ⟨report, hstato⟩ := stampa_stato_holds h
    rw [if_pos h6, hstato]
    exact ⟨_, s, rfl, h⟩
  rw [if_neg h6]
  split
  · exact ⟨_, s, rfl, h⟩
  · exact ⟨_, s, rfl, h⟩

end ProgSistema.SharedList
