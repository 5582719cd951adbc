import ProgSistema.Lib.CRuntime
import ProgSistema.Lib.Runs

/-!
# A client that sends a variable when it has changed

Two threads assign random values to `A` and set a flag. The sender clears the
flag under the mutex when the value is not the one sent last, but sends it and
records it as sent outside. `A` and its flag are used under the mutex only, so
that each critical section is one step.
-/

set_option autoImplicit false

namespace ProgSistema.ValueStream.Sender
open Runs

inductive Modificatore where
  | thread1
  | thread2
  deriving DecidableEq, Repr

inductive ModificatorePc where
  | loopTest
  | update (newValue : ℤ)
  | asleep
  | ended
  deriving DecidableEq, Repr

inductive SenderPc where
  | loopTest
  | lock
  | sending (valueToSend : ℤ)
  | recording (valueToSend : ℤ)
  | asleep
  | ended
  deriving DecidableEq, Repr

/-- The variables of the client and of its threads. The values assigned to `A`
and the values sent only record. -/
structure Client where
  a : ℤ
  aChanged : Bool
  clientRunning : Bool
  modificatori : Modificatore → ModificatorePc
  sender : SenderPc
  lastASend : ℤ
  assigned : List ℤ
  sent : List ℤ

inductive Event where
  | modify (m : Modificatore) (rand : ℕ)
  | sender
  | serverCloses
  deriving DecidableEq, Repr

def modificatore (m : Modificatore) (rand : ℕ) (c : Client) : Option Client :=
  let goes (pc : ModificatorePc) (c : Client) : Client :=
    { c with modificatori := Function.update c.modificatori m pc }
  match c.modificatori m with
  | .loopTest => some (goes (if c.clientRunning then .update (rand % 1000+1) else .ended) c)
  | .update newValue => some (goes .asleep { c with
      a := newValue, aChanged := true, assigned := c.assigned++[newValue] })
  | .asleep => some (goes .loopTest c)
  | .ended => none

/-- Each send succeeds. -/
def threadTcpSender (c : Client) : Option Client :=
  match c.sender with
  | .loopTest => some { c with sender := if c.clientRunning then .lock else .ended }
  | .lock =>
    if c.aChanged ∧ c.a ≠ c.lastASend
      then some { c with sender := .sending c.a, aChanged := false }
      else some { c with sender := .asleep }
  | .sending valueToSend =>
    some { c with sender := .recording valueToSend, sent := c.sent++[valueToSend] }
  | .recording valueToSend => some { c with sender := .asleep, lastASend := valueToSend }
  | .asleep => some { c with sender := .loopTest }
  | .ended => none

/-- One step of the client; `thread_ricezione` clears `client_running` when the
server closes the connection. -/
def step (e : Event) (c : Client) : Option Client :=
  match e with
  | .modify m rand => modificatore m rand c
  | .sender => threadTcpSender c
  | .serverCloses => some { c with clientRunning := false }

def started : Client where
  a := 0
  aChanged := false
  clientRunning := true
  modificatori _ := .loopTest
  sender := .loopTest
  lastASend := -1
  assigned := []
  sent := []

/-! What one step does to the values. -/

def Client.flow (c : Client) : List ℤ :=
  c.sent++match c.sender with
    | .sending valueToSend => [valueToSend]
    | _ => []

def Client.last (c : Client) : ℤ :=
  match c.sender with
  | .sending valueToSend | .recording valueToSend => valueToSend
  | _ => c.lastASend

theorem step_cases {e : Event} {c c' : Client} (h : step e c = some c') :
    (∃ m newValue, c.modificatori m = .update newValue ∧ c'.a = newValue ∧ c'.aChanged = true ∧
      c'.assigned = c.assigned++[newValue] ∧ c'.flow = c.flow ∧ c'.last = c.last) ∨
    (c.aChanged = true ∧ c.a ≠ c.last ∧ c'.a = c.a ∧ c'.aChanged = false ∧
      c'.assigned = c.assigned ∧ c'.flow = c.flow++[c.a] ∧ c'.last = c.a) ∨
    (c'.a = c.a ∧ c'.aChanged = c.aChanged ∧ c'.assigned = c.assigned ∧ c'.flow = c.flow ∧
      c'.last = c.last) := by
  cases e with
  | modify m rand =>
    simp only [step, modificatore] at h
    cases hpc : c.modificatori m with
    | update newValue =>
      rw [hpc] at h
      cases h
      exact Or.inl ⟨m, newValue, hpc, rfl, rfl, rfl, rfl, rfl⟩
    | loopTest | asleep =>
      rw [hpc] at h
      cases h
      exact Or.inr (Or.inr ⟨rfl, rfl, rfl, rfl, rfl⟩)
    | ended =>
      rw [hpc] at h
      cases h
  | sender =>
    simp only [step, threadTcpSender] at h
    unfold Client.flow Client.last
    cases hpc : c.sender with
    | loopTest =>
      rw [hpc] at h
      cases h
      cases c.clientRunning <;> exact Or.inr (Or.inr ⟨rfl, rfl, rfl, rfl, rfl⟩)
    | lock =>
      rw [hpc] at h
      dsimp only at h
      split at h
      · rename_i hsend
        cases h
        refine Or.inr (Or.inl ⟨hsend.1, hsend.2, rfl, rfl, rfl, ?_, rfl⟩)
        rw [List.append_nil]
      · cases h
        exact Or.inr (Or.inr ⟨rfl, rfl, rfl, rfl, rfl⟩)
    | sending valueToSend =>
      rw [hpc] at h
      cases h
      refine Or.inr (Or.inr ⟨rfl, rfl, rfl, ?_, rfl⟩)
      rw [List.append_nil]
    | recording | asleep =>
      rw [hpc] at h
      cases h
      exact Or.inr (Or.inr ⟨rfl, rfl, rfl, rfl, rfl⟩)
    | ended =>
      rw [hpc] at h
      cases h
  | serverCloses =>
    cases h
    exact Or.inr (Or.inr ⟨rfl, rfl, rfl, rfl, rfl⟩)

def Client.Positive (c : Client) : Prop := ∀ m newValue,
  c.modificatori m = .update newValue → 0 < newValue

theorem positive_step {e : Event} {c c' : Client} (hc : c.Positive) (h : step e c = some c') :
    c'.Positive := by
  cases e with
  | modify m rand =>
    have hupdate : ∀ {pc : ModificatorePc}, (∀ newValue, pc = .update newValue → 0 < newValue) →
        ∀ m' newValue, Function.update c.modificatori m pc m' = .update newValue →
          0 < newValue := fun hpc =>
      (Function.forall_update_iff c.modificatori
        fun _ pc => ∀ newValue, pc = .update newValue → 0 < newValue).mpr
          ⟨hpc, fun m' _ => hc m'⟩
    simp only [step, modificatore] at h
    cases hpc : c.modificatori m with
    | loopTest =>
      rw [hpc] at h
      cases h
      apply hupdate
      intro newValue hvalue
      split at hvalue
      · cases hvalue
        omega
      · cases hvalue
    | update | asleep =>
      rw [hpc] at h
      cases h
      exact hupdate nofun
    | ended =>
      rw [hpc] at h
      cases h
  | sender =>
    have hkeeps : c'.modificatori = c.modificatori := by
      simp only [step, threadTcpSender] at h
      split at h
      · cases h
        rfl
      · split at h <;> cases h <;> rfl
      · cases h
        rfl
      · cases h
        rfl
      · cases h
        rfl
      · cases h
    unfold Client.Positive
    rw [hkeeps]
    exact hc
  | serverCloses =>
    cases h
    exact hc

/-- What holds of the values between steps: each value taken is older than `A`
while the flag is set, and `A` has been taken last while it is not. -/
structure Inv (c : Client) : Prop where
  positive : c.Positive
  values : ∀ value ∈ c.assigned, 0 < value
  current : c.assigned ≠ [] → c.assigned.getLast? = some c.a
  changed : c.aChanged = true → c.assigned ≠ []
  order : c.flow.Sublist (if c.aChanged then c.assigned.dropLast else c.assigned)
  chain : c.flow.IsChain (· ≠ ·)
  recorded : c.flow = [] ∧ c.last = -1 ∨ c.flow.getLast? = some c.last
  settled : c.aChanged = false → c.assigned ≠ [] → c.last = c.a

theorem started_inv : Inv started where
  positive := nofun
  values := nofun
  current h := absurd rfl h
  changed := nofun
  order := List.Sublist.refl _
  chain := .nil
  recorded := Or.inl ⟨rfl, rfl⟩
  settled _ h := absurd rfl h

theorem step_inv {e : Event} {c c' : Client} (hi : Inv c) (h : step e c = some c') : Inv c' := by
  have hpositive := positive_step hi.positive h
  rcases step_cases h with ⟨m, newValue, hpc, ha, hflag, hassigned, hflow, hlast⟩ |
    ⟨hset, hother, ha, hflag, hassigned, hflow, hlast⟩ | ⟨ha, hflag, hassigned, hflow, hlast⟩
  · refine ⟨hpositive, ?_, ?_, ?_, ?_, ?_, ?_, ?_⟩
    · rw [hassigned]
      intro value hvalue
      rcases List.mem_append.mp hvalue with hold | hnew
      · exact hi.values value hold
      · rw [List.mem_singleton.mp hnew]
        exact hi.positive m newValue hpc
    · intro _
      rw [hassigned, ha, List.getLast?_concat]
    · intro _
      rw [hassigned]
      exact List.append_ne_nil_of_right_ne_nil _ (List.cons_ne_nil _ _)
    · rw [hflag, if_pos rfl, hassigned, List.dropLast_concat, hflow]
      refine hi.order.trans ?_
      split
      · exact List.dropLast_sublist _
      · exact List.Sublist.refl _
    · rw [hflow]
      exact hi.chain
    · rw [hflow, hlast]
      exact hi.recorded
    · intro hno
      rw [hflag] at hno
      cases hno
  · have hne := hi.changed hset
    have hsplit : c.assigned.dropLast++[c.a] = c.assigned := List.dropLast_append_getLast? _ (hi.current hne)
    refine ⟨hpositive, ?_, ?_, ?_, ?_, ?_, ?_, ?_⟩
    · rw [hassigned]
      exact hi.values
    · rw [hassigned, ha]
      exact hi.current
    · intro _
      rw [hassigned]
      exact hne
    · have horder := hi.order
      rw [hset, if_pos rfl] at horder
      rw [hflag, hassigned, hflow, ← hsplit]
      exact horder.append (List.Sublist.refl _)
    · rw [hflow, List.isChain_append]
      refine ⟨hi.chain, .singleton _, ?_⟩
      intro x hx y hy
      cases hy
      rcases hi.recorded with ⟨hnil, -⟩ | hrecorded
      · rw [hnil] at hx
        cases hx
      · rw [hrecorded] at hx
        cases hx
        exact hother.symm
    · right
      rw [hflow, hlast, List.getLast?_concat]
    · intro _ _
      rw [hlast, ha]
  · refine ⟨hpositive, ?_, ?_, ?_, ?_, ?_, ?_, ?_⟩
    · rw [hassigned]
      exact hi.values
    · rw [hassigned, ha]
      exact hi.current
    · rw [hassigned, hflag]
      exact hi.changed
    · rw [hassigned, hflag, hflow]
      exact hi.order
    · rw [hflow]
      exact hi.chain
    · rw [hflow, hlast]
      exact hi.recorded
    · rw [hassigned, hflag, hlast, ha]
      exact hi.settled

theorem reachable_inv {c : Client} (h : Reachable step started c) : Inv c :=
  reachable_invariant step Inv started_inv (fun _ _ _ hi hstep => step_inv hi hstep) h

def Client.Settled (c : Client) : Prop :=
  ∀ valueToSend, c.sender ≠ .sending valueToSend ∧ c.sender ≠ .recording valueToSend

theorem flow_of_settled {c : Client} (h : c.Settled) : c.flow = c.sent ∧ c.last = c.lastASend := by
  unfold Client.flow Client.last
  cases hpc : c.sender with
  | sending valueToSend => exact absurd hpc (h valueToSend).1
  | recording valueToSend => exact absurd hpc (h valueToSend).2
  | loopTest | lock | asleep | ended => exact ⟨List.append_nil _, rfl⟩

/-- The values sent are values assigned in their order, no value is sent twice
in a row, and when the sender has nothing to send, it has sent `A` last. -/
theorem last_value_sent {c : Client} (h : Reachable step started c) :
    c.sent.Sublist c.assigned ∧ c.sent.IsChain (· ≠ ·) ∧
    (c.assigned ≠ [] → c.Settled → ¬ (c.aChanged = true ∧ c.a ≠ c.lastASend) →
      c.sent.getLast? = some c.a) := by
  have hi := reachable_inv h
  have hsent : c.sent <+: c.flow := List.prefix_append _ _
  refine ⟨?_, hi.chain.prefix hsent, ?_⟩
  · refine (hsent.sublist.trans hi.order).trans ?_
    split
    · exact List.dropLast_sublist _
    · exact List.Sublist.refl _
  · intro hne hsettled hno
    obtain ⟨hflow, hlast⟩ := flow_of_settled hsettled
    have ha : c.lastASend = c.a := by
      cases hflag : c.aChanged with
      | false => exact hlast.symm.trans (hi.settled hflag hne)
      | true => exact (not_not.mp fun hother => hno ⟨hflag, hother⟩).symm
    rw [← hflow, ← ha, ← hlast]
    rcases hi.recorded with ⟨-, hnothing⟩ | hrecorded
    · have hpos := hi.values c.a (List.mem_of_getLast? (hi.current hne))
      omega
    · exact hrecorded

/-- A value assigned during a send, and another one that returns to it. -/
def changesDuringSend : List Event :=
  [.modify .thread1 4, .modify .thread1 0, .sender, .sender, .modify .thread2 6,
    .modify .thread2 0, .sender, .sender, .modify .thread1 0, .modify .thread1 4,
    .modify .thread1 0, .sender, .sender, .sender]

theorem changes_during_send_run : (exec step changesDuringSend started).isSome = true := by decide

theorem changes_during_send : ((exec step changesDuringSend started).get
    changes_during_send_run).sent.getLast? = some 5 :=
  (last_value_sent (reachable_get changes_during_send_run)).2.2 (by decide) (by
    have hsender : ((exec step changesDuringSend started).get changes_during_send_run).sender =
        .asleep := by decide
    intro valueToSend
    rw [hsender]
    exact ⟨nofun, nofun⟩) (by decide)

end ProgSistema.ValueStream.Sender
