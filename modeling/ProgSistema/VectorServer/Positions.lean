import ProgSistema.Lib.Mutex
import ProgSistema.VectorServer.Model

/-!
# Positions in the shared vector

A value is stored one element behind the first free one, and its client is
told the index of the free one. The first element stays zero: each print shows
it in place of the last value. The thousandth value is stored behind the array.
-/

set_option autoImplicit false

namespace ProgSistema.VectorServer
open CRuntime ArrayPrefix

def Pc.inside : Pc → Bool
  | .test _ | .store _ | .increment _ _ | .getIndex _ _ | .unlock _ _ => true
  | .printAll _ | .printUnlock _ | .overrun => true
  | _ => false

def Shared.values (k : Shared) : List ℤ := k.accepted.map Entry.value

def Holds (vector : SharedVector) (stored : List ℤ) : Prop :=
  contents vector.data (stored.length+1) = 0::stored

theorem holds_init : Holds initSharedVector [] := rfl

theorem holds_store {vector : SharedVector} {stored : List ℤ} (h : Holds vector stored)
    (value : ℤ) :
    Holds { vector with data := Function.update vector.data (stored.length+1) value }
      (stored++[value]) := by
  unfold Holds at h ⊢
  rw [List.length_append]
  exact (contents_append vector.data value (stored.length+1)).trans (congrArg (·++[value]) h)

/-- A print shows the elements before the last value. -/
theorem holds_shown {vector : SharedVector} {stored : List ℤ} (h : Holds vector stored) :
    contents vector.data stored.length = (0::stored).dropLast := by
  rw [← show contents vector.data (stored.length+1) = 0::stored from h, contents_succ,
    List.dropLast_concat]

theorem holds_get {vector : SharedVector} {stored : List ℤ} (h : Holds vector stored) {j : ℕ}
    {value : ℤ} (hj : stored[j]? = some value) : vector.data (j+1) = value := by
  obtain ⟨hlt, -⟩ := List.getElem?_eq_some_iff.mp hj
  have hget := contents_get vector.data (stored.length+1) (j+1) (by omega)
  rw [show contents vector.data (stored.length+1) = 0::stored from h,
    List.getElem?_cons_succ, hj] at hget
  exact (Option.some.inj hget).symm

structure Filled (stored : List ℤ) (n : ℕ) (vector : SharedVector) : Prop where
  counts : vector.count = n
  size : vector.maxSize = maxElements
  room : n < maxElements
  holds : Holds vector stored

def Stage (values : List ℤ) (vector : SharedVector) : Pc → Prop
  | .increment value slot =>
    slot = values.length+1 ∧ values.length+1 < maxElements ∧
      Filled (values++[value]) values.length vector
  | .getIndex value slot =>
    slot = values.length+1 ∧ Filled (values++[value]) (values.length+1) vector
  | .overrun => values ≠ [] ∧ Filled values values.length vector
  | _ => Filled values values.length vector

structure Recorded (k : Shared) : Prop where
  entries : ∀ (j : ℕ) (e : Entry), k.accepted[j]? = some e → e.slot = j+1 ∧ e.index = j
  prints : ∀ p ∈ k.shown, p.1 = (0::p.2).dropLast ∧ p.2 <+: k.values

theorem recorded_accept {k : Shared} (h : Recorded k) {e : Entry}
    (hslot : e.slot = k.values.length+1) (hindex : e.index = k.values.length) :
    Recorded { k with accepted := k.accepted++[e] } := by
  have hlen : k.values.length = k.accepted.length := List.length_map _
  constructor
  · intro j e' hj
    rcases lt_or_ge j k.accepted.length with hlt | hge
    · exact h.entries j e' (by rwa [List.getElem?_append_left hlt] at hj)
    · rw [List.getElem?_append_right hge] at hj
      obtain ⟨hlast, rfl⟩ := List.getElem?_eq_some_iff.mp hj
      rw [List.length_singleton] at hlast
      obtain rfl : j = k.values.length := by omega
      simpa using And.intro hslot hindex
  · intro p hp
    refine ⟨(h.prints p hp).1, (h.prints p hp).2.trans ?_⟩
    show k.values <+: (k.accepted++[e]).map Entry.value
    rw [List.map_append]
    exact List.prefix_append _ _

theorem recorded_print {k : Shared} (h : Recorded k)
    (hfilled : Filled k.values k.values.length k.vector) :
    Recorded { k with shown := k.shown++
      [(contents k.vector.data (min k.vector.count k.vector.maxSize).toNat, k.values)] } := by
  have hroom := hfilled.room
  have hmin : (min k.vector.count k.vector.maxSize).toNat = k.values.length := by
    rw [hfilled.counts, hfilled.size]
    omega
  refine ⟨h.entries, fun p hp => ?_⟩
  rcases List.mem_append.mp hp with hold | hnew
  · exact h.prints p hold
  · rw [List.mem_singleton.mp hnew, hmin]
    exact ⟨holds_shown hfilled.holds, List.prefix_refl _⟩

theorem next_int {n : ℕ} (h : n < maxElements) : toInt ((n : ℤ)+1) = n+1 := by
  unfold maxElements at h
  exact to_int_of_lt (n+1) (by omega)

/-- The owner of the mutex goes on with its call, or releases the mutex. -/
theorem work_stage {t : Thread} {pc p : Pc} {k k' : Shared} (hin : pc.inside = true)
    (hrec : Recorded k) (hstage : Stage k.values k.vector pc)
    (h : act t .run pc k = some (p, k')) :
    Recorded k' ∧ Stage k'.values k'.vector p ∧
      k'.vector.mutex = if p.inside then k.vector.mutex else none := by
  cases pc with
  | test value =>
    have hfilled : Filled k.values k.values.length k.vector := hstage
    have hroom : k.vector.count < k.vector.maxSize := by
      rw [hfilled.counts, hfilled.size]
      exact_mod_cast hfilled.room
    simp only [act, addToVector, if_pos hroom] at h
    cases h
    exact ⟨hrec, hfilled, rfl⟩
  | store value =>
    have hfilled : Filled k.values k.values.length k.vector := hstage
    have hroom := hfilled.room
    simp only [act, addToVector, hfilled.counts, next_int hroom] at h
    split at h
    · rename_i hbounds
      cases h
      have hlast : k.values.length+1 < maxElements := by omega
      have hholds := holds_store hfilled.holds value
      exact ⟨⟨hrec.entries, hrec.prints⟩, ⟨rfl, hlast, rfl, hfilled.size, hroom, hholds⟩, rfl⟩
    · rename_i hbounds
      cases h
      refine ⟨hrec, ⟨fun hnil => ?_, hfilled⟩, rfl⟩
      rw [hnil] at hbounds
      exact hbounds (by decide)
  | increment value slot =>
    obtain ⟨hslot, hlast, hfilled⟩ := hstage
    simp only [act, addToVector, hfilled.counts, next_int hfilled.room] at h
    cases h
    exact ⟨⟨hrec.entries, hrec.prints⟩, ⟨hslot, rfl, hfilled.size, hlast, hfilled.holds⟩, rfl⟩
  | getIndex value slot =>
    obtain ⟨hslot, hfilled⟩ := hstage
    have hindex : k.vector.count-1 = k.values.length := by
      rw [hfilled.counts]
      exact add_sub_cancel_right (k.values.length : ℤ) 1
    simp only [act, addToVector] at h
    cases h
    refine ⟨recorded_accept hrec hslot hindex, ?_, rfl⟩
    have hvalues : (k.accepted++[(⟨value, slot, k.vector.count-1⟩ : Entry)]).map Entry.value =
        k.values++[value] := List.map_append
    show Filled (List.map _ _) (List.map _ _).length k.vector
    rw [hvalues, List.length_append]
    exact hfilled
  | unlock value result =>
    have hfilled : Filled k.values k.values.length k.vector := hstage
    simp only [act, addToVector] at h
    cases h
    exact ⟨⟨hrec.entries, hrec.prints⟩,
      ⟨hfilled.counts, hfilled.size, hfilled.room, hfilled.holds⟩, rfl⟩
  | printAll last =>
    have hfilled : Filled k.values k.values.length k.vector := hstage
    simp only [act, printVector] at h
    cases h
    exact ⟨recorded_print hrec hfilled, hfilled, rfl⟩
  | printUnlock last =>
    have hfilled : Filled k.values k.values.length k.vector := hstage
    have hreleased : Filled k.values k.values.length { k.vector with mutex := none } :=
      ⟨hfilled.counts, hfilled.size, hfilled.room, hfilled.holds⟩
    simp only [act, printVector] at h
    cases h
    cases last with
    | true => exact ⟨⟨hrec.entries, hrec.prints⟩, hreleased, rfl⟩
    | false => exact ⟨⟨hrec.entries, hrec.prints⟩, hreleased, rfl⟩
  | overrun => cases h
  | _ => cases hin

structure Untouched (k k' : Shared) : Prop where
  vector : k'.vector = k.vector
  accepted : k'.accepted = k.accepted
  shown : k'.shown = k.shown

theorem thread_function_untouched {event : Event} {pc p : Pc} {k k' : Shared}
    (h : threadFunction event pc k = some (p, k')) : p.inside = false ∧ Untouched k k' := by
  unfold threadFunction at h
  split at h
  · split at h <;> (cases h; exact ⟨rfl, rfl, rfl, rfl⟩)
  · split at h <;> (cases h; exact ⟨rfl, rfl, rfl, rfl⟩)
  · cases h
    exact ⟨rfl, rfl, rfl, rfl⟩
  · cases h
    exact ⟨rfl, rfl, rfl, rfl⟩
  · cases h

theorem main_loop_untouched {event : Event} {pc p : Pc} {k k' : Shared}
    (h : mainLoop event pc k = some (p, k')) : p.inside = false ∧ Untouched k k' := by
  unfold mainLoop at h
  split at h
  · split at h <;> (cases h; exact ⟨rfl, rfl, rfl, rfl⟩)
  · split at h <;> (cases h; exact ⟨rfl, rfl, rfl, rfl⟩)
  · split at h
    · cases h
      exact ⟨rfl, rfl, rfl, rfl⟩
    · cases h
  · cases h

theorem act_loop {t : Thread} {event : Event} {pc : Pc} {k : Shared} (hsignal : event ≠ .signal)
    (hpc : pc = .waiting ∨ pc = .serving ∨ pc = .joining) :
    act t event pc k = if t = .main then mainLoop event pc k else threadFunction event pc k := by
  rcases hpc with rfl | rfl | rfl <;> cases event <;> first | rfl | exact absurd rfl hsignal

/-- A step that is not one of the owner's either takes the mutex or touches
neither the vector nor what is recorded of it. -/
theorem act_cases {t : Thread} {event : Event} {pc p : Pc} {k k' : Shared}
    (h : act t event pc k = some (p, k')) :
    (event = .run ∧ pc.inside = true) ∨
    (k.vector.mutex = none ∧ pc.inside = false ∧ p.inside = true ∧
      (∀ values vector, Stage values vector p = Stage values vector pc) ∧
      k' = { k with vector := { k.vector with mutex := some t } }) ∨
    ((p = pc ∨ pc.inside = false ∧ p.inside = false) ∧ Untouched k k') := by
  by_cases hsignal : event = .signal
  · subst hsignal
    cases h
    exact .inr (.inr ⟨.inl rfl, rfl, rfl, rfl⟩)
  cases pc with
  | waiting | serving | joining =>
    rw [act_loop hsignal (by decide)] at h
    split at h
    · obtain ⟨hout, huntouched⟩ := main_loop_untouched h
      exact .inr (.inr ⟨.inr ⟨rfl, hout⟩, huntouched⟩)
    · obtain ⟨hout, huntouched⟩ := thread_function_untouched h
      exact .inr (.inr ⟨.inr ⟨rfl, hout⟩, huntouched⟩)
  | lock | printLock =>
    cases event with
    | run =>
      simp only [act, addToVector, printVector] at h
      split at h
      · rename_i hfree
        cases h
        exact .inr (.inl ⟨hfree, rfl, rfl, fun _ _ => rfl, rfl⟩)
      · cases h
    | signal => exact absurd rfl hsignal
    | _ => cases h
  | reply value result =>
    cases event with
    | run =>
      cases h
      exact .inr (.inr ⟨.inr ⟨rfl, rfl⟩, rfl, rfl, rfl⟩)
    | signal => exact absurd rfl hsignal
    | _ => cases h
  | ended =>
    cases event with
    | signal => exact absurd rfl hsignal
    | _ => cases h
  | _ =>
    cases event with
    | run => exact .inl ⟨rfl, rfl⟩
    | signal => exact absurd rfl hsignal
    | _ => cases h

structure VectorInv (s : Threads) : Prop where
  inside : ∀ t, (s.procs t).inside = true ↔ s.shared.vector.mutex = some t
  free : s.shared.vector.mutex = none →
    Filled s.shared.values s.shared.values.length s.shared.vector
  stage : ∀ t, s.shared.vector.mutex = some t →
    Stage s.shared.values s.shared.vector (s.procs t)
  recorded : Recorded s.shared

theorem vector_inv_started : VectorInv started := by
  constructor
  · intro t
    exact iff_of_false Bool.false_ne_true (Option.some_ne_none t).symm
  · intro _
    exact ⟨rfl, rfl, by decide, holds_init⟩
  · intro _ h
    cases h
  · constructor
    · intro _ _ h
      cases h
    · intro _ h
      cases h

theorem inside_update {s : Threads} (hi : VectorInv s) {t : Thread} {p : Pc}
    {mutex : Option Thread}
    (h : Mutex.Passes t (s.procs t).inside p.inside s.shared.vector.mutex mutex) :
    Mutex.Owned (fun u => (Function.update s.procs t p u).inside) mutex := by
  rw [Sharing.keys_update]
  exact Mutex.owned_step hi.inside h

theorem stage_outside {values : List ℤ} {vector : SharedVector} {pc : Pc}
    (h : pc.inside = false) :
    Stage values vector pc = Filled values values.length vector := by
  cases pc <;> first | rfl | cases h

theorem vector_inv_work {s : Threads} {t : Thread} {p : Pc} {k : Shared} (hi : VectorInv s)
    (hin : (s.procs t).inside = true) (h : act t .run (s.procs t) s.shared = some (p, k)) :
    VectorInv ⟨Function.update s.procs t p, k⟩ := by
  have hown := (hi.inside t).mp hin
  obtain ⟨hrec, hstage, hmutex⟩ := work_stage hin hi.recorded (hi.stage t hown) h
  cases hp : p.inside with
  | true =>
    rw [hp, if_pos rfl] at hmutex
    refine ⟨inside_update hi (.keeps (hp.trans hin.symm) hmutex), fun hnone => ?_,
      fun u hu => ?_, hrec⟩
    · rw [hmutex, hown] at hnone
      cases hnone
    · rw [hmutex, hown] at hu
      cases hu
      dsimp only
      rwa [Function.update_self]
  | false =>
    rw [hp, if_neg Bool.false_ne_true] at hmutex
    refine ⟨inside_update hi (.releases hin hp hmutex), fun _ => ?_, fun u hu => ?_, hrec⟩
    · rwa [stage_outside hp] at hstage
    · rw [hmutex] at hu
      cases hu

theorem step_vector_inv (a : Thread × Event) (s s' : Threads) (hi : VectorInv s)
    (h : Sharing.step act a s = some s') : VectorInv s' := by
  obtain ⟨t, event⟩ := a
  obtain ⟨p, k, hact, rfl⟩ := Sharing.step_next _ h
  dsimp only at hact ⊢
  rcases act_cases hact with ⟨rfl, hin⟩ | ⟨hfree, hout, hin, hstage, rfl⟩ |
    ⟨hpc, ⟨hvector, haccepted, hshown⟩⟩
  · exact vector_inv_work hi hin hact
  · have hfilled := hi.free hfree
    refine ⟨inside_update hi (.takes hfree hin rfl), fun hnone => ?_, fun u hu => ?_,
      ⟨hi.recorded.entries, hi.recorded.prints⟩⟩
    · cases hnone
    · obtain rfl : t = u := Option.some.inj hu
      dsimp only
      rw [Function.update_self, hstage, stage_outside hout]
      exact ⟨hfilled.counts, hfilled.size, hfilled.room, hfilled.holds⟩
  · have hvalues : k.values = s.shared.values := congrArg (List.map Entry.value) haccepted
    have hrec : Recorded k := by
      constructor
      · rw [haccepted]
        exact hi.recorded.entries
      · rw [hshown, hvalues]
        exact hi.recorded.prints
    have hsame : p.inside = (s.procs t).inside := by
      rcases hpc with rfl | ⟨hout, hout'⟩
      · rfl
      · rw [hout, hout']
    refine ⟨inside_update hi (.keeps hsame (congrArg SharedVector.mutex hvector)), ?_, ?_, hrec⟩
    · dsimp only
      rw [hvector, hvalues]
      exact hi.free
    · intro u hu
      dsimp only at hu ⊢
      rw [hvector] at hu ⊢
      rw [hvalues]
      have hstage := hi.stage u hu
      by_cases hut : u = t
      · subst hut
        rw [Function.update_self]
        rcases hpc with rfl | ⟨hout, hout'⟩
        · exact hstage
        · rw [stage_outside hout']
          rwa [stage_outside hout] at hstage
      · rwa [Function.update_of_ne hut]

theorem exec_vector_inv {as : List (Thread × Event)} {s : Threads}
    (h : Runs.exec (Sharing.step act) as started = some s) : VectorInv s :=
  Runs.reachable_invariant _ VectorInv vector_inv_started step_vector_inv ⟨as, h⟩

/-- No call of `add_to_vector` has stored its value and takes the index. -/
def TakesNoIndex (a : Thread × Event) (s : Threads) : Prop :=
  ¬ (a.2 = .run ∧ ∃ value slot, s.procs a.1 = .getIndex value slot)

theorem act_accepted {t : Thread} {event : Event} {pc p : Pc} {k k' : Shared}
    (h : act t event pc k = some (p, k')) :
    (event = .run ∧ ∃ value slot, pc = .getIndex value slot ∧
      ∃ e, k'.accepted = k.accepted++[e]) ∨
    (¬ (event = .run ∧ ∃ value slot, pc = .getIndex value slot) ∧ k'.accepted = k.accepted) := by
  by_cases htaken : event = .run ∧ ∃ value slot, pc = .getIndex value slot
  · obtain ⟨rfl, value, slot, rfl⟩ := htaken
    cases h
    exact .inl ⟨rfl, value, slot, rfl, _, rfl⟩
  · refine .inr ⟨htaken, ?_⟩
    rcases act_cases h with ⟨rfl, hin⟩ | ⟨-, -, -, -, rfl⟩ | ⟨-, huntouched⟩
    · cases pc with
      | getIndex value slot => exact absurd ⟨rfl, value, slot, rfl⟩ htaken
      | store value =>
        simp only [act, addToVector] at h
        split at h <;> (cases h; rfl)
      | test value | increment value slot | unlock value result | printAll | printUnlock =>
        cases h
        rfl
      | overrun => cases h
      | _ => cases hin
    · rfl
    · exact huntouched.accepted

/-- The values are accepted exactly by the steps that take an index. -/
theorem accepted_nil_iff {as : List (Thread × Event)} {s : Threads}
    (h : Runs.exec (Sharing.step act) as started = some s) :
    Runs.Along (Sharing.step act) TakesNoIndex as started ↔ s.shared.accepted = [] := by
  rw [Runs.along_iff_constant (Sharing.step act) (fun _ => True)
    (fun s => (s.shared.accepted.length : ℤ)) (fun _ _ _ _ _ => trivial) ?_ ?_ trivial h]
  · show (s.shared.accepted.length : ℤ) = 0 ↔ _
    rw [Int.natCast_eq_zero, List.length_eq_zero_iff]
  · intro a s s' _ hok hstep
    obtain ⟨p, k, hact, rfl⟩ := Sharing.step_next _ hstep
    rcases act_accepted hact with ⟨hrun, value, slot, hpc, -⟩ | ⟨-, hsame⟩
    · exact absurd ⟨hrun, value, slot, hpc⟩ hok
    · exact congrArg (fun l : List Entry => (l.length : ℤ)) hsame
  · intro a s s' _ hnot hstep
    obtain ⟨p, k, hact, rfl⟩ := Sharing.step_next _ hstep
    rcases act_accepted hact with ⟨-, -, -, -, e, happend⟩ | ⟨hok, -⟩
    · dsimp only
      rw [happend, List.length_append, List.length_singleton]
      omega
    · exact absurd hok hnot

/-- Each accepted value stands where its client has been told, in the first
element that was free, and the prints show exactly the accepted values. -/
structure VectorOk (s : Threads) : Prop where
  bounds : ∀ t, s.procs t ≠ .overrun
  stored : ∀ (j : ℕ) (e : Entry), s.shared.accepted[j]? = some e →
    e.slot = j ∧ e.index = j ∧ s.shared.vector.data j = e.value
  printed : ∀ p ∈ s.shared.shown, p.1 = p.2

theorem vector_ok_iff (as : List (Thread × Event)) (s : Threads)
    (h : Runs.exec (Sharing.step act) as started = some s) :
    VectorOk s ↔ Runs.Along (Sharing.step act) TakesNoIndex as started := by
  have hi := exec_vector_inv h
  rw [accepted_nil_iff h]
  constructor
  · intro hok
    cases haccepted : s.shared.accepted with
    | nil => rfl
    | cons e es =>
      have hfirst : s.shared.accepted[0]? = some e := by rw [haccepted]; rfl
      have hslot := (hi.recorded.entries 0 e hfirst).1
      rw [(hok.stored 0 e hfirst).1] at hslot
      cases hslot
  · intro hnil
    have hvalues : s.shared.values = [] := by rw [Shared.values, hnil]; rfl
    constructor
    · intro t ht
      have hown := (hi.inside t).mp (by rw [ht]; rfl)
      have hstage := hi.stage t hown
      rw [ht] at hstage
      exact hstage.1 hvalues
    · intro j e hj
      rw [hnil] at hj
      cases hj
    · intro p hp
      obtain ⟨hshown, hvals⟩ := hi.recorded.prints p hp
      rw [hvalues, List.prefix_nil] at hvals
      rw [hshown, hvals]
      rfl

def oneClient : List (Thread × Event) :=
  [(.port8001, .run), (.port8001, .client (text "7"))]++List.replicate 7 (.port8001, .run)++
    [(.main, .run), (.main, .tick), (.main, .run), (.main, .run)]

theorem one_client_run :
    (Runs.exec (Sharing.step act) oneClient started).isSome = true := by
  decide +kernel

def oneClientEnd : Threads := (Runs.exec (Sharing.step act) oneClient started).get one_client_run

theorem one_client_fails : ¬ VectorOk oneClientEnd := by
  intro hok
  have hrun : Runs.exec (Sharing.step act) oneClient started = some oneClientEnd :=
    (Option.some_get one_client_run).symm
  have hnil := (accepted_nil_iff hrun).mp ((vector_ok_iff oneClient oneClientEnd hrun).mp hok)
  have hone : oneClientEnd.shared.accepted.length = 1 := by decide +kernel
  rw [hnil] at hone
  cases hone

/-- The seven is stored in the element with index one, its client is told index
zero, and the print shows the zero there. -/
theorem first_value_misplaced :
    ¬ ∀ s : Threads, Reachable s → VectorOk s := by
  intro h
  have hok := h oneClientEnd (Runs.reachable_get one_client_run)
  have hentry : oneClientEnd.shared.accepted[0]? = some ⟨7, 1, 0⟩ := by decide +kernel
  have hslot := (hok.stored 0 _ hentry).1
  cases hslot

end ProgSistema.VectorServer
