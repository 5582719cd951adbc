import ProgSistema.TripletScanner.Loop

/-!
# The positions that are reported

However the threads alternate, the mutex leaves the loop to one of them at a
time, and the scan goes through the file byte by byte. It reports where three
equal bytes end.
-/

set_option autoImplicit false

namespace ProgSistema.TripletScanner
open CRuntime OnePass

/-- What the exercise asks for, at any time: the positions found in the bytes
that the program is done with are printed and these bytes overwritten; a scan
that has ended is done with the whole file. -/
structure Exact {ι : Type*} (content : Bytes) (k : Scan ι) : Prop where
  reports : k.reports = expected content k.scanned
  overwrites : k.file.take k.scanned = List.replicate k.scanned toWrite
  ended : k.exit1 = true ∨ k.aborted = true → k.scanned = content.length

/-- Where a thread steps back, it has not read the byte at the position `2^32`;
where it reports, three equal bytes that have been completed are alphanumeric
and their position fits into an `int`. -/
def HarmlessAt {ι : Type*} (content : Bytes) (k : Scan ι) : Pc → Prop
  | .seek => k.offset < 2^32
  | .report _ => Equal3 content k.offset → Triplet content k.offset ∧ k.offset < 2^31
  | _ => True

def Harmless {ι : Type*} (content : Bytes) (a : ι × Unit) (s : Scanner ι) : Prop :=
  HarmlessAt content s.shared (s.procs a.1)

instance {ι : Type*} (content : Bytes) (k : Scan ι) : ∀ pc, Decidable (HarmlessAt content k pc)
  | .seek => inferInstanceAs (Decidable (_ < _))
  | .report _ => inferInstanceAs (Decidable (_ → _ ∧ _))
  | .testExit | .lock | .read | .setExit | .write _ | .count _ | .setPrevius _ | .unlock
  | .endedInside | .ended => .isTrue trivial

instance {ι : Type*} (content : Bytes) (a : ι × Unit) (s : Scanner ι) :
    Decidable (Harmless content a s) :=
  inferInstanceAs (Decidable (HarmlessAt content s.shared (s.procs a.1)))

structure Good {ι : Type*} (content : Bytes) (s : Scanner ι) : Prop where
  owned : Mutex.Owned (fun i => (s.procs i).inside) s.shared.mutex
  idle : s.shared.mutex = none → At content s.shared .testExit
  busy : ∀ i, (s.procs i).inside = true → At content s.shared (s.procs i)

section
variable {ι : Type*} {i : ι} {content : Bytes} {pc p : Pc} {k k' : Scan ι}

theorem at_exact (h : At content k pc) : Exact content k := by
  refine ⟨h.reports, ?_, ?_⟩
  · rw [h.file]
    exact overwritten_take _ _ (Nat.le_add_right _ _)
  · rintro (hexit | habort)
    · exact h.finished hexit
    · rw [h.running] at habort
      cases habort

theorem broken_not_exact (h : Broken content k) : ¬ Exact content k := by
  intro hexact
  rcases h with ⟨r, hr, hnone⟩ | ⟨habort, hleft⟩
  · rw [hexact.reports] at hr
    obtain ⟨p, hp, rfl⟩ := List.mem_map.mp hr
    exact hnone p (position_found hp) rfl
  · exact hleft (hexact.ended (.inr habort))

theorem good_exact {s : Scanner ι} (h : Good content s) : Exact content s.shared := by
  cases hmutex : s.shared.mutex with
  | none => exact at_exact (h.idle hmutex)
  | some i => exact at_exact (h.busy i ((h.owned i).mpr hmutex))

/-- The thread that holds the mutex goes on. -/
theorem work_at (h : At content k pc) (hok : HarmlessAt content k pc) (hin : p.inside = true)
    (hpc : pc.inside = true) (hstep : threadFunc i k pc = some (p, k')) : At content k' p := by
  cases pc with
  | read => exact read_at h hstep
  | setExit => exact set_exit_at h hstep
  | seek => exact seek_at h hok hstep
  | write => exact write_at h hstep
  | count => exact count_at h hstep
  | setPrevius => exact set_previus_at h hstep
  | report => exact report_at h hok hstep
  | unlock =>
    cases hstep
    cases hin
  | endedInside => cases hstep
  | testExit | lock | ended => cases hpc

theorem harm_inside (h : ¬ HarmlessAt content k pc) : pc.inside = true := by
  cases pc <;> first | rfl | exact absurd trivial h

theorem work_breaks (h : At content k pc) (hbad : ¬ HarmlessAt content k pc)
    (hstep : threadFunc i k pc = some (p, k')) : Broken content k' := by
  cases pc with
  | seek => exact seek_breaks h hbad hstep
  | report => exact report_breaks h hbad hstep
  | _ => exact absurd trivial hbad

variable {s : Scanner ι} (hs : Good content s) (hmove : Move i (s.procs i) p s.shared k')
include hs hmove

/-- Where the mutex is free after a step, the scan is between two turns. -/
theorem idle_kept (hfree : k'.mutex = none) : At content k' .testExit := by
  cases hmove with
  | outside _ _ hk =>
    rw [hk] at hfree ⊢
    exact hs.idle hfree
  | enters _ _ _ hk =>
    rw [hk] at hfree
    cases hfree
  | works hpc _ hmutex =>
    have hheld := (hs.owned i).mp hpc
    rw [← hmutex, hfree] at hheld
    cases hheld
  | leaves hpc _ hk =>
    have hat := hs.busy i (by rw [hpc]; rfl)
    rw [hpc] at hat
    rw [hk]
    exact unlock_at none hat

theorem self_kept (hok : HarmlessAt content s.shared (s.procs i))
    (hstep : threadFunc i s.shared (s.procs i) = some (p, k')) (hin : p.inside = true) :
    At content k' p := by
  cases hmove with
  | outside _ hp _ =>
    rw [hp] at hin
    cases hin
  | enters hfree _ hp hk =>
    rw [hp, hk]
    exact lock_at _ (hs.idle hfree)
  | works hpc _ _ => exact work_at (hs.busy i hpc) hok hin hpc hstep
  | leaves _ hp _ =>
    rw [hp] at hin
    cases hin

/-- A thread that is inside while another one acts finds the scan as it was. -/
theorem other_kept {j : ι} (hj : j ≠ i) (hin : (s.procs j).inside = true) :
    At content k' (s.procs j) := by
  cases hmove with
  | outside _ _ hk =>
    rw [hk]
    exact hs.busy j hin
  | enters hfree _ _ _ =>
    rw [Mutex.owned_none hs.owned hfree j] at hin
    cases hin
  | works hpc _ _ =>
    rw [Mutex.owned_outside hs.owned hpc hj] at hin
    cases hin
  | leaves hpc _ _ =>
    rw [Mutex.owned_outside hs.owned (by rw [hpc]; rfl) hj] at hin
    cases hin

end

section
variable {ι : Type*} [DecidableEq ι]

theorem step_good (content : Bytes) (a : ι × Unit) (s t : Scanner ι) (hs : Good content s)
    (hok : Harmless content a s) (h : Sharing.step act a s = some t) : Good content t := by
  obtain ⟨i, a⟩ := a
  obtain ⟨p, k', hact, rfl⟩ := Sharing.step_next act h
  obtain ⟨-, hstep⟩ := act_some hact
  have hmove := thread_move hstep
  have howned : Mutex.Owned (fun j => (Function.update s.procs i p j).inside) k'.mutex := by
    rw [Sharing.keys_update Pc.inside]
    exact Mutex.owned_step hs.owned (move_passes hmove)
  refine ⟨howned, idle_kept hs hmove,
    (Function.forall_update_iff s.procs fun _ q => q.inside = true → At content k' q).mpr ?_⟩
  exact ⟨self_kept hs hmove hok hstep, fun j hj => other_kept hs hmove hj⟩

theorem step_breaks (content : Bytes) (a : ι × Unit) (s t : Scanner ι) (hs : Good content s)
    (hbad : ¬ Harmless content a s) (h : Sharing.step act a s = some t) :
    Broken content t.shared := by
  obtain ⟨p, k', hact, rfl⟩ := Sharing.step_next act h
  exact work_breaks (hs.busy a.1 (harm_inside hbad)) hbad (act_some hact).2

theorem step_broken (content : Bytes) (a : ι × Unit) (s t : Scanner ι)
    (hs : Broken content s.shared) (h : Sharing.step act a s = some t) :
    Broken content t.shared := by
  obtain ⟨p, k', hact, rfl⟩ := Sharing.step_next act h
  obtain ⟨hrunning, hstep⟩ := act_some hact
  rcases hs with ⟨r, hr, hnone⟩ | ⟨habort, -⟩
  · exact .inl ⟨r, (thread_reports hstep).subset hr, hnone⟩
  · rw [hrunning] at habort
    cases habort

end

theorem start_good {ι : Type*} {content : Bytes} {s : Scanner ι} (h : start content = some s) :
    Good content s := by
  cases content with
  | nil => cases h
  | cons b rest =>
    cases h
    refine ⟨Mutex.owned_free fun _ => rfl, fun _ => ?_, fun _ hin => by cases hin⟩
    have hreports : expected (b::rest) 1 = [] := by
      rw [expected_succ, if_neg fun htriplet => absurd htriplet.1.1 (by decide)]
      rfl
    exact {
      started := le_rfl
      below := show 1 < 2^32 by decide
      offset := rfl
      file := (overwritten_one _ _ _).symm
      counter := rfl
      previus := rfl
      current := Bool.noConfusion
      pos := fun _ hx => by cases hx
      reports := hreports.symm
      small := fun htwo => absurd htwo (show ¬ 2 ≤ 0 by decide)
      eof := Pc.noConfusion
      finished := Bool.noConfusion
      running := rfl }

/-- For every file and however the threads alternate, the positions printed and
the bytes overwritten are at any time those asked for exactly if each step so
far was harmless. -/
theorem positions_exact_iff {ι : Type*} [DecidableEq ι] (content : Bytes) (as : List (ι × Unit))
    {s t : Scanner ι} (hstart : start content = some s)
    (h : Runs.exec (Sharing.step act) as s = some t) :
    Exact content t.shared ↔ Runs.Along (Sharing.step act) (Harmless content) as s := by
  rcases Runs.good_or_broken (Sharing.step act) (Good content) (fun s => Broken content s.shared)
    (step_good content) (step_breaks content) (step_broken content) (start_good hstart) h with
    ⟨halong, hgood⟩ | ⟨hnot, hbroken⟩
  · exact iff_of_true (good_exact hgood) halong
  · exact iff_of_false (broken_not_exact hbroken) hnot

def turn (i : Fin 2) : List (Fin 2 × Unit) := List.replicate 9 (i, ())

def scanning (b : UInt8) (rest : Bytes) : Scanner (Fin 2) := (start (b::rest)).get rfl

def alternating : List (Fin 2 × Unit) := turn 0++turn 1++turn 0++List.replicate 4 (1, ())

theorem alternating_run :
    (Runs.exec (Sharing.step act) alternating (scanning 97 [97, 97, 45])).isSome = true := by
  decide +kernel

theorem letters_found : Exact [97, 97, 97, 45]
    ((Runs.exec (Sharing.step act) alternating (scanning 97 [97, 97, 45])).get
      alternating_run).shared :=
  (positions_exact_iff _ alternating rfl (Option.some_get alternating_run).symm).mpr
    (by decide +kernel)

def fullStops : Bytes := [46, 46, 46]

theorem full_stops_run :
    (Runs.exec (Sharing.step act) (turn 0++turn 1) (scanning 46 [46, 46])).isSome = true := by
  decide +kernel

theorem no_triplet_of_full_stops (p : ℕ) : ¬ Triplet fullStops p := by
  rintro ⟨⟨hthree, hlen, -⟩, halnum⟩
  obtain rfl : p = 3 := le_antisymm hlen hthree
  exact absurd halnum (by decide)

theorem full_stops_reported : ¬ ∀ (content : Bytes) (as : List (Fin 2 × Unit))
    (s t : Scanner (Fin 2)), start content = some s →
    Runs.exec (Sharing.step act) as s = some t → Exact content t.shared := by
  intro h
  refine broken_not_exact ?_ (h fullStops _ _ _ rfl (Option.some_get full_stops_run).symm)
  exact .inl ⟨3, by decide +kernel, fun p hp => absurd hp (no_triplet_of_full_stops p)⟩

end ProgSistema.TripletScanner
