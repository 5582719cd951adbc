import ProgSistema.Lib.FileFaults
import ProgSistema.Lib.Visit

/-!
# Visits in which calls fail

A visit goes on after every failed call but that of its start directory. It
sees the tree as it is when no call fails for anything that is there.
-/

set_option autoImplicit false

namespace ProgSistema.FileTree
open CRuntime DirTree

inductive Untroubled (f : Faults) (fs : FileSystem) : Bytes → List (Name × DirTree) → Prop where
  | intro {p : Bytes} {es : List (Name × DirTree)} : f.opendir p = false →
      es.drop (f.seen fs p) = [] →
      (∀ e ∈ es, e.2.status ≠ none → f.stat (p++slash::e.1.bytes) = false) →
      (∀ e ∈ es, e.2.isDirectory = true → Untroubled f fs (p++slash::e.1.bytes) e.2.entries) →
      Untroubled f fs p es

section
variable {f : Faults} {fs : FileSystem}

theorem faulty_opendir (p : Bytes) : (f.apply fs).opendir p =
    if f.opendir p then none else (fs.opendir p).map (f.read p) := rfl

theorem faulty_stat (p : Bytes) :
    (f.apply fs).stat p = if f.stat p then none else fs.stat p := rfl

theorem read_all {p : Bytes} {stream : List Bytes} {es : List (Name × DirTree)}
    (hopen : fs.opendir p = some stream)
    (hstream : stream.filter (fun d => d ≠ dot ∧ d ≠ dotdot) = es.map fun e => e.1.bytes)
    (hread : es.drop (f.seen fs p) = []) :
    (f.read p stream).filter (fun d => d ≠ dot ∧ d ≠ dotdot) = es.map fun e => e.1.bytes := by
  have hsplit := List.take_append_drop (f.seen fs p) es
  rw [hread, List.append_nil] at hsplit
  rw [seen_entries f hopen hstream, hsplit]

theorem entry_ends (p : Bytes) (n : Name) : ¬ EndsInSlash (p++slash::n.bytes) := by
  intro h
  rw [EndsInSlash, List.append_cons, List.getLast?_append_of_ne_nil _ n.nonempty] at h
  exact n.noSlash (List.mem_of_getLast? h)

theorem names_untroubled {p : Bytes} {t : DirTree} (hslash : ¬ EndsInSlash p)
    (h : Names fs.opendir fs.stat p t) (hstat : t.status ≠ none → f.stat p = false)
    (ht : t.isDirectory = true → Untroubled f fs p t.entries) :
    Names (f.apply fs).opendir (f.apply fs).stat p t := by
  induction t using DirTree.induction generalizing p with
  | leaf st hst =>
    have hstatus : fs.stat p = st := status_of_names h
    refine .leaf ?_
    rw [faulty_stat, hstatus]
    cases st with
    | none => exact ite_self none
    | some s => rw [hstat (by simp [DirTree.status]), if_neg Bool.false_ne_true]
  | dir st hst es ih =>
    cases h with
    | dir stream hne hstatus hopen hstream hentries _ =>
      obtain ⟨hopened, hread, hstats, hbelow⟩ := ht rfl
      refine .dir (f.read p stream) hne ?_ ?_ (read_all hopen hstream hread) (fun e he => ?_)
        (fun hs => absurd hs hslash)
      · rw [faulty_stat, hstat (by simp [DirTree.status]), if_neg Bool.false_ne_true, hstatus]
      · rw [faulty_opendir, hopened, if_neg Bool.false_ne_true, hopen, Option.map_some]
      · exact ih e he (entry_ends p e.1) (hentries e he) (hstats e he) (hbelow e he)

theorem shows_untroubled {p : Bytes} {es : List (Name × DirTree)}
    (h : Shows fs.opendir fs.stat p es) (ht : Untroubled f fs p es) :
    Shows (f.apply fs).opendir (f.apply fs).stat p es := by
  obtain ⟨stream, hopen, hstream⟩ := h.stream
  obtain ⟨hopened, hread, hstats, hbelow⟩ := ht
  refine ⟨⟨f.read p stream, ?_, read_all hopen hstream hread⟩, fun e he => ?_⟩
  · rw [faulty_opendir, hopened, if_neg Bool.false_ne_true, hopen, Option.map_some]
  · exact names_untroubled (entry_ends p e.1) (h.entries e he) (hstats e he) (hbelow e he)

theorem paths_fit_entry {size : ℕ} {p : Bytes} {es : List (Name × DirTree)}
    (h : PathsFit size p es) {e : Name × DirTree} (he : e ∈ es) :
    (p++slash::e.1.bytes).length < size ∧ PathsFit size (p++slash::e.1.bytes) e.2.entries := by
  induction es with
  | nil => cases he
  | cons d es ih =>
    obtain ⟨hlen, hsub, hrest⟩ := paths_fit_cons h
    rcases List.mem_cons.mp he with rfl | he
    · exact ⟨hlen, hsub⟩
    · exact ih hrest he

section
variable {σ : Type} (v : Visitor σ) {Inv : σ → Prop}

structure Visitor.Keeps (v : Visitor σ) (Inv : σ → Prop) : Prop where
  openFailed : ∀ s, Inv s → Inv (v.openFailed s)
  statusFailed : ∀ s, Inv s → Inv (v.statusFailed s)
  visit : ∀ p st s, Inv s → Inv (v.visit p st s)

variable {v} (hv : v.Keeps Inv)
include hv

theorem faulty_entries {descend : Bytes → σ → Except Fault (Bool × σ)} {p : Bytes}
    {es : List (Name × DirTree)} {s : σ} (hstat : ∀ q, v.status q ≠ none → v.status q = fs.stat q)
    (hn : ∀ e ∈ es, Names fs.opendir fs.stat (p++slash::e.1.bytes) e.2)
    (hfit : ∀ e ∈ es, (p++slash::e.1.bytes).length < v.bufferSize)
    (hdescend : ∀ e ∈ es, e.2.isDirectory = true → ∀ s, Inv s → ∃ opened s',
      descend (p++slash::e.1.bytes) s = .ok (opened, s') ∧ Inv s') (hs : Inv s) :
    ∃ s', v.entries descend p (es.map fun e => e.1.bytes) s = .ok s' ∧ Inv s' := by
  induction es generalizing s with
  | nil => exact ⟨s, rfl, hs⟩
  | cons e es ih =>
    have hrest := fun {s} => ih (s := s) (fun d hd => hn d (by simp [hd]))
      (fun d hd => hfit d (by simp [hd])) (fun d hd => hdescend d (by simp [hd]))
    rw [List.map_cons, Visitor.entries, if_neg (by simp [e.1.notDot, e.1.notDotdot]),
      snprintf_fits _ _ (hfit e (by simp))]
    dsimp only
    cases hst : v.status (p++slash::e.1.bytes) with
    | none => exact hrest (hv.statusFailed s hs)
    | some st =>
      have hvisit := hv.visit (p++slash::e.1.bytes) st s hs
      dsimp only
      by_cases hdir : st.type = .directory
      · have htree : e.2.status = some st := by
          rw [← status_of_names (hn e (by simp)), ← hstat _ (by simp [hst]), hst]
        have hd : e.2.isDirectory = true := by
          cases ht : e.2 with
          | leaf st' hleaf =>
            rw [ht] at htree
            exact absurd hdir (hleaf st htree)
          | dir => rfl
        obtain ⟨opened, s', hdesc, hs'⟩ := hdescend e (by simp) hd _ hvisit
        obtain ⟨s'', hread, hs''⟩ := hrest hs'
        refine ⟨s'', ?_, hs''⟩
        rw [if_pos hdir, hdesc]
        exact hread
      · obtain ⟨s', hread, hs'⟩ := hrest hvisit
        refine ⟨s', ?_, hs'⟩
        rw [if_neg hdir]
        exact hread

/-- A visit returns, whatever calls fail, and reports no failure but that of its
start directory. -/
theorem faulty_visit {fuel : ℕ} {p : Bytes} {es : List (Name × DirTree)} {s : σ}
    (hopendir : v.opendir = (f.apply fs).opendir) (hstatus : v.status = (f.apply fs).stat)
    (hfuel : heights es < fuel) (h : Shows fs.opendir fs.stat p es)
    (hfit : PathsFit v.bufferSize p es) (hs : Inv s) :
    ∃ s', v.directory fuel p s = .ok (!f.opendir p, s') ∧ Inv s' := by
  induction fuel generalizing p es s with
  | zero => omega
  | succ fuel ih =>
    obtain ⟨stream, hopen, hstream⟩ := h.stream
    rw [Visitor.directory, hopendir, faulty_opendir, hopen]
    cases hfails : f.opendir p with
    | true => exact ⟨_, rfl, hv.openFailed s hs⟩
    | false =>
      have hmem : ∀ {e}, e ∈ es.take (f.seen fs p) → e ∈ es := fun he => List.mem_of_mem_take he
      have hstat : ∀ q, v.status q ≠ none → v.status q = fs.stat q := by
        intro q hq
        rw [hstatus, faulty_stat] at hq ⊢
        split at hq
        · exact absurd rfl hq
        · rename_i hok
          rw [if_neg hok]
      have hread : ∃ s', v.entries (v.directory fuel) p
          ((es.take (f.seen fs p)).map fun e => e.1.bytes) s = .ok s' ∧ Inv s' := by
        refine faulty_entries hv hstat (fun e he => h.entries e (hmem he))
          (fun e he => (paths_fit_entry hfit (hmem he)).1) (fun e he hd s hs => ?_) hs
        obtain ⟨n, t⟩ := e
        cases t with
        | leaf => cases hd
        | dir st hst sub =>
          have hheight : heights sub+1 ≤ heights es := height_le_heights (hmem he)
          obtain ⟨s', hdir, hs'⟩ := ih (by omega) (shows_of_names (h.entries _ (hmem he)))
            (paths_fit_entry hfit (hmem he)).2 hs
          exact ⟨_, s', hdir, hs'⟩
      obtain ⟨s', hread, hs'⟩ := hread
      refine ⟨s', ?_, hs'⟩
      rw [if_neg Bool.false_ne_true, Option.map_some]
      dsimp only
      rw [entries_filter, seen_entries f hopen hstream, hread]
      rfl

end

end

end ProgSistema.FileTree
