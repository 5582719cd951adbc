import ProgSistema.Lib.Visit

/-!
# What a visit meets

The entries that a visit meets do not depend on what it does with them. They
are a list of paths and statuses, and where failed calls change nothing a visit
is a fold over it.
-/

set_option autoImplicit false

namespace ProgSistema.FileTree
open CRuntime DirTree

/-- The calls show the tree at the path, as far as the paths below it are shorter
than a bound. -/
inductive NamesWithin (opendir : Bytes → Option (List Bytes)) (status : Bytes → Option Stat)
    (size : ℕ) : Bytes → DirTree → Prop where
  | leaf {p : Bytes} {st : Option Stat} {h} : status p = st →
    NamesWithin opendir status size p (.leaf st h)
  | dir {p : Bytes} {st : Stat} {h} {es : List (Name × DirTree)} (stream : List Bytes) :
    status p = some st → opendir p = some stream →
    stream.filter (fun d => d ≠ dot ∧ d ≠ dotdot) = es.map (fun e => e.1.bytes) →
    (∀ e ∈ es, (p++slash::e.1.bytes).length < size →
      NamesWithin opendir status size (p++slash::e.1.bytes) e.2) →
    NamesWithin opendir status size p (.dir st h es)

section
variable {opendir : Bytes → Option (List Bytes)} {status : Bytes → Option Stat} {size : ℕ}
  {p : Bytes} {t : DirTree}

theorem names_within (h : Names opendir status p t) : NamesWithin opendir status size p t := by
  induction h with
  | leaf h => exact .leaf h
  | dir stream _ hstatus hopen hstream _ _ ih _ =>
    exact .dir stream hstatus hopen hstream fun e he _ => ih e he

theorem within_status (h : NamesWithin opendir status size p t) : status p = t.status := by
  cases h with
  | leaf h => exact h
  | dir _ h => exact h

theorem within_stream (h : NamesWithin opendir status size p t) (hdir : t.isDirectory = true) :
    ∃ stream, opendir p = some stream ∧
      stream.filter (fun d => d ≠ dot ∧ d ≠ dotdot) = t.entries.map fun e => e.1.bytes := by
  cases h with
  | leaf => cases hdir
  | dir stream _ hopen hstream => exact ⟨stream, hopen, hstream⟩

theorem within_entry (h : NamesWithin opendir status size p t) {e : Name × DirTree}
    (he : e ∈ t.entries) (hfits : (p++slash::e.1.bytes).length < size) :
    NamesWithin opendir status size (p++slash::e.1.bytes) e.2 := by
  cases h with
  | leaf => cases he
  | dir _ _ _ _ hentries => exact hentries e he hfits

end

section
variable {σ : Type} (v : Visitor σ)

def Visitor.met (p name : Bytes) : Option (Bytes × Stat) :=
  if name = dot ∨ name = dotdot then none
  else
    let fullPath := snprintf v.bufferSize (p++slash::name)
    (v.status fullPath).map fun st => (fullPath, st)

def Visitor.traceEntries (descend : Bytes → Except Fault (List (Bytes × Stat))) (p : Bytes) :
    List Bytes → Except Fault (List (Bytes × Stat))
  | [] => .ok []
  | name::stream =>
    match v.met p name with
    | none => Visitor.traceEntries descend p stream
    | some (q, st) => do
      let below ← (if st.type = .directory then descend q else .ok [])
      let rest ← Visitor.traceEntries descend p stream
      return (q, st)::(below++rest)

def Visitor.trace : ℕ → Bytes → Except Fault (List (Bytes × Stat))
  | 0, _ => .error .outOfFuel
  | fuel+1, p =>
    match v.opendir p with
    | none => .ok []
    | some stream => v.traceEntries (Visitor.trace fuel) p stream

def Visitor.Calls (p q : Bytes) : Prop :=
  ∃ stream name st, v.opendir p = some stream ∧ name ∈ stream ∧ v.met p name = some (q, st) ∧
    st.type = .directory

theorem trace_entries_filter (descend : Bytes → Except Fault (List (Bytes × Stat))) (p : Bytes)
    (stream : List Bytes) : v.traceEntries descend p stream =
      v.traceEntries descend p (stream.filter fun d => d ≠ dot ∧ d ≠ dotdot) := by
  induction stream with
  | nil => rfl
  | cons name stream ih =>
    rw [List.filter_cons]
    by_cases hdot : name = dot ∨ name = dotdot
    · have hskip : ¬ (name ≠ dot ∧ name ≠ dotdot) := by tauto
      rw [Visitor.traceEntries, Visitor.met, if_pos hdot, if_neg (by simpa using hskip)]
      exact ih
    · have hkeep : name ≠ dot ∧ name ≠ dotdot := by tauto
      rw [if_pos (by simpa using hkeep), Visitor.traceEntries, Visitor.traceEntries, ih]

theorem entries_trace (hstatus : ∀ s, v.statusFailed s = s)
    {descend : Bytes → σ → Except Fault (Bool × σ)}
    {descend' : Bytes → Except Fault (List (Bytes × Stat))} (p : Bytes)
    (hdescend : ∀ q s, (descend q s).map Prod.snd =
      (descend' q).map fun log => log.foldl (fun s e => v.visit e.1 e.2 s) s)
    (stream : List Bytes) (s : σ) : v.entries descend p stream s =
      (v.traceEntries descend' p stream).map
        fun log => log.foldl (fun s e => v.visit e.1 e.2 s) s := by
  induction stream generalizing s with
  | nil => rfl
  | cons name stream ih =>
    rw [Visitor.entries, Visitor.traceEntries, Visitor.met]
    by_cases hdot : name = dot ∨ name = dotdot
    · rw [if_pos hdot, if_pos hdot]
      exact ih s
    · rw [if_neg hdot, if_neg hdot]
      dsimp only
      cases hst : v.status (snprintf v.bufferSize (p++slash::name)) with
      | none =>
        dsimp only [Option.map_none]
        rw [hstatus]
        exact ih s
      | some st =>
        dsimp only [Option.map_some]
        have hbelow : (if st.type = .directory then
            (descend (snprintf v.bufferSize (p++slash::name))
              (v.visit (snprintf v.bufferSize (p++slash::name)) st s)).map Prod.snd
            else .ok (v.visit (snprintf v.bufferSize (p++slash::name)) st s)) =
            (if st.type = .directory then descend' (snprintf v.bufferSize (p++slash::name))
              else .ok []).map fun log => log.foldl (fun s e => v.visit e.1 e.2 s)
                (v.visit (snprintf v.bufferSize (p++slash::name)) st s) := by
          split
          · exact hdescend _ _
          · rfl
        rw [hbelow]
        cases hlog : (if st.type = .directory then
            descend' (snprintf v.bufferSize (p++slash::name)) else .ok []) with
        | error => rfl
        | ok below =>
          show v.entries descend p stream _ = _
          rw [ih]
          cases v.traceEntries descend' p stream with
          | error => rfl
          | ok rest =>
            exact congrArg Except.ok List.foldl_append.symm

/-- A visit is a fold over what it meets. -/
theorem directory_trace (hopen : ∀ s, v.openFailed s = s) (hstatus : ∀ s, v.statusFailed s = s)
    (fuel : ℕ) (p : Bytes) (s : σ) : v.directory fuel p s =
      (v.trace fuel p).map
        fun log => ((v.opendir p).isSome, log.foldl (fun s e => v.visit e.1 e.2 s) s) := by
  induction fuel generalizing p s with
  | zero => rfl
  | succ fuel ih =>
    rw [Visitor.directory, Visitor.trace]
    cases v.opendir p with
    | none =>
      show Except.ok (false, v.openFailed s) = Except.ok (false, s)
      rw [hopen]
    | some stream =>
      have hdescend : ∀ q s, (v.directory fuel q s).map Prod.snd =
          (v.trace fuel q).map fun log => log.foldl (fun s e => v.visit e.1 e.2 s) s := by
        intro q s
        rw [ih]
        cases v.trace fuel q <;> rfl
      dsimp only
      rw [entries_trace v hstatus p hdescend]
      cases v.traceEntries (v.trace fuel) p stream <;> rfl

variable {v}

/-- The steps of a trace over a name that is not passed over. -/
theorem trace_entries_cons {descend : Bytes → Except Fault (List (Bytes × Stat))} {p name : Bytes}
    {stream : List Bytes} {q : Bytes} {st : Stat} {log : List (Bytes × Stat)}
    (hmet : v.met p name = some (q, st))
    (h : v.traceEntries descend p (name::stream) = .ok log) : ∃ below rest,
      (if st.type = .directory then descend q else .ok []) = .ok below ∧
        v.traceEntries descend p stream = .ok rest ∧ log = (q, st)::(below++rest) := by
  rw [Visitor.traceEntries, hmet] at h
  obtain ⟨below, hbelow, h⟩ := bind_ok_cases h
  obtain ⟨rest, hrest, h⟩ := bind_ok_cases h
  cases h
  exact ⟨below, rest, hbelow, hrest, rfl⟩

theorem met_sublist {descend : Bytes → Except Fault (List (Bytes × Stat))} {p : Bytes}
    {stream : List Bytes} {log : List (Bytes × Stat)}
    (h : v.traceEntries descend p stream = .ok log) : (stream.filterMap (v.met p)).Sublist log := by
  induction stream generalizing log with
  | nil => exact List.nil_sublist _
  | cons name stream ih =>
    cases hmet : v.met p name with
    | none =>
      rw [List.filterMap_cons_none hmet]
      rw [Visitor.traceEntries, hmet] at h
      exact ih h
    | some m =>
      obtain ⟨below, rest, -, hrest, rfl⟩ := trace_entries_cons hmet h
      rw [List.filterMap_cons_some hmet]
      exact ((ih hrest).trans (List.sublist_append_right _ _)).cons_cons _

theorem called_sublist {descend : Bytes → Except Fault (List (Bytes × Stat))} {p q : Bytes}
    {stream : List Bytes} {name : Bytes} {st : Stat} {log : List (Bytes × Stat)}
    (h : v.traceEntries descend p stream = .ok log) (hname : name ∈ stream)
    (hmet : v.met p name = some (q, st)) (hdir : st.type = .directory) :
    ∃ below, descend q = .ok below ∧ below.Sublist log := by
  induction stream generalizing log with
  | nil => cases hname
  | cons first stream ih =>
    rcases List.mem_cons.mp hname with rfl | hname
    · obtain ⟨below, rest, hbelow, -, rfl⟩ := trace_entries_cons hmet h
      rw [if_pos hdir] at hbelow
      exact ⟨below, hbelow, (List.sublist_append_left _ _).cons _⟩
    · cases hfirst : v.met p first with
      | none =>
        rw [Visitor.traceEntries, hfirst] at h
        exact ih h hname
      | some m =>
        obtain ⟨_, rest, -, hrest, rfl⟩ := trace_entries_cons hfirst h
        obtain ⟨below, hbelow, hsub⟩ := ih hrest hname
        exact ⟨below, hbelow, (hsub.trans (List.sublist_append_right _ _)).cons _⟩

theorem calls_length {base p : Bytes} (h : Relation.ReflTransGen v.Calls base p) :
    p = base ∨ p.length ≤ v.bufferSize-1 := by
  cases h with
  | refl => exact .inl rfl
  | tail _ hcall =>
    obtain ⟨_, name, _, -, -, hmet, -⟩ := hcall
    unfold Visitor.met at hmet
    split at hmet
    · cases hmet
    · obtain ⟨_, -, heq⟩ := Option.map_eq_some_iff.mp hmet
      cases heq
      exact .inr (List.length_take_le _ _)

/-- A visit that returns has met all that the visits it led to have met. -/
theorem calls_sublist {base p : Bytes} (hcalls : Relation.ReflTransGen v.Calls base p) {fuel : ℕ}
    {log : List (Bytes × Stat)} (h : v.trace fuel base = .ok log) :
    ∃ fuel' below, v.trace fuel' p = .ok below ∧ below.Sublist log := by
  induction hcalls with
  | refl => exact ⟨fuel, log, h, List.Sublist.refl _⟩
  | tail _ hcall ih =>
    obtain ⟨fuel', upper, hupper, hsub⟩ := ih
    obtain ⟨stream, name, st, hopen, hname, hmet, hdir⟩ := hcall
    cases fuel' with
    | zero => cases hupper
    | succ fuel' =>
      rw [Visitor.trace, hopen] at hupper
      obtain ⟨below, hbelow, hsub'⟩ := called_sublist hupper hname hmet hdir
      exact ⟨fuel', below, hbelow, hsub'.trans hsub⟩

end

end ProgSistema.FileTree
