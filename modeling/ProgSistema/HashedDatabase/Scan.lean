import ProgSistema.HashedDatabase.Sessions

/-!
# Answers and scans over whole runs

Requests of any number of processes, in any order, are answered as by a table. A scan
returns what nobody has touched in the meantime exactly once, whatever else is stored
and deleted before it is over. Free records are used again before the data file grows.
-/

set_option autoImplicit false

namespace ProgSistema.HashedDatabase
open CRuntime RecordLayout ChainedTable Runs

variable {ι : Type*} [DecidableEq ι] {L L' : Layout} {s t : System ι} {i j : ι} {r : Request}
  {a : Answer} {during : List (Answered ι)} {k d : Bytes} {idx dat : Bytes}
  {m : Bytes → Option Bytes} {o p q : ℕ} {σ τ : Slot}
  {next : ℕ → ℕ} {slot : ℕ → Option Slot}

structure Scanned (L : Layout) (s : System ι) (i : ι) (during : List (Answered ι)) : Prop where
  boundary : Boundary L s.idx (s.handle i).position
  finished : ∀ pre, during = pre++[(i, .nextrec, .record none)] →
    (s.handle i).position = s.idx.length
  present : ∀ k d, Shown k → (∀ e ∈ during, ¬ e.2.1.Touches k) → tableAfter s.log k = some d →
    ∃ o σ, Live L o σ ∧ σ.key = k ∧
      returned i k during = if o < (s.handle i).position then [d] else []
  absent : ∀ k, (∀ e ∈ during, ¬ e.2.1.Touches k) → tableAfter s.log k = none →
    returned i k during = []

structure Filled (n l : ℕ) (L : Layout) (s : System ι) : Prop where
  balanced : Balanced n l (count (tableAfter s.log)) L s.dat
  reached : ∃ before, before <+: s.log ∧ s.dat.length = (l+1)*count (tableAfter before)
  enough : ∀ before, before <+: s.log → (l+1)*count (tableAfter before) ≤ s.dat.length

structure Inv (s : System ι) : Prop where
  table : ∃ L, Represents L s.idx s.dat (tableAfter s.log) ∧
    (∀ i during, since i s.log = some during → Scanned L s i during) ∧
    ∀ n l, (∀ e ∈ s.log, e.2.1.Sized n l) → Filled n l L s
  explained : ∀ before e after, s.log = before++e::after →
    Conforms (tableAfter before) e.2.1 e.2.2

theorem returned_concat (i : ι) (k : Bytes) (log : List (Answered ι)) (e : Answered ι) :
    returned i k (log++[e]) = returned i k log++returned i k [e] := List.filterMap_append ..

theorem returned_other (h : j ≠ i) (k : Bytes) (r : Request) (a : Answer) :
    returned i k [(j, r, a)] = [] := by
  cases a with
  | record found =>
    cases found with
    | none => rfl
    | some found => simp [returned, h]
  | data | code | done => rfl

theorem returned_record (i : ι) (k key data : Bytes) (r : Request) :
    returned i k [(i, r, .record (some (key, data)))] = if key = k then [data] else [] := by
  by_cases hk : key = k <;> simp [returned, hk]

theorem live_unique (h : Represents L idx dat m) (hσ : Live L o σ) (hτ : Live L p τ)
    (hkey : σ.key = τ.key) : o = p :=
  h.chained.once _ o (hkey ▸ hσ.1) p hτ.1 σ τ hσ.2 hτ.2 hkey

def System.after (s : System ι) (i : ι) (r : Request) (a : Answer) (s' : State) : System ι where
  idx := s'.idx
  dat := s'.dat
  handle := Function.update s.handle i s'.db
  log := s.log++[(i, r, a)]

@[simp] theorem after_own (s : System ι) (i : ι) (r : Request) (a : Answer) (s' : State) :
    (s.after i r a s').handle i = s'.db := Function.update_self ..

theorem after_other (s : System ι) (h : j ≠ i) (r : Request) (a : Answer) (s' : State) :
    (s.after i r a s').handle j = s.handle j := Function.update_of_ne h ..

theorem after_table (s : System ι) (i : ι) (r : Request) (a : Answer) (s' : State) :
    tableAfter (s.after i r a s').log = r.effect (tableAfter s.log) :=
  table_concat s.log (i, r, a)

theorem step_cases (h : step (i, r) s = some t) :
    ∃ a s', serve r ⟨s.idx, s.dat, s.handle i⟩ = .ok (a, s') ∧ t = s.after i r a s' := by
  rw [step] at h
  cases hserve : serve r ⟨s.idx, s.dat, s.handle i⟩ with
  | error e =>
    rw [hserve] at h
    cases h
  | ok result =>
    rw [hserve] at h
    exact ⟨result.1, result.2, rfl, (Option.some.inj h).symm⟩

variable {s' : State}

/-- The scan of another process goes on as it was. -/
theorem scanned_other (hs : Scanned L s j during) (hne : j ≠ i)
    (hleaves : Leaves r L L' s.idx s'.idx) :
    Scanned L' (s.after i r a s') j (during++[(i, r, a)]) := by
  have hhandle := after_other s hne r a s'
  have hreturned : ∀ k, returned j k (during++[(i, r, a)]) = returned j k during := by
    intro k
    rw [returned_concat, returned_other hne.symm, List.append_nil]
  have htable : ∀ k, (∀ e ∈ during++[(i, r, a)], ¬ e.2.1.Touches k) →
      ¬ r.Touches k ∧ tableAfter (s.after i r a s').log k = tableAfter s.log k := by
    intro k hno
    have hlast := hno (i, r, a) (List.mem_append_right _ List.mem_cons_self)
    exact ⟨hlast, (congrFun (after_table ..) k).trans (effect_untouched hlast _)⟩
  refine ⟨?_, ?_, ?_, ?_⟩
  · rw [hhandle]
    exact hleaves.boundary _ hs.boundary
  · intro pre hpre
    have hlast := List.head_eq_of_cons_eq (List.append_inj' hpre rfl).2
    exact absurd (congrArg Prod.fst hlast).symm hne
  · intro k d hshown hno hd
    obtain ⟨htouch, heq⟩ := htable k hno
    rw [heq] at hd
    obtain ⟨o, σ, hlive, hkey, hret⟩ :=
      hs.present k d hshown (fun e he => hno e (List.mem_append_left _ he)) hd
    refine ⟨o, σ, hleaves.live o σ hlive (hkey ▸ htouch), hkey, ?_⟩
    rw [hreturned, hhandle, hret]
  · intro k hno hd
    obtain ⟨-, heq⟩ := htable k hno
    rw [heq] at hd
    rw [hreturned]
    exact hs.absent k (fun e he => hno e (List.mem_append_left _ he)) hd

/-- A scan begins at the first record. -/
theorem scanned_start (h : Represents L t.idx t.dat (tableAfter t.log))
    (hposition : (t.handle i).position = firstRecord) : Scanned L t i [] := by
  refine ⟨?_, ?_, ?_, fun _ _ _ => rfl⟩
  · rw [hposition]
    exact first_boundary h.mapped
  · intro pre hpre
    exact absurd hpre.symm (List.append_ne_nil_of_right_ne_nil _ (List.cons_ne_nil _ _))
  · intro k d _ _ hd
    obtain ⟨o, σ, ho, hσ, hkey, -⟩ := (h.holds k d).mp hd
    have hkey' : σ.key = k := hkey
    have hfirst := slot_first h.mapped hσ
    refine ⟨o, σ, ⟨?_, hσ⟩, hkey', ?_⟩
    · rw [hkey']
      exact ho
    · rw [hposition, if_neg (by omega)]
      rfl

/-- What a read that stops at the record at `o` adds to what lies behind the position. -/
theorem behind_iff (hm : Mapped idx dat next slot) (hle : q ≤ o) (hσ : slot o = some σ)
    (hτ : slot p = some τ) (hne : p ≠ o)
    (hbetween : ∀ i τ, q ≤ i → i < o → slot i = some τ → ¬ Shown τ.key)
    (hshown : Shown τ.key) : p < q ↔ p < o+σ.size := by
  constructor
  · intro hlt
    omega
  · intro hlt
    by_contra hahead
    rcases lt_or_gt_of_ne hne with hbefore | hbehind
    · exact hbetween p τ (not_lt.mp hahead) hbefore hτ hshown
    · have happ := slot_apart hm hσ hτ hbehind
      omega

/-- The read that finds no further record. -/
theorem scanned_end (h : Represents L s.idx s.dat (tableAfter s.log)) (hs : Scanned L s i during)
    (hidx : s'.idx = s.idx) (hend : s'.db.position = s.idx.length)
    (hrest : ∀ p τ, (s.handle i).position ≤ p → L.slot p = some τ → ¬ Shown τ.key) :
    Scanned L (s.after i .nextrec (.record none) s') i
      (during++[(i, .nextrec, .record none)]) := by
  have hposition := after_own s i .nextrec (.record none) s'
  have htable : tableAfter (s.after i .nextrec (.record none) s').log = tableAfter s.log :=
    after_table s i .nextrec (.record none) s'
  have hfile : (s.after i .nextrec (.record none) s').idx = s.idx := hidx
  have hreturned : ∀ k, returned i k (during++[(i, .nextrec, .record none)]) =
      returned i k during := by
    intro k
    rw [returned_concat]
    exact List.append_nil _
  refine ⟨?_, ?_, ?_, ?_⟩
  · rw [hposition, hfile]
    exact Or.inl hend
  · intro _ _
    rw [hposition, hfile]
    exact hend
  · intro k d hshown hno hd
    rw [htable] at hd
    obtain ⟨p, τ, hτ, hkey, hret⟩ :=
      hs.present k d hshown (fun e he => hno e (List.mem_append_left _ he)) hd
    refine ⟨p, τ, hτ, hkey, ?_⟩
    have hbehind : p < (s.handle i).position := by
      by_contra hahead
      exact hrest p τ (not_lt.mp hahead) hτ.2 (hkey ▸ hshown)
    have hlt : p < s'.db.position := by
      rw [hend]
      exact slot_lt (s := ⟨s.idx, s.dat, s.handle i⟩) h.mapped hτ.2
    rw [hreturned, hposition, hret, if_pos hbehind, if_pos hlt]
  · intro k hno hd
    rw [htable] at hd
    rw [hreturned]
    exact hs.absent k (fun e he => hno e (List.mem_append_left _ he)) hd

/-- The read that returns the record at `o`. -/
theorem scanned_record (h : Represents L s.idx s.dat (tableAfter s.log))
    (hs : Scanned L s i during) (hlive : Live L o σ) (hle : (s.handle i).position ≤ o)
    (hbetween : ∀ p τ, (s.handle i).position ≤ p → p < o → L.slot p = some τ → ¬ Shown τ.key)
    (hidx : s'.idx = s.idx) (hpos : s'.db.position = o+σ.size) :
    Scanned L (s.after i .nextrec (.record (some (σ.key, σ.data))) s') i
      (during++[(i, .nextrec, .record (some (σ.key, σ.data)))]) := by
  have hposition := after_own s i .nextrec (.record (some (σ.key, σ.data))) s'
  have htable : tableAfter (s.after i .nextrec (.record (some (σ.key, σ.data))) s').log =
      tableAfter s.log := after_table s i .nextrec (.record (some (σ.key, σ.data))) s'
  have hfile : (s.after i .nextrec (.record (some (σ.key, σ.data))) s').idx = s.idx := hidx
  have hfound : tableAfter s.log σ.key = some σ.data := lookup_some h.holds hlive.1 hlive.2
  have hsize := size_pos σ
  refine ⟨?_, ?_, ?_, ?_⟩
  · rw [hposition, hfile, hpos]
    exact slot_next h.mapped hlive.2
  · intro pre hpre
    have hlast := List.head_eq_of_cons_eq (List.append_inj' hpre rfl).2
    cases hlast
  · intro k d hshown hno hd
    rw [htable] at hd
    obtain ⟨p, τ, hτ, hkey, hret⟩ :=
      hs.present k d hshown (fun e he => hno e (List.mem_append_left _ he)) hd
    refine ⟨p, τ, hτ, hkey, ?_⟩
    rw [returned_concat, returned_record, hposition, hpos, hret]
    by_cases hsame : σ.key = k
    · -- the record of the key itself, which has not been returned before
      have hop : o = p := live_unique h hlive hτ (hsame.trans hkey.symm)
      have hdata : σ.data = d := by
        rw [hsame, hd] at hfound
        exact (Option.some.inj hfound).symm
      rw [if_pos hsame, if_neg (by omega), if_pos (by omega), hdata]
      rfl
    · have hne : p ≠ o := offset_ne hlive.2 hτ.2 fun heq => hsame (heq.symm.trans hkey)
      have hbehind := behind_iff h.mapped hle hlive.2 hτ.2 hne hbetween (hkey ▸ hshown)
      rw [if_neg hsame, List.append_nil]
      simp only [hbehind]
  · intro k hno hd
    rw [htable] at hd
    have hne : σ.key ≠ k := by
      rintro rfl
      rw [hfound] at hd
      cases hd
    rw [returned_concat, returned_record, if_neg hne, List.append_nil]
    exact hs.absent k (fun e he => hno e (List.mem_append_left _ he)) hd

/-- The next record of a scan. -/
theorem scanned_next (h : Represents L s.idx s.dat (tableAfter s.log))
    (hs : Scanned L s i during)
    (hserve : serve .nextrec ⟨s.idx, s.dat, s.handle i⟩ = .ok (a, s')) :
    Scanned L (s.after i .nextrec a s') i (during++[(i, .nextrec, a)]) := by
  rcases db_nextrec_cases (s := ⟨s.idx, s.dat, s.handle i⟩) h hs.boundary with
    ⟨u, hread, hidx, -, hend, hrest⟩ | ⟨o, σ, u, hlive, hle, hbetween, hread, hidx, -, hpos⟩
  · rw [serve, hread] at hserve
    cases hserve
    exact scanned_end h hs hidx hend hrest
  · rw [serve, hread] at hserve
    cases hserve
    exact scanned_record h hs hlive hle hbetween hidx hpos

/-! The data file. -/

theorem filled_after {n l : ℕ} (h : Filled n l L s)
    (hspends : Spends n l L L' s.dat s'.dat (count (tableAfter s.log))
      (count (r.effect (tableAfter s.log)))) : Filled n l L' (s.after i r a s') := by
  obtain ⟨hbalanced, hgrown⟩ := hspends h.balanced
  rw [← after_table s i r a s'] at hbalanced
  refine ⟨hbalanced, ?_, ?_⟩
  · rcases hgrown with hsame | ⟨hfree, -⟩
    · obtain ⟨before, hbefore, hlen⟩ := h.reached
      exact ⟨before, hbefore.trans (List.prefix_append ..), hsame.trans hlen⟩
    · have hsize := hbalanced.size
      rw [hfree, List.length_nil, Nat.zero_add] at hsize
      exact ⟨(s.after i r a s').log, List.prefix_refl _, hsize⟩
  · intro before hbefore
    rcases List.prefix_concat_iff.mp hbefore with rfl | hbefore
    · have hpart := Nat.mul_le_mul_left (l+1) (Nat.le_add_left
        (count (tableAfter (s.after i r a s').log)) (L'.chain none).length)
      exact hpart.trans hbalanced.size.ge
    · have hmono : s.dat.length ≤ s'.dat.length := by
        rcases hgrown with hsame | ⟨-, hmore⟩
        · exact hsame.ge
        · exact hmore
      exact (h.enough before hbefore).trans hmono

/-! Runs. -/

omit [DecidableEq ι] in
theorem started_filled (hslot : ∀ o, L.slot o = none) (hfree : L.chain none = [])
    (hdat : (started : System ι).dat = []) (n l : ℕ) : Filled n l L (started : System ι) := by
  have hcount : count (tableAfter (started : System ι).log) = 0 := by
    simp [started, tableAfter, count, keysOf]
  have hsize : (started : System ι).dat.length = 0 := by
    rw [hdat]
    rfl
  refine ⟨⟨fun o σ hσ => ?_, ?_⟩, ⟨[], List.nil_prefix, ?_⟩, fun before hbefore => ?_⟩
  · rw [hslot] at hσ
    cases hσ
  · rw [hsize, hcount, hfree]
    rfl
  · exact hsize.trans (mul_eq_zero_of_right _ hcount).symm
  · rw [List.prefix_nil.mp hbefore]
    exact (mul_eq_zero_of_right _ hcount).trans_le (Nat.zero_le _)

theorem started_inv : Inv (started : System ι) := by
  constructor
  · obtain ⟨L, hrep, hslot, hfree⟩ := start_represents
    have hfiles : (started : System ι).idx = chainPointers ∧ (started : System ι).dat = [] := by
      simp [started, dbOpen, dbRewind]
    have hrep' : Represents L (started : System ι).idx (started : System ι).dat
        (tableAfter (started : System ι).log) := by
      rw [hfiles.1, hfiles.2]
      exact hrep
    refine ⟨L, hrep', fun i during hduring => ?_, ?_⟩
    · rw [← Option.some.inj hduring]
      exact scanned_start hrep' rfl
    · exact fun n l _ => started_filled hslot hfree hfiles.2 n l
  · intro before e after hlog
    exact absurd hlog.symm (List.append_ne_nil_of_right_ne_nil _ (List.cons_ne_nil _ _))

/-- The handle is at the first record after a request that opens or rewinds. -/
theorem rewound {u : State} (hr : r = .rewind ∨ ∃ creat, r = .reopen creat)
    (h : serve r u = .ok (a, s')) : s'.db.position = firstRecord := by
  rcases hr with rfl | ⟨creat, rfl⟩
  · cases h
    rfl
  · cases h
    rfl

theorem follow_cases (i j : ι) (r : Request) (a : Answer) (log : List (Answered ι))
    (h : since j (log++[(i, r, a)]) = some during) :
    (j = i ∧ (r = .rewind ∨ ∃ creat, r = .reopen creat) ∧ during = []) ∨
    ((j = i → r = .nextrec) ∧ ∃ before, since j log = some before ∧
      during = before++[(i, r, a)]) := by
  rw [since_concat, follow] at h
  by_cases hij : i = j
  · rw [if_pos hij] at h
    cases r with
    | rewind => exact Or.inl ⟨hij.symm, Or.inl rfl, (Option.some.inj h).symm⟩
    | reopen creat => exact Or.inl ⟨hij.symm, Or.inr ⟨creat, rfl⟩, (Option.some.inj h).symm⟩
    | nextrec =>
      obtain ⟨before, hbefore, heq⟩ := Option.map_eq_some_iff.mp h
      exact Or.inr ⟨fun _ => rfl, before, hbefore, heq.symm⟩
    | fetch | store | delete => cases h
  · rw [if_neg hij] at h
    obtain ⟨before, hbefore, heq⟩ := Option.map_eq_some_iff.mp h
    exact Or.inr ⟨fun hji => absurd hji.symm hij, before, hbefore, heq.symm⟩

theorem step_inv (e : ι × Request) (s t : System ι) (hs : Inv s) (hok : Allowed e s)
    (h : step e s = some t) : Inv t := by
  obtain ⟨i, r⟩ := e
  obtain ⟨a, s', hserve, rfl⟩ := step_cases h
  obtain ⟨L, hrep, hscans, hfilled⟩ := hs.table
  have hstore : ∀ key data flag, r = .store key data flag → sep ∉ key ∧ 0 ∉ key ∧ 0 ∉ data := by
    rintro key data flag rfl
    exact hok
  have hnext : r = .nextrec → Boundary L s.idx (s.handle i).position := by
    rintro rfl
    obtain ⟨during, hduring⟩ := Option.isSome_iff_exists.mp hok
    exact (hscans i during hduring).boundary
  obtain ⟨L', hrep', hconforms, hleaves, hsame, hspends⟩ :=
    serve_spec (s := ⟨s.idx, s.dat, s.handle i⟩) hrep hstore hnext hserve
  have htable := after_table s i r a s'
  constructor
  · refine ⟨L', htable ▸ hrep', fun j during hduring => ?_, fun n l hsized => ?_⟩
    · rcases follow_cases i j r a s.log hduring with
        ⟨rfl, hstart, rfl⟩ | ⟨hown, before, hbefore, rfl⟩
      · refine scanned_start (htable ▸ hrep') ?_
        rw [after_own]
        exact rewound hstart hserve
      · by_cases hji : j = i
        · subst hji
          obtain rfl := hown rfl
          rw [hsame rfl]
          exact scanned_next hrep (hscans j before hbefore) hserve
        · exact scanned_other (hscans j before hbefore) hji hleaves
    · have hbefore := hfilled n l fun e he => hsized e (List.mem_append_left _ he)
      exact filled_after hbefore (hspends n l (table_finite s.log)
        (hsized (i, r, a) (List.mem_append_right _ List.mem_cons_self)))
  · intro before e after hlog
    rcases List.eq_nil_or_concat after with rfl | ⟨after, last, rfl⟩
    · obtain ⟨hbefore, hlast⟩ := List.append_inj' hlog rfl
      rw [← hbefore, ← List.head_eq_of_cons_eq hlast]
      exact hconforms
    · rw [List.concat_eq_append] at hlog
      have hsplit : s.log++[(i, r, a)] = (before++e::after)++[last] := by
        rw [List.append_assoc, List.cons_append]
        exact hlog
      exact hs.explained before e after (List.append_inj' hsplit rfl).1

theorem reachable_inv (h : ReachableAlong step Allowed started s) : Inv s :=
  reachable_along_invariant step Inv started_inv step_inv h

/-- Whatever processes ask for, and in whatever order, each answer is that of the
table which the requests answered before have made. -/
theorem answers_conform (h : ReachableAlong step Allowed started s) (i : ι) (r : Request)
    (a : Answer) (before after : List (Answered ι)) (hlog : s.log = before++(i, r, a)::after) :
    Conforms (tableAfter before) r a :=
  (reachable_inv h).explained before (i, r, a) after hlog

def sampleRequests : List (Bool × Request) :=
  [(false, .store [97] [120] dbInsert), (true, .rewind), (true, .nextrec),
    (false, .store [98] [121] dbInsertOrReplace), (false, .delete [98]), (true, .nextrec)]

def sampleLog : List (Answered Bool) :=
  [(false, .store [97] [120] dbInsert, .code 0), (true, .rewind, .done),
    (true, .nextrec, .record (some ([97], [120]))),
    (false, .store [98] [121] dbInsertOrReplace, .code 0), (false, .delete [98], .code 0),
    (true, .nextrec, .record none)]

theorem sample_run : (exec step sampleRequests started).isSome = true := by decide +kernel

def sampleEnd : System Bool := (exec step sampleRequests started).get sample_run

theorem sample_log : sampleEnd.log = sampleLog := by decide +kernel

theorem sample_reachable : ReachableAlong step Allowed started sampleEnd :=
  reachable_along_get sample_run (by decide +kernel)

theorem sample_conforms :
    Conforms (tableAfter (sampleLog.take 2)) .nextrec (.record (some ([97], [120]))) :=
  answers_conform sample_reachable true .nextrec _ (sampleLog.take 2) (sampleLog.drop 3) sample_log

/-- A scan that has come to its end has returned each key that nobody stored to or
deleted meanwhile once, with its data, if the table had the key, and else never. -/
theorem scan_exact (h : ReachableAlong step Allowed started s) (i : ι) (start : Request)
    (before during : List (Answered ι)) (k : Bytes)
    (hlog : s.log = before++(i, start, .done)::(during++[(i, .nextrec, .record none)]))
    (hstart : start = .rewind ∨ ∃ creat, start = .reopen creat)
    (hown : ∀ e ∈ during, e.1 = i → e.2.1 = .nextrec) (hshown : Shown k)
    (huntouched : ∀ e ∈ during, ¬ e.2.1.Touches k) :
    returned i k during = (tableAfter before k).toList := by
  obtain ⟨L, hrep, hscans, -⟩ := (reachable_inv h).table
  let last : Answered ι := (i, .nextrec, .record none)
  have hmem : ∀ e ∈ during++[last], e ∈ during ∨ e = last := fun e he =>
    (List.mem_append.mp he).imp_right List.mem_singleton.mp
  have hno : ∀ e ∈ during++[last], ¬ e.2.1.Touches k := by
    intro e he
    rcases hmem e he with he | rfl
    · exact huntouched e he
    · exact id
  have hfirst : since i (before++[(i, start, .done)]) = some [] := by
    rw [since_concat, follow, if_pos rfl]
    rcases hstart with rfl | ⟨creat, rfl⟩ <;> rfl
  have hlog' : s.log = before++[(i, start, .done)]++(during++[last]) := by
    rw [hlog, List.append_assoc]
    rfl
  have hsince : since i s.log = some (during++[last]) := by
    rw [hlog']
    refine since_own i _ _ (fun e he hei => ?_) hfirst
    rcases hmem e he with he | rfl
    · exact hown e he hei
    · rfl
  have hscan := hscans i _ hsince
  have hend := hscan.finished during rfl
  have hstill : tableAfter s.log k = tableAfter before k := by
    have hstartTouch : ¬ start.Touches k := by
      rcases hstart with rfl | ⟨creat, rfl⟩ <;> exact id
    rw [hlog', table_untouched _ _ hno, table_concat, effect_untouched hstartTouch]
  have hreturned : returned i k (during++[last]) = returned i k during := by
    rw [returned_concat]
    exact List.append_nil _
  rw [← hreturned, ← hstill]
  cases hd : tableAfter s.log k with
  | none => exact hscan.absent k hno hd
  | some d =>
    obtain ⟨o, σ, hlive, hkey, hret⟩ := hscan.present k d hshown hno hd
    have hlt := slot_lt (s := ⟨s.idx, s.dat, s.handle i⟩) hrep.mapped hlive.2
    rw [hret, hend, if_pos hlt]
    rfl

theorem sample_scan : returned true [97] ((sampleLog.drop 2).take 3) =
    (tableAfter (sampleLog.take 1) [97]).toList :=
  scan_exact sample_reachable true .rewind (sampleLog.take 1) ((sampleLog.drop 2).take 3) [97]
    sample_log (Or.inl rfl) (by decide) ⟨97, List.mem_cons_self, by decide⟩ (by decide)

/-- While all keys have one length and all data have one length, the data file is as long
as the lines of the table were when it had the most keys. -/
theorem data_peak (h : ReachableAlong step Allowed started s) (n l : ℕ)
    (hsized : ∀ e ∈ s.log, e.2.1.Sized n l) :
    IsGreatest {x | ∃ before, before <+: s.log ∧ x = (l+1)*count (tableAfter before)}
      s.dat.length := by
  obtain ⟨L, -, -, hfilled⟩ := (reachable_inv h).table
  have hs := hfilled n l hsized
  refine ⟨hs.reached, ?_⟩
  rintro x ⟨before, hbefore, rfl⟩
  exact hs.enough before hbefore

theorem sample_peak :
    IsGreatest {x | ∃ before, before <+: sampleEnd.log ∧ x = (1+1)*count (tableAfter before)}
      sampleEnd.dat.length := by
  refine data_peak sample_reachable 1 1 ?_
  rw [sample_log]
  decide

/-! Every request is answered while there is room. -/

theorem room_of_sizes {idx dat key data : Bytes} {next : ℕ → ℕ} {slot : ℕ → Option Slot}
    (hm : Mapped idx dat next slot) (hkey : 0 < key.length) (hlong : key.length ≤ 1007)
    (hdata : data.length ≤ 1023) (hidx : idx.length ≤ 9999999) :
    Room key data idx.length dat.length := by
  have hdat := dat_length_le hm
  have hptr : ptrSz = 7 := rfl
  have hdatlen : datlenMax = 1024 := rfl
  rw [hptr, hdatlen] at hdat
  have hoffset : (decimal dat.length).length ≤ 10 := decimal_length (by decide) (by omega)
  have hlen : (decimal (data.length+1)).length ≤ 4 := decimal_length (by decide) (by omega)
  have hoffset' := List.length_pos_of_ne_nil (decimal_ne_nil dat.length)
  have hlen' := List.length_pos_of_ne_nil (decimal_ne_nil (data.length+1))
  have htext : (Slot.text ⟨key, data, dat.length⟩).length =
      key.length+(decimal dat.length).length+(decimal (data.length+1)).length+3 := text_length _
  have hmin : idxlenMin = 6 := rfl
  have hmax : idxlenMax = 1024 := rfl
  have hptrMax : ptrMax = 9999999 := rfl
  refine ⟨?_, ?_, ?_⟩
  · omega
  · omega
  · omega

/-- No request ends its process while the index file is within the reach of a chain
pointer and keys and data are neither empty nor too long. -/
theorem request_served (h : ReachableAlong step Allowed started s) (i : ι) (r : Request)
    (hok : Allowed (i, r) s)
    (hsizes : ∀ key data flag, r = .store key data flag → 0 < key.length ∧ key.length ≤ 1007 ∧
      0 < data.length ∧ data.length ≤ 1023 ∧ s.idx.length ≤ 9999999) :
    ∃ t, step (i, r) s = some t := by
  obtain ⟨L, hrep, hscans, -⟩ := (reachable_inv h).table
  let u : State := ⟨s.idx, s.dat, s.handle i⟩
  have hrep' : Represents L u.idx u.dat (tableAfter s.log) := hrep
  have hanswer : ∀ a s', serve r u = .ok (a, s') → ∃ t, step (i, r) s = some t := by
    intro a s' hserve
    refine ⟨s.after i r a s', ?_⟩
    rw [step, hserve]
    rfl
  cases r with
  | fetch key =>
    obtain ⟨s', hfetch, -⟩ := db_fetch_eq hrep' key
    exact hanswer _ _ (bind_of_ok hfetch rfl)
  | store key data flag =>
    obtain ⟨hsep, hkeyNul, hdataNul⟩ := hok
    obtain ⟨hkey, hlong, hdata, hshort, hidx⟩ := hsizes key data flag rfl
    have hmin : datlenMin = 2 := rfl
    have hmax : datlenMax = 1024 := rfl
    rcases db_store_cases hrep' hsep hkeyNul hdataNul flag with ⟨s', L', hput, -⟩ | ⟨-, hno⟩
    · exact hanswer _ _ (bind_of_ok hput rfl)
    · exact absurd ⟨by omega, by omega, room_of_sizes hrep.mapped hkey hlong hshort hidx⟩ hno
  | delete key =>
    obtain ⟨s', L', hdelete, -⟩ := db_delete_eq hrep' key
    exact hanswer _ _ (bind_of_ok hdelete rfl)
  | rewind => exact hanswer _ _ rfl
  | nextrec =>
    obtain ⟨during, hduring⟩ := Option.isSome_iff_exists.mp hok
    have hboundary : Boundary L u.idx u.db.position := (hscans i during hduring).boundary
    rcases db_nextrec_cases hrep' hboundary with ⟨s', hread, -⟩ | ⟨o, σ, s', -, -, -, hread, -⟩
    · exact hanswer _ _ (bind_of_ok hread rfl)
    · exact hanswer _ _ (bind_of_ok hread rfl)
  | reopen creat => exact hanswer _ _ rfl

theorem sample_served : ∃ t, step (false, .store [99] [122] dbInsert) sampleEnd = some t := by
  have hlength : sampleEnd.idx.length ≤ 9999999 := by decide +kernel
  refine request_served sample_reachable false _ (by decide) ?_
  intro key data flag h
  cases h
  exact ⟨by decide, by decide, by decide, by decide, hlength⟩

end ProgSistema.HashedDatabase
