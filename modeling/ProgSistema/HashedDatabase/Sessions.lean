import ProgSistema.HashedDatabase.Sequence
import ProgSistema.Lib.Runs

/-!
# Processes that work with one database

Every process has its own handle, and the files are shared. A request runs to its end
before the next one begins. What the table holds follows from the requests alone, and
the answers are those of the table.
-/

set_option autoImplicit false

namespace ProgSistema.HashedDatabase
open CRuntime RecordLayout ChainedTable Runs

inductive Request where
  | fetch (key : Bytes)
  | store (key data : Bytes) (flag : ℤ)
  | delete (key : Bytes)
  | rewind
  | nextrec
  | reopen (creat : Bool)
  deriving DecidableEq, Repr

inductive Answer where
  | data (found : Option Bytes)
  | code (rc : ℤ)
  | record (found : Option (Bytes × Bytes))
  | done
  deriving DecidableEq, Repr

/-- Files that are there already are opened without `O_TRUNC`. -/
def serve : Request → State → Except Failure (Answer × State)
  | .fetch key, s => do
    let (found, s) ← dbFetch key s
    .ok (.data found, s)
  | .store key data flag, s => do
    let (rc, s) ← dbStore key data flag s
    .ok (.code rc, s)
  | .delete key, s => do
    let (rc, s) ← dbDelete key s
    .ok (.code rc, s)
  | .rewind, s => .ok (.done, dbRewind s)
  | .nextrec, s => do
    let (found, s) ← dbNextrec s
    .ok (.record found, s)
  | .reopen creat, s => .ok (.done, dbOpen creat false s.idx s.dat)

abbrev Answered (ι : Type*) := ι × Request × Answer

/-! The table that the answers are about. -/

variable {ι : Type*}

def Request.effect (m : Bytes → Option Bytes) : Request → Bytes → Option Bytes
  | .store key data flag => (stored m key data flag).2
  | .delete key => Function.update m key none
  | _ => m

def tableAfter (log : List (Answered ι)) : Bytes → Option Bytes :=
  log.foldl (fun m e => e.2.1.effect m) fun _ => none

def Conforms (m : Bytes → Option Bytes) : Request → Answer → Prop
  | .fetch key, answer => answer = .data (m key)
  | .store key data flag, answer => answer = .code (stored m key data flag).1
  | .delete key, answer => answer = .code (if (m key).isSome then 0 else -1)
  | .nextrec, answer => answer = .record none ∨
      ∃ key data, m key = some data ∧ answer = .record (some (key, data))
  | _, answer => answer = .done

def Request.Touches (k : Bytes) : Request → Prop
  | .store key _ _ => key = k
  | .delete key => key = k
  | _ => False

instance decidableTouches (k : Bytes) (r : Request) : Decidable (r.Touches k) :=
  match r with
  | .store key _ _ => inferInstanceAs (Decidable (key = k))
  | .delete key => inferInstanceAs (Decidable (key = k))
  | .fetch _ | .rewind | .nextrec | .reopen _ => isFalse id

def Request.Sized (n l : ℕ) : Request → Prop
  | .store key data _ => key.length = n ∧ data.length = l
  | _ => True

instance decidableSized (n l : ℕ) (r : Request) : Decidable (r.Sized n l) :=
  match r with
  | .store key data _ => inferInstanceAs (Decidable (key.length = n ∧ data.length = l))
  | .fetch _ | .delete _ | .rewind | .nextrec | .reopen _ => isTrue trivial

theorem table_concat (log : List (Answered ι)) (e : Answered ι) :
    tableAfter (log++[e]) = e.2.1.effect (tableAfter log) := List.foldl_concat ..

theorem effect_untouched {r : Request} {k : Bytes} (h : ¬ r.Touches k)
    (m : Bytes → Option Bytes) : r.effect m k = m k := by
  cases r with
  | store key data flag =>
    have hk : k ≠ key := fun heq => h heq.symm
    simp only [Request.effect, stored]
    split_ifs
    · rfl
    · rfl
    · rfl
    · exact Function.update_of_ne hk ..
  | delete key => exact Function.update_of_ne (fun heq => h heq.symm) ..
  | fetch | rewind | nextrec | reopen => rfl

theorem table_untouched {k : Bytes} (before during : List (Answered ι))
    (h : ∀ e ∈ during, ¬ e.2.1.Touches k) :
    tableAfter (before++during) k = tableAfter before k := by
  induction during using List.reverseRecOn with
  | nil => rw [List.append_nil]
  | append_singleton during e ih =>
    rw [← List.append_assoc, table_concat,
      effect_untouched (h e (List.mem_append_right _ List.mem_cons_self))]
    exact ih fun x hx => h x (List.mem_append_left _ hx)

theorem effect_finite (r : Request) {m : Bytes → Option Bytes} (h : (keysOf m).Finite) :
    (keysOf (r.effect m)).Finite := by
  cases r with
  | store key data flag =>
    have hput : (keysOf (Function.update m key (some data))).Finite := by
      rw [keys_put]
      exact h.insert key
    simp only [Request.effect, stored]
    split_ifs
    · exact h
    · exact h
    · exact h
    · exact hput
  | delete key =>
    rw [Request.effect, keys_removed]
    exact h.sdiff
  | fetch | rewind | nextrec | reopen => exact h

theorem table_finite (log : List (Answered ι)) : (keysOf (tableAfter log)).Finite := by
  induction log using List.reverseRecOn with
  | nil =>
    have hempty : keysOf (tableAfter ([] : List (Answered ι))) = ∅ :=
      Set.eq_empty_of_forall_notMem fun _ => Bool.false_ne_true
    rw [hempty]
    exact Set.finite_empty
  | append_singleton log e ih =>
    rw [table_concat]
    exact effect_finite e.2.1 ih

/-! Several processes. -/

structure System (ι : Type*) where
  idx : Bytes
  dat : Bytes
  handle : ι → DB
  log : List (Answered ι)

variable [DecidableEq ι]

def step (e : ι × Request) (s : System ι) : Option (System ι) :=
  match serve e.2 ⟨s.idx, s.dat, s.handle e.1⟩ with
  | .ok (answer, s') => some {
      idx := s'.idx
      dat := s'.dat
      handle := Function.update s.handle e.1 s'.db
      log := s.log++[(e.1, e.2, answer)] }
  | .error _ => none

def started : System ι :=
  let s := dbOpen true true [] []
  ⟨s.idx, s.dat, fun _ => s.db, []⟩

/-! Scans. -/

/-- What has been answered since a process began to scan, if it has asked for
nothing but the next record. -/
def follow (i : ι) (during : Option (List (Answered ι))) (e : Answered ι) :
    Option (List (Answered ι)) :=
  if e.1 = i then
    match e.2.1 with
    | .rewind => some []
    | .reopen _ => some []
    | .nextrec => during.map (·++[e])
    | _ => none
  else during.map (·++[e])

def since (i : ι) (log : List (Answered ι)) : Option (List (Answered ι)) :=
  log.foldl (follow i) (some [])

def returned (i : ι) (k : Bytes) (log : List (Answered ι)) : List Bytes :=
  log.filterMap fun e =>
    match e.2.2 with
    | .record (some (key, data)) => if e.1 = i ∧ key = k then some data else none
    | _ => none

/-- Keys and data are strings, keys have no separator, and a process reads on only
while it scans. -/
def Allowed (e : ι × Request) (s : System ι) : Prop :=
  match e.2 with
  | .store key data _ => sep ∉ key ∧ 0 ∉ key ∧ 0 ∉ data
  | .nextrec => (since e.1 s.log).isSome = true
  | _ => True

instance decidableAllowed (e : ι × Request) (s : System ι) : Decidable (Allowed e s) :=
  match e with
  | (_, .store key data _) => inferInstanceAs (Decidable (sep ∉ key ∧ 0 ∉ key ∧ 0 ∉ data))
  | (i, .nextrec) => inferInstanceAs (Decidable ((since i s.log).isSome = true))
  | (_, .fetch _) | (_, .delete _) | (_, .rewind) | (_, .reopen _) => isTrue trivial

theorem since_concat (i : ι) (log : List (Answered ι)) (e : Answered ι) :
    since i (log++[e]) = follow i (since i log) e := List.foldl_concat ..

theorem since_own (i : ι) (log during : List (Answered ι))
    (h : ∀ e ∈ during, e.1 = i → e.2.1 = .nextrec) (hlog : since i log = some []) :
    since i (log++during) = some during := by
  induction during using List.reverseRecOn with
  | nil => rw [List.append_nil, hlog]
  | append_singleton during e ih =>
    have hbefore := ih fun x hx => h x (List.mem_append_left _ hx)
    have he := h e (List.mem_append_right _ List.mem_cons_self)
    rw [← List.append_assoc, since_concat, hbefore, follow]
    by_cases hi : e.1 = i
    · rw [if_pos hi, he hi]
      rfl
    · rw [if_neg hi]
      rfl

/-! One request. -/

variable {L L' : Layout} {s s' : State} {m : Bytes → Option Bytes} {r : Request} {a : Answer}

structure Leaves (r : Request) (L L' : Layout) (idx idx' : Bytes) : Prop where
  boundary : ∀ o, Boundary L idx o → Boundary L' idx' o
  live : ∀ o σ, Live L o σ → ¬ r.Touches σ.key → Live L' o σ

theorem leaves_of_keeps {key : Bytes} {idx idx' : Bytes} (hr : ∀ k, k = key → r.Touches k)
    (h : Keeps key L L' idx idx') : Leaves r L L' idx idx' :=
  ⟨h.boundary, fun o σ hσ hno => h.live o σ hσ fun heq => hno (hr _ heq)⟩

theorem leaves_refl (r : Request) (L : Layout) (idx : Bytes) : Leaves r L L idx idx :=
  ⟨fun _ h => h, fun _ _ h _ => h⟩

theorem serve_spec (h : Represents L s.idx s.dat m)
    (hstore : ∀ key data flag, r = .store key data flag → sep ∉ key ∧ 0 ∉ key ∧ 0 ∉ data)
    (hnext : r = .nextrec → Boundary L s.idx s.db.position) (hs : serve r s = .ok (a, s')) :
    ∃ L', Represents L' s'.idx s'.dat (r.effect m) ∧ Conforms m r a ∧
      Leaves r L L' s.idx s'.idx ∧ (r = .nextrec → L' = L) ∧
      ∀ n l, (keysOf m).Finite → r.Sized n l →
        Spends n l L L' s.dat s'.dat (count m) (count (r.effect m)) := by
  cases r with
  | fetch key =>
    obtain ⟨t, hfetch, hidx, hdat⟩ := db_fetch_eq h key
    rw [serve, hfetch] at hs
    cases hs
    rw [hidx, hdat]
    exact ⟨L, h, rfl, leaves_refl _ L _, fun _ => rfl,
      fun n l _ _ => spends_refl n l L _ _⟩
  | store key data flag =>
    obtain ⟨hsep, hkey, hdata⟩ := hstore key data flag rfl
    rcases db_store_cases h hsep hkey hdata flag with
      ⟨t, L', hput, hrep, hkeeps, hspends⟩ | ⟨⟨e, hput⟩, -⟩
    · rw [serve, hput] at hs
      cases hs
      have htouch : ∀ k, k = key → (Request.store key data flag).Touches k := fun _ => Eq.symm
      refine ⟨L', hrep, rfl, leaves_of_keeps htouch hkeeps, (fun hr => by cases hr), ?_⟩
      rintro n l hfinite ⟨rfl, rfl⟩
      exact hspends hfinite
    · rw [serve, hput] at hs
      cases hs
  | delete key =>
    obtain ⟨t, L', hdelete, hrep, hkeeps, hspends⟩ := db_delete_eq h key
    rw [serve, hdelete] at hs
    cases hs
    exact ⟨L', hrep, rfl, leaves_of_keeps (fun _ => Eq.symm) hkeeps, (fun hr => by cases hr),
      fun n l hfinite _ => hspends n l hfinite⟩
  | rewind =>
    cases hs
    exact ⟨L, h, rfl, leaves_refl _ L _, fun _ => rfl,
      fun n l _ _ => spends_refl n l L _ _⟩
  | nextrec =>
    rcases db_nextrec_cases h (hnext rfl) with ⟨t, hread, hidx, hdat, -⟩ |
      ⟨o, σ, t, hlive, -, -, hread, hidx, hdat, -⟩
    · rw [serve, hread] at hs
      cases hs
      rw [hidx, hdat]
      exact ⟨L, h, Or.inl rfl, leaves_refl _ L _, fun _ => rfl,
      fun n l _ _ => spends_refl n l L _ _⟩
    · rw [serve, hread] at hs
      cases hs
      rw [hidx, hdat]
      have hfound : m σ.key = some σ.data := lookup_some h.holds hlive.1 hlive.2
      exact ⟨L, h, Or.inr ⟨σ.key, σ.data, hfound, rfl⟩, leaves_refl _ L _, fun _ => rfl,
      fun n l _ _ => spends_refl n l L _ _⟩
  | reopen creat =>
    cases hs
    have hidx : (dbOpen creat false s.idx s.dat).idx = s.idx := by
      simp [dbOpen, dbRewind]
    have hdat : (dbOpen creat false s.idx s.dat).dat = s.dat := by
      simp [dbOpen, dbRewind]
    rw [hidx, hdat]
    exact ⟨L, h, rfl, leaves_refl _ L _, fun _ => rfl,
      fun n l _ _ => spends_refl n l L _ _⟩

end ProgSistema.HashedDatabase
