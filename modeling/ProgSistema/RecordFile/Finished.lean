import ProgSistema.RecordFile.TwoPrograms

/-!
# What the two programs share

The names of the files differ, and the count of finished processes is behind
the mapped bytes. A program that sees both finished has incremented it there.
-/

set_option autoImplicit false

namespace ProgSistema.RecordFile

def observed : MainPc → Option ℤ
  | .ended finishedCount => finishedCount
  | _ => none

def MainPc.hasEnded : MainPc → Bool
  | ended _ => true
  | _ => false

/-- What the two programs are to do: they write their records to one file, each
increment stays inside the mapped bytes, and one of them sees both finished. -/
structure SharesFile (s : Programs) : Prop where
  oneFile : ∃ f, ∀ g, (s.shared.files g).records ≠ [] → g = f
  inside : ∀ start ∈ s.shared.increments, start+4 ≤ secondaSoluzione.fileSize
  one : ∃ p, observed (s.procs p).pc = some 2 ∧
    ∀ q, observed (s.procs q).pc = some 2 → q = p

def MainPc.hasCount : MainPc → Bool
  | readCount | finalPost _ => true
  | testFinished n | poll _ n | pollTest _ n | pollPost _ _ n | close n | ended n => n.isSome
  | _ => false

structure CountInv (s : Programs) : Prop where
  incremented : ∀ p, (s.procs p).pc.hasCount = true → s.shared.increments ≠ []
  outside : ∀ start ∈ s.shared.increments, start = finishedOffset

def Counts (proc proc' : Proc) (k k' : World) : Prop :=
  (k'.increments = k.increments ∧ (proc'.pc.hasCount = true → proc.pc.hasCount = true)) ∨
    k'.increments = k.increments++[(finishedOffset : ℤ)]

section
variable {file : Bytes → ℕ} {pid : Program → ProcessId} {program : Program} {proc proc' : Proc}
  {k k' : World}

theorem start_counts {ok : Bool} (h : startUp file program ok proc k = some (proc', k')) :
    Counts proc proc' k k' := by
  obtain ⟨pc, sem⟩ := proc
  unfold startUp at h
  dsimp only at h
  split at h
  · split at h <;> (cases h; exact .inl ⟨rfl, nofun⟩)
  · cases h
    cases ok <;> exact .inl ⟨rfl, nofun⟩
  · cases h
    cases ok <;> exact .inl ⟨rfl, nofun⟩
  · cases h
    cases ok <;> exact .inl ⟨rfl, nofun⟩
  · cases h
    exact .inl ⟨rfl, nofun⟩
  · cases h
    exact .inl ⟨rfl, nofun⟩
  · split at h <;> (cases h; exact .inl ⟨rfl, nofun⟩)
  · split at h <;> (cases h; exact .inl ⟨rfl, nofun⟩)
  · cases h

theorem finish_counts {ok : Bool} (h : finish file program ok proc k = some (proc', k')) :
    Counts proc proc' k k' := by
  obtain ⟨pc, sem⟩ := proc
  unfold finish at h
  cases pc with
  | finalWait =>
    dsimp only at h
    split at h
    · cases h
      exact .inl ⟨rfl, nofun⟩
    · split at h
      · cases h
      · cases h
        exact .inl ⟨rfl, nofun⟩
  | increment =>
    cases h
    exact .inr rfl
  | readCount | finalPost n =>
    cases h
    exact .inl ⟨rfl, fun _ => rfl⟩
  | testFinished n =>
    cases h
    refine .inl ⟨rfl, fun hcount => ?_⟩
    dsimp only at hcount
    split at hcount <;> exact hcount
  | poll i n =>
    dsimp only at h
    split at h
    · split at h
      · cases h
        exact .inl ⟨rfl, id⟩
      · split at h
        · cases h
        · cases h
          exact .inl ⟨rfl, id⟩
    · cases h
      exact .inl ⟨rfl, id⟩
  | pollTest i n =>
    cases h
    exact .inl ⟨rfl, id⟩
  | pollPost found i n =>
    cases h
    cases found <;> exact .inl ⟨rfl, id⟩
  | close n =>
    cases h
    refine .inl ⟨?_, id⟩
    split <;> rfl
  | _ => cases h

theorem act_counts {event : Event}
    (h : actProgram file pid program event proc k = some (proc', k')) :
    Counts proc proc' k k' := by
  unfold actProgram at h
  split at h
  · cases h
    exact .inl ⟨rfl, nofun⟩
  · obtain ⟨next, -, heq⟩ := Option.map_eq_some_iff.mp h
    cases heq
    exact .inl ⟨rfl, nofun⟩
  · split at h
    · exact start_counts h
    · exact start_counts h
    · exact start_counts h
    · exact start_counts h
    · exact start_counts h
    · exact finish_counts h
  · cases h

end

variable {file : Bytes → ℕ} {pid : Program → ProcessId}

theorem step_count_inv (a : Program × Event) (s s' : Programs) (hi : CountInv s)
    (h : Sharing.step (actProgram file pid) a s = some s') : CountInv s' := by
  obtain ⟨proc, k, hact, rfl⟩ := Sharing.step_next _ h
  have hcounts : Counts (s.procs a.1) proc s.shared k := act_counts hact
  rcases hcounts with ⟨hsame, hcount⟩ | happend
  · refine ⟨?_, ?_⟩
    · dsimp only
      rw [hsame]
      apply (Function.forall_update_iff s.procs fun _ q => q.pc.hasCount = true → _ ≠ []).mpr
      exact ⟨fun hnew => hi.incremented a.1 (hcount hnew), fun p _ => hi.incremented p⟩
    · dsimp only
      rw [hsame]
      exact hi.outside
  · refine ⟨fun _ _ => ?_, fun start hstart => ?_⟩
    · dsimp only
      rw [happend]
      exact List.append_ne_nil_of_right_ne_nil _ nofun
    · dsimp only at hstart
      rw [happend] at hstart
      rcases List.mem_append.mp hstart with hold | hnew
      · exact hi.outside start hold
      · exact List.mem_singleton.mp hnew

theorem reachable_count_inv {files : ℕ → File} {named : Option ℕ} {value : ℕ} {s : Programs}
    (h : Runs.Reachable (Sharing.step (actProgram file pid)) (called files named value) s) :
    CountInv s := by
  refine Runs.reachable_invariant _ CountInv ⟨?_, ?_⟩ step_count_inv h
  · intro _ hcount
    cases hcount
  · intro _ hstart
    cases hstart

/-- A program sees the two finished only after an increment behind the mapped
bytes. -/
theorem never_shares (file : Bytes → ℕ) (pid : Program → ProcessId) (files : ℕ → File)
    (named : Option ℕ) (value : ℕ) (s : Programs)
    (h : Runs.Reachable (Sharing.step (actProgram file pid)) (called files named value) s)
    (hended : ∀ p, (s.procs p).pc.hasEnded = true) : ¬ SharesFile s := by
  intro hshares
  have hi := reachable_count_inv h
  obtain ⟨p, hseen, -⟩ := hshares.one
  have hcount : (s.procs p).pc.hasCount = true := by
    have hpc := hended p
    cases hp : (s.procs p).pc with
    | ended n =>
      rw [hp] at hseen
      rw [show n = some 2 from hseen]
      rfl
    | _ =>
      rw [hp] at hpc
      cases hpc
  obtain ⟨start, hstart⟩ := List.exists_mem_of_ne_nil _ (hi.incremented p hcount)
  have hinside := hshares.inside start hstart
  rw [hi.outside start hstart] at hinside
  revert hinside
  decide

def iteration : List Event :=
  [.run true, .run true, .run true,
    .generate 7 ⟨2024, 6, 1, 12, 30, 15⟩, .run true, .run true, .run true, .run true,
    .run true, .run true]

def wholeProgram (calls : ℕ) : List Event :=
  List.replicate calls (.run true)++(List.replicate 10 iteration).flatten++
    List.replicate 99 (.run true)

def bothPrograms : List (Program × Event) :=
  (wholeProgram 5).map (Program.first, ·)++(wholeProgram 3).map (Program.second, ·)

def twoFiles (name : Bytes) : ℕ := if name = Program.first.filename then 0 else 1

def emptyFiles (_ : ℕ) : File where
  memory := { nextPosition := 0, recordCount := 0, data := fun _ => 0 }
  processesFinished := 0
  touched := []
  resets := 0
  records := []

theorem both_programs_run : (Runs.exec
    (Sharing.step (actProgram twoFiles fun _ => ⟨4243, by decide⟩)) bothPrograms
    (called emptyFiles none 0)).isSome = true := by
  decide +kernel

def bothProgramsEnd : Programs := (Runs.exec
  (Sharing.step (actProgram twoFiles fun _ => ⟨4243, by decide⟩)) bothPrograms
  (called emptyFiles none 0)).get both_programs_run

theorem both_programs_ended : ∀ p, (bothProgramsEnd.procs p).pc.hasEnded = true := by
  intro p
  cases p <;> decide +kernel

theorem both_programs_apart : ¬ SharesFile bothProgramsEnd :=
  never_shares twoFiles (fun _ => ⟨4243, by decide⟩) emptyFiles none 0 bothProgramsEnd
    (Runs.reachable_get both_programs_run) both_programs_ended

/-- The records of the first program are in one file, those of the second in
the other one. -/
theorem programs_write_two_files : ¬ ∀ s : Programs,
    Runs.Reachable (Sharing.step (actProgram twoFiles fun _ => ⟨4243, by decide⟩))
      (called emptyFiles none 0) s →
    (∀ p, (s.procs p).pc.hasEnded = true) → SharesFile s := by
  intro h
  obtain ⟨f, hf⟩ := (h bothProgramsEnd (Runs.reachable_get both_programs_run)
    both_programs_ended).oneFile
  have hzero := hf 0 (by decide +kernel)
  have hone := hf 1 (by decide +kernel)
  rw [← hzero] at hone
  cases hone

end ProgSistema.RecordFile
