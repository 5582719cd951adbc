import ProgSistema.DiskScanner.Total

/-!
# The documented total

The result is meant to be the sum of the sizes of the files of the tree, the
start directory included, where a file is a device and an inode. The scan passes
on no record of the start directory and no device, and the table of inodes is
bounded: a file is missed when another one has left its number in the table, and
charged again when its number has not fitted.
-/

set_option autoImplicit false

namespace ProgSistema.DiskScanner
open CRuntime FileTree DirTree

section
variable (device : List Name → ℕ)

def files (es : List (Name × DirTree)) : List ((ℕ × ℕ) × ℤ) :=
  (statuses es).filterMap fun d => d.2.map fun st => ((device d.1, st.ino), st.size)

def startFile (start : Stat) : ℕ × ℕ := (device [], start.ino)

def treeFiles (start : Stat) (es : List (Name × DirTree)) : Finset (ℕ × ℕ) :=
  insert (startFile device start) ((files device es).map Prod.fst).toFinset

/-- The files of the entries whose number is not among the first `maxInodes`
numbers before them. -/
def charged (es : List (Name × DirTree)) : List (ℕ × ℕ) :=
  (Tally.chargedAfter maxInodes (fun file => file.1.2) [] (files device es)).map Prod.fst

def OneSize (sizeOf : ℕ × ℕ → ℤ) (start : Stat) (es : List (Name × DirTree)) : Prop :=
  start.size = sizeOf (startFile device start) ∧ ∀ file ∈ files device es, file.2 = sizeOf file.1

theorem charged_in_tree (start : Stat) (es : List (Name × DirTree)) :
    (charged device es).toFinset ⊆ treeFiles device start es := by
  intro file hfile
  rw [List.mem_toFinset, charged, List.mem_map] at hfile
  obtain ⟨x, hx, rfl⟩ := hfile
  refine Finset.mem_insert_of_mem (List.mem_toFinset.mpr (List.mem_map_of_mem ?_))
  exact (Tally.charged_after_subset _ _ _ _).subset hx

/-- The counter makes the same of the records as of the files. -/
theorem tally_files (base : Bytes) (es : List (Name × DirTree)) :
    tally (records base es) = (files device es).foldl (Tally.charge maxInodes
      (fun file => file.1.2) fun file => BitVec.ofInt 64 file.2) ⟨[], 0⟩ := by
  unfold tally records files
  generalize (⟨[], 0⟩ : Tally.State ℕ (BitVec 64)) = s
  induction statuses es generalizing s with
  | nil => rfl
  | cons d ds ih =>
    cases hst : d.2 with
    | none =>
      rw [List.filterMap_cons_none (by rw [hst]; rfl), List.filterMap_cons_none (by rw [hst]; rfl)]
      exact ih s
    | some st =>
      rw [List.filterMap_cons_some (by rw [hst]; rfl), List.filterMap_cons_some (by rw [hst]; rfl)]
      exact ih _

theorem tally_total (base : Bytes) {start : Stat} {es : List (Name × DirTree)}
    {sizeOf : ℕ × ℕ → ℤ} (h : OneSize device sizeOf start es) :
    (tally (records base es)).total = BitVec.ofInt 64 ((charged device es).map sizeOf).sum := by
  have hempty : (⟨[], 0⟩ : Tally.State ℕ (BitVec 64)) =
      ⟨(Tally.firstKeys []).take maxInodes, 0⟩ := rfl
  rw [tally_files device, hempty, Tally.charged_after_total, zero_add, charged, List.map_map]
  have hsize : ∀ file ∈ Tally.chargedAfter maxInodes (fun file : (ℕ × ℕ) × ℤ => file.1.2) []
      (files device es), file.2 = sizeOf file.1 :=
    fun file hfile => h.2 file ((Tally.charged_after_subset _ _ _ _).subset hfile)
  generalize Tally.chargedAfter maxInodes (fun file : (ℕ × ℕ) × ℤ => file.1.2) []
    (files device es) = items at hsize ⊢
  induction items with
  | nil => rfl
  | cons file items ih =>
    rw [List.map_cons, List.map_cons, List.sum_cons, List.sum_cons,
      ih fun file hfile => hsize file (by simp [hfile]), BitVec.ofInt_add, Function.comp_apply,
      hsize file (by simp)]

/-- For a total that fits in its variable, whatever the schedule: both threads
end with the documented total exactly when what is missed of it weighs the
same, modulo 2^64, as what is charged again. -/
theorem documented_total_iff (fs : FileSystem) (base : Bytes) (start : Stat)
    (es : List (Name × DirTree)) (sizeOf : ℕ × ℕ → ℤ) (_hstart : fs.lstat base = some start)
    (hsize : OneSize device sizeOf start es) (hread : Readable base es)
    (hshows : Shows fs.opendir fs.lstat base es) (fuel : ℕ) (hfuel : heights es < fuel) :
    ∃ work, scanDirectoryRecursive fs fuel base ⟨[], 0⟩ = .ok ⟨work, 0⟩ ∧
      ∀ s, Reachable work s → s.scanner = .ended → s.counter = .ended →
        ((s.totalBytes.toNat : ℤ) = ∑ file ∈ treeFiles device start es, sizeOf file ↔
          ∑ file ∈ treeFiles device start es, sizeOf file ∈ Set.Ico 0 (2^64) ∧
            Tally.missed sizeOf (treeFiles device start es) (charged device es) ≡
              Tally.repeated sizeOf (charged device es) [ZMOD 2^64]) := by
  refine ⟨records base es, scan_directory_ok fs fuel base es hfuel hshows hread, ?_⟩
  intro s hs _ hended
  have htally := (reachable_counted hs).tally
  rw [ended_processed hs hended] at htally
  have htotal := tally_total device base hsize
  rw [htally] at htotal
  dsimp only at htotal
  rw [htotal, to_nat_of_int]
  have hbalance := Tally.charged_balance sizeOf (charged_in_tree device start es)
  generalize ((charged device es).map sizeOf).sum = total at hbalance ⊢
  generalize ∑ file ∈ treeFiles device start es, sizeOf file = due at hbalance ⊢
  have hmod : total ≡ due [ZMOD 2^64] ↔
      Tally.missed sizeOf (treeFiles device start es) (charged device es) ≡
        Tally.repeated sizeOf (charged device es) [ZMOD 2^64] := by
    rw [Int.modEq_iff_dvd, Int.modEq_iff_dvd]
    rw [show due-total = Tally.missed sizeOf (treeFiles device start es) (charged device es)-
      Tally.repeated sizeOf (charged device es) by omega, ← Int.dvd_neg, neg_sub]
  rw [← hmod, Set.mem_Ico]
  constructor
  · intro heq
    refine ⟨?_, ?_⟩
    · rw [← heq]
      exact ⟨Int.emod_nonneg _ (by decide), Int.emod_lt_of_pos _ (by decide)⟩
    · rw [← heq]
      exact (Int.mod_modEq _ _).symm
  · rintro ⟨⟨hnonneg, hlt⟩, hcong⟩
    rw [hcong, Int.emod_eq_of_lt hnonneg hlt]

end

def startStat : Stat := ⟨.directory, 1, 4096, 2, 0⟩

def sampleFileSize (file : ℕ × ℕ) : ℤ := if file.2 = 1 then 4096 else sampleSize file.2

/-- On one device, without the bytes of the start directory. -/
theorem sample_start_missed : (sampleFinal.totalBytes.toNat : ℤ) ≠
    ∑ file ∈ treeFiles (fun _ => 8) startStat sampleListed, sampleFileSize file := by
  obtain ⟨work, hscan, hend⟩ := documented_total_iff (fun _ => 8) sampleHost.fileSystem (text "/")
    startStat sampleListed sampleFileSize (by rfl) (by unfold OneSize; decide)
    sample_readable sample_shows 3 (by decide)
  have hwork : work = records (text "/") sampleListed := by
    have hok := scan_directory_ok sampleHost.fileSystem 3 (text "/") sampleListed
      (by decide) sample_shows sample_readable
    rw [hscan] at hok
    exact congrArg Scan.added (Except.ok.inj hok)
  subst hwork
  intro heq
  have hcong := ((hend sampleFinal (Runs.reachable_get sample_schedule_runs) (by decide)
    (by decide)).mp heq).2
  revert hcong
  decide

/-- A scan of an empty directory ends with nothing; its documented total is the
size of the directory. -/
theorem empty_directory_missed :
    (Runs.exec step (schedule [(5, .run .scanner), (4, .run .counter)]) (initial [])).map
        (fun s => (s.scanner, s.counter, s.totalBytes)) = some (.ended, .ended, 0) ∧
      records (text "/") [] = [] ∧
      ∑ file ∈ treeFiles (fun _ => 8) startStat [], sampleFileSize file = 4096 := by
  decide

end ProgSistema.DiskScanner
