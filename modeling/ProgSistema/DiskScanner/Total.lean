import ProgSistema.DiskScanner.Invariant
import ProgSistema.Lib.Tally
import Mathlib.Data.BitVec

/-!
# The total is a sum over the inodes

What the counter has added up is the tally of the nodes it has processed.
When both threads have ended these are the records of the scan, so the total
depends on the set of inodes only: neither the order of the directory
entries nor the schedule has any influence.
-/

set_option autoImplicit false

namespace ProgSistema.DiskScanner
open CRuntime FileTree DirTree

def CounterPc.processing : CounterPc → List NodeInfo
  | process node => [node]
  | _ => []

@[simp] theorem signal_counter_processing (pc : CounterPc) :
    (signalNotEmpty pc).processing = pc.processing := by
  cases pc <;> rfl

def tally (nodes : List NodeInfo) : Tally.State ℕ (BitVec 64) :=
  nodes.foldl (Tally.charge maxInodes NodeInfo.inode fun node => BitVec.ofInt 64 node.size) ⟨[], 0⟩

structure Counted (s : State) : Prop where
  obtained : s.obtained = s.processed++s.counter.processing
  fresh : s.counter = .start → s.processed = []
  tally : tally s.processed = ⟨s.tracker.inodes, s.totalBytes⟩
  processed : s.nodesProcessed = BitVec.ofNat 64 s.processed.length

def ledger (s : State) : List NodeInfo × List NodeInfo × InodeTracker × BitVec 64 × BitVec 64 :=
  (s.obtained, s.processed, s.tracker, s.totalBytes, s.nodesProcessed)

theorem counted_frame {s t : State} (hi : Counted s) (hledger : ledger t = ledger s)
    (hprocessing : t.counter.processing = s.counter.processing)
    (hfresh : t.counter = .start → s.counter = .start) : Counted t := by
  simp only [ledger, Prod.mk.injEq] at hledger
  obtain ⟨hobtained, hprocessed, htracker, htotal, hcount⟩ := hledger
  exact {
    obtained := by rw [hobtained, hprocessed, hprocessing]; exact hi.obtained
    fresh := fun h => by rw [hprocessed]; exact hi.fresh (hfresh h)
    tally := by rw [hprocessed, htracker, htotal]; exact hi.tally
    processed := by rw [hprocessed, hcount]; exact hi.processed }

theorem scanner_ledger {s t : State} (h : stepScanner s = some t) :
    ledger t = ledger s ∧ (t.counter = s.counter ∨ t.counter = signalNotEmpty s.counter) := by
  unfold stepScanner at h
  cases hpc : s.scanner with (rw [hpc] at h; dsimp only at h)
  | scanning =>
    split at h
    · cases h
      exact ⟨rfl, .inl rfl⟩
    · cases h
      exact ⟨rfl, .inl rfl⟩
  | addTest node =>
    split at h
    · cases h
      exact ⟨rfl, .inl rfl⟩
    · obtain ⟨b, -, rfl⟩ := Option.map_eq_some_iff.mp h
      exact ⟨rfl, .inl rfl⟩
  | addLock | addWoken | finishLock =>
    obtain ⟨b, -, rfl⟩ := Option.map_eq_some_iff.mp h
    exact ⟨rfl, .inl rfl⟩
  | addUnlock | finishSet | finishUnlock =>
    cases h
    exact ⟨rfl, .inl rfl⟩
  | addSignal | finishBroadcast =>
    cases h
    exact ⟨rfl, .inr rfl⟩
  | addWaiting | ended => cases h

theorem scanner_counted {s t : State} (hi : Counted s) (h : stepScanner s = some t) :
    Counted t := by
  obtain ⟨hledger, hcounter | hcounter⟩ := scanner_ledger h
  · exact counted_frame hi hledger (by rw [hcounter]) (by rw [hcounter]; exact id)
  · refine counted_frame hi hledger (by rw [hcounter, signal_counter_processing]) ?_
    rw [hcounter]
    cases s.counter <;> simp [signalNotEmpty]

theorem tally_concat (nodes : List NodeInfo) (node : NodeInfo) :
    tally (nodes++[node]) = Tally.charge maxInodes NodeInfo.inode
      (fun node => BitVec.ofInt 64 node.size) (tally nodes) node := by
  simp [tally]

theorem is_inode_visited_spec (tracker : InodeTracker) (inode : ℕ) :
    isInodeVisited tracker inode = (decide (inode ∈ tracker.inodes),
      ⟨Tally.record maxInodes tracker.inodes inode⟩) := by
  have hany : tracker.inodes.any (· = inode) = decide (inode ∈ tracker.inodes) := by
    rw [Bool.eq_iff_iff]
    simp
  rw [isInodeVisited, hany, Tally.record]
  by_cases hmem : inode ∈ tracker.inodes
  · simp [hmem]
  · by_cases hroom : tracker.inodes.length < maxInodes
    · simp [hmem, hroom, InodeTracker.count]
    · simp [hmem, hroom, InodeTracker.count]

theorem process_charges (s : State) (node : NodeInfo) :
    (⟨(processNode s node).tracker.inodes, (processNode s node).totalBytes⟩ :
      Tally.State ℕ (BitVec 64)) =
      Tally.charge maxInodes NodeInfo.inode (fun node => BitVec.ofInt 64 node.size)
        ⟨s.tracker.inodes, s.totalBytes⟩ node := by
  simp [processNode, is_inode_visited_spec, Tally.charge]

theorem counter_processes_counted {s : State} (hi : Counted s) {node : NodeInfo}
    (hpc : s.counter = .process node) :
    Counted { processNode s node with counter := .getLock } where
  obtained := by
    have hobtained := hi.obtained
    rw [hpc] at hobtained
    simpa [processNode, CounterPc.processing] using hobtained
  fresh := by simp
  tally := by
    show tally (s.processed++[node]) = _
    rw [tally_concat, hi.tally]
    exact (process_charges s node).symm
  processed := by
    show s.nodesProcessed+1 = BitVec.ofNat 64 (s.processed++[node]).length
    rw [hi.processed, List.length_append, List.length_singleton, BitVec.ofNat_add]
    rfl

theorem counter_counted {s t : State} (hi : Counted s) (h : stepCounter s = some t) :
    Counted t := by
  unfold stepCounter at h
  cases hpc : s.counter with (rw [hpc] at h; dsimp only at h)
  | start =>
    cases h
    have hnil := hi.fresh hpc
    have htally := hi.tally
    have hobtained := hi.obtained
    rw [hnil] at htally
    rw [hpc] at hobtained
    exact { hi with
      obtained := hobtained
      fresh := by simp
      tally := by
        rw [hnil]
        exact congrArg (fun seen => (⟨seen, 0⟩ : Tally.State ℕ (BitVec 64)))
          (congrArg Tally.State.seen htally) }
  | getLock | getWoken =>
    obtain ⟨b, -, rfl⟩ := Option.map_eq_some_iff.mp h
    exact counted_frame hi rfl (by rw [hpc]; rfl) (by simp)
  | getTest =>
    split at h
    · cases h
      exact counted_frame hi rfl (by rw [hpc]; rfl) (by simp)
    · split at h
      · obtain ⟨⟨node, b⟩, -, rfl⟩ := Option.map_eq_some_iff.mp h
        exact counted_frame hi rfl (by rw [hpc]; rfl) (by simp)
      · cases h
        exact counted_frame hi rfl (by rw [hpc]; rfl) (by simp)
  | getWaiting => cases h
  | getSignal node =>
    cases h
    exact counted_frame hi rfl (by rw [hpc]; rfl) (by simp)
  | getUnlock result =>
    cases result with
    | none =>
      cases h
      exact counted_frame hi rfl (by rw [hpc]; rfl) (by simp)
    | some node =>
      cases h
      have hobtained := hi.obtained
      rw [hpc] at hobtained
      exact { hi with
        obtained := by simpa [CounterPc.processing] using hobtained
        fresh := by simp }
  | process node =>
    cases h
    exact counter_processes_counted hi hpc
  | ended => cases h

theorem wake_counted {s t : State} (hi : Counted s) {a : Thread}
    (h : wakeSpuriously s a = some t) : Counted t := by
  rcases wake_cases h with ⟨node, hpc, rfl⟩ | ⟨hpc, rfl⟩
  · exact counted_frame hi rfl rfl id
  · exact counted_frame hi rfl (by rw [hpc]; rfl) (by simp)

theorem step_counted (a : Action) (s t : State) (hi : Counted s) (h : step a s = some t) :
    Counted t := by
  cases a with
  | run thread =>
    cases thread with
    | scanner => exact scanner_counted hi h
    | counter => exact counter_counted hi h
  | wakeUp thread => exact wake_counted hi h

theorem reachable_counted {work : List NodeInfo} {s : State} (h : Reachable work s) :
    Counted s :=
  Runs.reachable_invariant step Counted ⟨rfl, fun _ => rfl, rfl, rfl⟩ step_counted h

/-- At the end the counter has processed what was passed on, in that order. -/
theorem ended_processed {work : List NodeInfo} {s : State} (h : Reachable work s)
    (hended : s.counter = .ended) : s.processed = work := by
  obtain ⟨-, hall, hwork⟩ := exhausted_delivered (reachable_inv h) (by rw [hended]; rfl)
  have hobtained := (reachable_counted h).obtained
  rw [hended] at hobtained
  rw [← hwork, ← hall, hobtained]
  exact (List.append_nil _).symm

def records (base : Bytes) (es : List (Name × DirTree)) : List NodeInfo :=
  (statuses es).filterMap fun d => d.2.map (nodeInfo (entryPath base d.1))

def Readable (base : Bytes) (es : List (Name × DirTree)) : Prop :=
  (∀ d ∈ statuses es, d.2.isSome = true) ∧ PathsFit maxPathLen base es

theorem scan_meets (fs : FileSystem) (base : Bytes) (ds : List (List Name × Option Stat))
    (acc : Scan) (h : ∀ d ∈ ds, d.2.isSome = true) :
    ds.foldl ((scanVisitor fs).meet base) acc = { acc with
      added := acc.added++ds.filterMap fun d => d.2.map (nodeInfo (entryPath base d.1)) } := by
  induction ds generalizing acc with
  | nil => simp
  | cons d ds ih =>
    obtain ⟨st, hst⟩ := Option.isSome_iff_exists.mp (h d (by simp))
    rw [List.foldl_cons, ih _ (fun d hd => h d (by simp [hd]))]
    simp [Visitor.meet, scanVisitor, hst]

/-- The scan passes on one record for each proper descendant, in pre-order,
without following symbolic links. -/
theorem scan_directory_ok (fs : FileSystem) (fuel : ℕ) (base : Bytes)
    (es : List (Name × DirTree)) (hfuel : heights es < fuel)
    (hs : Shows fs.opendir fs.lstat base es) (hr : Readable base es) :
    scanDirectoryRecursive fs fuel base ⟨[], 0⟩ = .ok ⟨records base es, 0⟩ := by
  rw [scanDirectoryRecursive, visit_directory_ok (scanVisitor fs) fuel base es _ hfuel hs hr.2,
    scan_meets fs base _ _ hr.1]
  rfl

def inodes (es : List (Name × DirTree)) : Finset ℕ :=
  ((statuses es).filterMap fun d => d.2.map Stat.ino).toFinset

/-- On one file system an inode number stands for one file, which has one size. -/
def OneFileSystem (sizeOf : ℕ → ℤ) (es : List (Name × DirTree)) : Prop :=
  ∀ d ∈ statuses es, ∀ st ∈ d.2, st.size = sizeOf st.ino

theorem records_inodes (base : Bytes) (es : List (Name × DirTree)) :
    ((records base es).map NodeInfo.inode).toFinset = inodes es := by
  rw [records, List.map_filterMap, inodes]
  congr 1
  apply List.filterMap_congr
  intro d _
  rw [Option.map_map]
  rfl

theorem record_size {base : Bytes} {es : List (Name × DirTree)} {sizeOf : ℕ → ℤ}
    (h : OneFileSystem sizeOf es) {node : NodeInfo} (hnode : node ∈ records base es) :
    node.size = sizeOf node.inode := by
  obtain ⟨d, hd, hsome⟩ := List.mem_filterMap.mp hnode
  obtain ⟨st, hst, rfl⟩ := Option.map_eq_some_iff.mp hsome
  exact h d hd st hst

theorem tally_charged {base : Bytes} {es : List (Name × DirTree)} {sizeOf : ℕ → ℤ}
    (hone : OneFileSystem sizeOf es) (hroom : (inodes es).card ≤ maxInodes)
    {work : List NodeInfo} (hwork : work.Perm (records base es)) :
    Tally.Charged NodeInfo.inode (fun i => BitVec.ofInt 64 (sizeOf i)) work (tally work) ∧
      (work.map NodeInfo.inode).toFinset = inodes es := by
  have hinodes : (work.map NodeInfo.inode).toFinset = inodes es := by
    rw [List.toFinset_eq_of_perm _ _ (hwork.map _), records_inodes]
  refine ⟨Tally.foldl_charged maxInodes NodeInfo.inode _ _ work ?_ (by rwa [hinodes]), hinodes⟩
  intro node hnode
  rw [record_size hone (hwork.subset hnode)]

theorem of_int_sum (ks : Finset ℕ) (f : ℕ → ℤ) :
    ∑ k ∈ ks, BitVec.ofInt 64 (f k) = BitVec.ofInt 64 (∑ k ∈ ks, f k) := by
  induction ks using Finset.induction_on with
  | empty => rfl
  | insert k ks hk ih => rw [Finset.sum_insert hk, Finset.sum_insert hk, ih, BitVec.ofInt_add]

theorem to_nat_of_int (z : ℤ) : ((BitVec.ofInt 64 z).toNat : ℤ) = z % 2^64 := by
  rw [BitVec.toNat_ofInt, Int.toNat_of_nonneg (Int.emod_nonneg _ (by decide))]
  rfl

/-- Whatever the order in which the directories list their entries and
whatever the schedule, both threads end with the sizes of the different
inodes added up once each, and with each entry below the start directory
processed once. -/
theorem total_of_inodes (es es' : List (Name × DirTree)) (sizeOf : ℕ → ℤ) (fs : FileSystem)
    (base : Bytes) (hone : OneFileSystem sizeOf es) (hread : Readable base es)
    (hroom : (inodes es).card ≤ maxInodes) (horder : Reordered es es')
    (hshows : Shows fs.opendir fs.lstat base es') (fuel : ℕ) (hfuel : heights es' < fuel) :
    ∃ work, scanDirectoryRecursive fs fuel base ⟨[], 0⟩ = .ok ⟨work, 0⟩ ∧
      work.Perm (records base es) ∧
      ∀ s, Reachable work s → s.scanner = .ended → s.counter = .ended →
        (s.totalBytes.toNat : ℤ) = (∑ i ∈ inodes es, sizeOf i) % 2^64 ∧
          s.processed = work ∧ s.nodesProcessed = BitVec.ofNat 64 work.length ∧
          s.tracker.inodes.Nodup ∧ s.tracker.inodes.toFinset = inodes es := by
  have hperm := statuses_reordered horder
  have hread' : Readable base es' :=
    ⟨fun d hd => hread.1 d (hperm.symm.subset hd), fun d hd => hread.2 d (hperm.symm.subset hd)⟩
  have hwork : (records base es').Perm (records base es) := (hperm.symm.filterMap _)
  refine ⟨records base es', scan_directory_ok fs fuel base es' hfuel hshows hread',
    hwork, ?_⟩
  intro s hs _ hended
  have hprocessed := ended_processed hs hended
  have hcounted := reachable_counted hs
  have htally := hcounted.tally
  have hcount := hcounted.processed
  obtain ⟨hcharged, hinodes⟩ := tally_charged hone hroom hwork
  rw [hprocessed] at htally hcount
  rw [htally] at hcharged
  have hkeys : s.tracker.inodes.toFinset = inodes es := hcharged.keys.trans hinodes
  have htotal : s.totalBytes = BitVec.ofInt 64 (∑ i ∈ inodes es, sizeOf i) := by
    rw [← of_int_sum, ← hinodes]
    exact hcharged.total
  exact ⟨by rw [htotal, to_nat_of_int], hprocessed, hcount, hcharged.nodup, hkeys⟩

def sampleDir : Name := ⟨text "dir", by decide, by decide, by decide, by decide, by decide⟩
def sampleFile : Name := ⟨text "file", by decide, by decide, by decide, by decide, by decide⟩
def sampleLink : Name := ⟨text "link", by decide, by decide, by decide, by decide, by decide⟩

def sampleLeaf (type : FileType) (ino : ℕ) (size : ℤ) (h : type ≠ .directory) : DirTree :=
  .leaf (some ⟨type, ino, size, 2, 0⟩) (by rintro s ⟨⟩; exact h)

def sampleData : DirTree := sampleLeaf .regular 5 7 (by decide)

def sampleSymlink : DirTree := sampleLeaf .symlink 6 3 (by decide)

def sampleSub : DirTree := .dir ⟨.directory, 2, 4096, 2, 0⟩ rfl [(sampleFile, sampleData)]

def sampleEntries : List (Name × DirTree) :=
  [(sampleDir, sampleSub), (sampleFile, sampleData), (sampleLink, sampleSymlink)]

def sampleListed : List (Name × DirTree) :=
  [(sampleLink, sampleSymlink), (sampleFile, sampleData), (sampleDir, sampleSub)]

def sampleHost : Host :=
  let root : DirTree := .dir ⟨.directory, 1, 4096, 2, 0⟩ rfl sampleListed
  ⟨root, [root]⟩

def sampleSize (ino : ℕ) : ℤ := if ino = 2 then 4096 else if ino = 5 then 7 else 3

theorem sample_readable : Readable (text "/") sampleListed := by
  unfold Readable PathsFit
  decide

theorem sample_shows :
    Shows sampleHost.fileSystem.opendir sampleHost.fileSystem.lstat (text "/") sampleListed := by
  have hsub : sampleSub.Distinct := by
    refine .dir _ _ _ (by decide) (fun e he => ?_)
    rw [List.mem_singleton.mp he]
    exact .leaf _ _
  have hroot : sampleHost.root.Distinct := by
    refine .dir _ _ _ (by decide) ?_
    simp only [sampleListed, List.forall_mem_cons]
    exact ⟨.leaf _ _, .leaf _ _, hsub, by simp⟩
  exact shows_of_names (sampleHost.lookup_names hroot (text "/") [] (by rfl))

def sampleSchedule : List Action := schedule [(25, .run .scanner), (24, .run .counter)]

theorem sample_schedule_runs : (Runs.exec step sampleSchedule
    (initial (records (text "/") sampleListed))).isSome = true := by
  decide

def sampleFinal : State :=
  (Runs.exec step sampleSchedule (initial (records (text "/") sampleListed))).get
    sample_schedule_runs

theorem sample_total : (sampleFinal.totalBytes.toNat : ℤ) = 4096+7+3 := by
  obtain ⟨work, hscan, -, hend⟩ := total_of_inodes sampleEntries sampleListed sampleSize
    sampleHost.fileSystem (text "/") (by unfold OneFileSystem; decide)
    (by unfold Readable PathsFit; decide) (by decide) (.perm (List.reverse_perm _).symm) sample_shows 3 (by decide)
  have hwork : work = records (text "/") sampleListed := by
    have hok := scan_directory_ok sampleHost.fileSystem 3 (text "/") sampleListed
      (by decide) sample_shows sample_readable
    rw [hscan] at hok
    exact congrArg Scan.added (Except.ok.inj hok)
  subst hwork
  have hreach : Reachable (records (text "/") sampleListed) sampleFinal :=
    Runs.reachable_get sample_schedule_runs
  rw [(hend sampleFinal hreach (by decide) (by decide)).1]
  decide

end ProgSistema.DiskScanner
