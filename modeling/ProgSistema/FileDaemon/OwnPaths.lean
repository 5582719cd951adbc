import ProgSistema.FileDaemon.Monitor
import ProgSistema.Lib.VisitTrace

/-!
# The paths of a scan

A path that does not fit in the buffer is cut off, and the scan goes on with
what is left of it. That may name another entry of the directory, the directory
itself or something outside of it.
-/

set_option autoImplicit false

namespace ProgSistema.FileDaemon
open CRuntime FileTree DirTree

/-- A scan returns, collects regular files only, each once and under its own
path, and goes from a directory to its children only. -/
structure OwnPaths (fs : FileSystem) (base : Bytes) (root : DirTree) : Prop where
  collects : ∀ fc heap, ∃ fuel fc' heap' added,
    collectAllFilesRecursive fs fuel base fc heap = .ok (0, fc', heap') ∧
      fc'.files = added++fc.files ∧ Distinct added ∧
      ∀ f ∈ added, f ∈ regularFiles base root.entries
  descends : ∀ p q, Relation.ReflTransGen (fileVisitor fs).Calls base p →
    (fileVisitor fs).Calls p q → ∃ ns d e, Leads root ns d ∧ e ∈ d.entries ∧
      e.2.isDirectory = true ∧ p = entryPath base ns ∧ q = p++slash::e.1.bytes

/-- What a path that has been cut off names is neither a regular file nor a
directory, unless it is a child directory without entries. -/
def Harmless (fs : FileSystem) (p : Bytes) (es : List (Name × DirTree)) (q : Bytes) : Prop :=
  ∀ st, fs.stat q = some st → st.type ≠ .regular ∧ (st.type = .directory →
    ∃ e ∈ es, e.2.isDirectory = true ∧ e.2.entries = [] ∧ q = p++slash::e.1.bytes)

/-- The entries whose paths are cut off are harmless, in the directory and in
those below it whose paths are not. -/
inductive Unambiguous (fs : FileSystem) : Bytes → List (Name × DirTree) → Prop where
  | intro {p : Bytes} {es : List (Name × DirTree)} :
    (∀ e ∈ es, fullPathSize ≤ (p++slash::e.1.bytes).length →
      Harmless fs p es (snprintf fullPathSize (p++slash::e.1.bytes))) →
    (∀ e ∈ es, (p++slash::e.1.bytes).length < fullPathSize → e.2.isDirectory = true →
      Unambiguous fs (p++slash::e.1.bytes) e.2.entries) → Unambiguous fs p es

def recordedFile (e : Bytes × Stat) : Option FileSnapshot :=
  if e.2.type = .regular then some ⟨e.1, e.2.mtime, e.2.size⟩ else none

/-! What a scan collects. -/

section
variable (fs : FileSystem) (log : List (Bytes × Stat))

def collected (s : FileCollection × Heap) : FileCollection × Heap :=
  log.foldl (fun s e => (fileVisitor fs).visit e.1 e.2 s) s

theorem create_snapshot_cases (filepath : Bytes) (mtime size : ℤ) (heap : Heap) : ∃ heap',
    createFileSnapshot filepath mtime size heap = (none, heap') ∨
      createFileSnapshot filepath mtime size heap = (some ⟨filepath, mtime, size⟩, heap') := by
  unfold createFileSnapshot allocate
  by_cases hsnapshot : heap 0 = true
  · by_cases hpath : heap 1 = true
    · exact ⟨fun n => heap (n+1+1), .inr (by simp [hsnapshot, hpath])⟩
    · exact ⟨fun n => heap (n+1+1), .inl (by simp [hsnapshot, hpath])⟩
  · exact ⟨_, .inl (if_neg hsnapshot)⟩

theorem visit_adds (e : Bytes × Stat) (fc : FileCollection) (heap : Heap) :
    ∃ fc' heap' added, (fileVisitor fs).visit e.1 e.2 (fc, heap) = (fc', heap') ∧
      fc'.files = added++fc.files ∧ added.Sublist (recordedFile e).toList := by
  by_cases htype : e.2.type = .regular
  · have hvisit : (fileVisitor fs).visit e.1 e.2 (fc, heap) =
        addFileToCollection fc e.1 e.2.mtime e.2.size heap := if_pos htype
    have hsome : recordedFile e = some ⟨e.1, e.2.mtime, e.2.size⟩ := if_pos htype
    rw [hvisit, hsome, addFileToCollection]
    obtain ⟨heap', hcreate | hcreate⟩ := create_snapshot_cases e.1 e.2.mtime e.2.size heap
    · rw [hcreate]
      exact ⟨fc, heap', [], rfl, rfl, List.nil_sublist _⟩
    · rw [hcreate]
      exact ⟨_, heap', [_], rfl, rfl, List.Sublist.refl _⟩
  · have hvisit : (fileVisitor fs).visit e.1 e.2 (fc, heap) = (fc, heap) := if_neg htype
    exact ⟨fc, heap, [], hvisit, rfl, List.nil_sublist _⟩

theorem collected_adds (fc : FileCollection) (heap : Heap) : ∃ fc' heap' added,
    collected fs log (fc, heap) = (fc', heap') ∧ fc'.files = added++fc.files ∧
      added.reverse.Sublist (log.filterMap recordedFile) := by
  induction log generalizing fc heap with
  | nil => exact ⟨fc, heap, [], rfl, rfl, List.nil_sublist _⟩
  | cons e log ih =>
    obtain ⟨fc₁, heap₁, first, hvisit, hfirst, hsub⟩ := visit_adds fs e fc heap
    obtain ⟨fc', heap', rest, hrest, hfiles, hsub'⟩ := ih fc₁ heap₁
    refine ⟨fc', heap', rest++first, ?_, ?_, ?_⟩
    · rw [collected, List.foldl_cons, hvisit]
      exact hrest
    · rw [hfiles, hfirst, List.append_assoc]
    · have hcons : (e::log).filterMap recordedFile =
          (recordedFile e).toList++log.filterMap recordedFile := by
        cases h : recordedFile e <;> simp [h]
      have hrev : first.reverse.Sublist (recordedFile e).toList := by
        cases h : recordedFile e <;> rw [h] at hsub <;> simpa using hsub.reverse
      rw [List.reverse_append, hcons]
      exact hrev.append hsub'

theorem collected_all (fc : FileCollection) : ∃ fc',
    collected fs log (fc, alwaysSucceeds) = (fc', alwaysSucceeds) ∧
      fc'.files = (log.filterMap recordedFile).reverse++fc.files := by
  induction log generalizing fc with
  | nil => exact ⟨fc, rfl, rfl⟩
  | cons e log ih =>
    by_cases htype : e.2.type = .regular
    · obtain ⟨fc', hrest, hfiles⟩ := ih
        ⟨⟨e.1, e.2.mtime, e.2.size⟩::fc.files, toInt (fc.fileCount+1),
            toLong (fc.totalSize+e.2.size)⟩
      have hsome : recordedFile e = some ⟨e.1, e.2.mtime, e.2.size⟩ := if_pos htype
      refine ⟨fc', ?_, by rw [hfiles, List.filterMap_cons_some hsome]; simp⟩
      rw [← hrest, collected, List.foldl_cons]
      simp only [collected, fileVisitor, htype, if_true, add_file_ok]
    · obtain ⟨fc', hrest, hfiles⟩ := ih fc
      have hnone : recordedFile e = none := if_neg htype
      refine ⟨fc', ?_, by rw [hfiles, List.filterMap_cons_none hnone]⟩
      rw [← hrest, collected, List.foldl_cons]
      simp only [collected, fileVisitor, htype, if_false]

end

variable {fs : FileSystem}

theorem collect_trace (fuel : ℕ) (base : Bytes) (fc : FileCollection) (heap : Heap) :
    collectAllFilesRecursive fs fuel base fc heap =
      ((fileVisitor fs).trace fuel base).map fun log =>
        (if (fs.opendir base).isSome then 0 else -1, collected fs log (fc, heap)) := by
  rw [collectAllFilesRecursive, directory_trace _ (fun _ => rfl) fun _ => rfl]
  cases (fileVisitor fs).trace fuel base <;> rfl

/-! The regular files of a directory, entry by entry. -/

theorem regular_files_append (base : Bytes) (e : Name × DirTree) (es : List (Name × DirTree)) :
    regularFiles base (e::es) = regularFiles base [e]++regularFiles base es := by
  obtain ⟨n, t⟩ := e
  have hnil : statuses [] = [] := rfl
  rw [regularFiles, regularFiles, statuses_cons, statuses_cons, hnil, List.append_nil,
    List.filterMap_append]
  rfl

theorem regular_files_entry (base : Bytes) (n : Name) (t : DirTree) :
    regularFiles base [(n, t)] =
      (regularFile base ([n], t.status)).toList++regularFiles (base++slash::n.bytes) t.entries := by
  have hnil : statuses [] = [] := rfl
  have hbelow : (regularFile base ∘ fun d : List Name × Option Stat => (n::d.1, d.2)) =
      regularFile (base++slash::n.bytes) := by
    funext d
    rw [Function.comp_apply, regularFile, regularFile, entry_path_cons]
  rw [regularFiles, statuses_cons, hnil, List.append_nil, ← List.singleton_append,
    List.filterMap_append, List.filterMap_map, hbelow]
  congr 1

theorem cut_length {s : Bytes} (h : fullPathSize ≤ s.length) :
    (snprintf fullPathSize s).length+1 = fullPathSize := by
  rw [snprintf, List.length_take]
  unfold fullPathSize at h ⊢
  omega

theorem met_entry (p : Bytes) (n : Name) : (fileVisitor fs).met p n.bytes =
    (fs.stat (snprintf fullPathSize (p++slash::n.bytes))).map
      fun st => (snprintf fullPathSize (p++slash::n.bytes), st) :=
  if_neg (by simp [n.notDot, n.notDotdot])

theorem directory_of_status {t : DirTree} {st : Stat} (h : t.status = some st)
    (hdir : st.type = .directory) : t.isDirectory = true := by
  cases t with
  | leaf st' hleaf => exact absurd hdir (hleaf st h)
  | dir => rfl

theorem status_of_directory {t : DirTree} (h : t.isDirectory = true) :
    ∃ st, t.status = some st ∧ st.type = .directory := by
  cases t with
  | leaf => cases h
  | dir st hst => exact ⟨st, rfl, hst⟩

abbrev Shown (fs : FileSystem) (p : Bytes) (t : DirTree) : Prop :=
  NamesWithin fs.opendir fs.stat fullPathSize p t

/-- The directories that a visit of a directory leads to are those that the
paths built for its entries name. -/
theorem calls_iff {p q : Bytes} {d : DirTree} (hn : Shown fs p d) (hdir : d.isDirectory = true) :
    (fileVisitor fs).Calls p q ↔
      ∃ e ∈ d.entries, q = snprintf fullPathSize (p++slash::e.1.bytes) ∧
        ∃ st, fs.stat q = some st ∧ st.type = .directory := by
  obtain ⟨stream, hopen, hstream⟩ := within_stream hn hdir
  constructor
  · rintro ⟨stream', name, st, hopen', hname, hmet, hst'⟩
    cases (hopen.symm.trans hopen' : some stream = some stream')
    have hkeep : ¬ (name = dot ∨ name = dotdot) := by
      intro hdot
      rw [Visitor.met, if_pos hdot] at hmet
      cases hmet
    have hmem : name ∈ d.entries.map fun e => e.1.bytes := by
      rw [← hstream, List.mem_filter]
      exact ⟨hname, by simpa using hkeep⟩
    obtain ⟨e, he, rfl⟩ := List.mem_map.mp hmem
    rw [met_entry, Option.map_eq_some_iff] at hmet
    obtain ⟨st', hst, heq⟩ := hmet
    cases heq
    exact ⟨e, he, rfl, st, hst, hst'⟩
  · rintro ⟨e, he, rfl, st, hst, htype⟩
    have hmem : e.1.bytes ∈ stream.filter fun d => d ≠ dot ∧ d ≠ dotdot := by
      rw [hstream]
      exact List.mem_map_of_mem he
    refine ⟨stream, e.1.bytes, st, hopen, (List.mem_filter.mp hmem).1, ?_, htype⟩
    rw [met_entry, hst]
    rfl

/-! A scan of an unambiguous directory. -/

theorem empty_traced {p : Bytes} {t : DirTree} {fuel : ℕ} (hn : Shown fs p t)
    (hdir : t.isDirectory = true) (hempty : t.entries = []) (hfuel : 0 < fuel) :
    (fileVisitor fs).trace fuel p = .ok [] := by
  obtain ⟨stream, hopen, hstream⟩ := within_stream hn hdir
  obtain ⟨fuel, rfl⟩ := Nat.exists_eq_succ_of_ne_zero hfuel.ne'
  have hopen' : (fileVisitor fs).opendir p = some stream := hopen
  rw [Visitor.trace, hopen']
  dsimp only
  rw [trace_entries_filter, hstream, hempty]
  rfl

/-- What the scan meets of one entry, and what it collects of that. -/
theorem entry_traced {p : Bytes} {d : DirTree} {fuel : ℕ} {e : Name × DirTree}
    (he : e ∈ d.entries) (hn : Shown fs p d) (hu : Unambiguous fs p d.entries)
    (hfuel : heights d.entries ≤ fuel)
    (hbelow : e.2.isDirectory = true → (p++slash::e.1.bytes).length < fullPathSize → ∃ log,
      (fileVisitor fs).trace fuel (p++slash::e.1.bytes) = .ok log ∧
        (log.filterMap recordedFile).Sublist
          (regularFiles (p++slash::e.1.bytes) e.2.entries)) :
    (fileVisitor fs).met p e.1.bytes = none ∨ ∃ q st below,
      (fileVisitor fs).met p e.1.bytes = some (q, st) ∧
        (if st.type = .directory then (fileVisitor fs).trace fuel q else .ok []) = .ok below ∧
        (((q, st)::below).filterMap recordedFile).Sublist (regularFiles p [e]) := by
  obtain ⟨n, t⟩ := e
  have hdirectory : ∀ {q : Bytes} {st : Stat}, st.type = .directory →
      recordedFile (q, st) = none := by
    intro q st hdir
    exact if_neg (by rw [hdir]; decide)
  rw [met_entry, regular_files_entry]
  cases hst : fs.stat (snprintf fullPathSize (p++slash::n.bytes)) with
  | none => exact .inl rfl
  | some st =>
    refine .inr ⟨snprintf fullPathSize (p++slash::n.bytes), st, ?_⟩
    cases hu with
    | intro hharmless _ =>
      by_cases hfits : (p++slash::n.bytes).length < fullPathSize
      · have hstatus := within_status (within_entry hn he hfits)
        rw [snprintf_fits _ _ hfits] at hst ⊢
        rw [hstatus] at hst
        by_cases hdir : st.type = .directory
        · obtain ⟨log, hlog, hsub⟩ := hbelow (directory_of_status hst hdir) hfits
          refine ⟨log, rfl, by rw [if_pos hdir, hlog], ?_⟩
          rw [List.filterMap_cons_none (hdirectory hdir)]
          exact hsub.trans (List.sublist_append_right _ _)
        · refine ⟨[], rfl, if_neg hdir, ?_⟩
          have hsame : regularFile p ([n], t.status) = recordedFile (p++slash::n.bytes, st) := by
            rw [hst]
            simp [regularFile, recordedFile, entryPath]
          rw [hsame]
          cases hrecorded : recordedFile (p++slash::n.bytes, st) <;> simp [hrecorded]
      · obtain ⟨hregular, hchild⟩ := hharmless (n, t) he (not_lt.mp hfits) st hst
        refine ⟨[], rfl, ?_, ?_⟩
        · by_cases hdir : st.type = .directory
          · obtain ⟨c, hc, hisDir, hempty, hq⟩ := hchild hdir
            have hpos : 0 < fuel := by
              refine lt_of_lt_of_le ?_ ((height_le_heights hc).trans hfuel)
              cases hc2 : c.2 with
              | leaf => rw [hc2] at hisDir; cases hisDir
              | dir => exact Nat.succ_pos _
            have hlength := cut_length (not_lt.mp hfits)
            rw [hq] at hlength ⊢
            rw [if_pos hdir]
            exact empty_traced (within_entry hn hc (by omega)) hisDir hempty hpos
          · exact if_neg hdir
        · have hnone : recordedFile (snprintf fullPathSize (p++slash::n.bytes), st) = none :=
            if_neg hregular
          rw [List.filterMap_cons_none hnone]
          exact List.nil_sublist _

theorem entries_traced {p : Bytes} {fuel : ℕ} {es : List (Name × DirTree)}
    (hentry : ∀ e ∈ es, (fileVisitor fs).met p e.1.bytes = none ∨ ∃ q st below,
      (fileVisitor fs).met p e.1.bytes = some (q, st) ∧
        (if st.type = .directory then (fileVisitor fs).trace fuel q else .ok []) = .ok below ∧
        (((q, st)::below).filterMap recordedFile).Sublist (regularFiles p [e])) : ∃ log,
    (fileVisitor fs).traceEntries ((fileVisitor fs).trace fuel) p (es.map fun e => e.1.bytes) =
      .ok log ∧ (log.filterMap recordedFile).Sublist (regularFiles p es) := by
  induction es with
  | nil => exact ⟨[], rfl, List.nil_sublist _⟩
  | cons e es ih =>
    obtain ⟨rest, hrest, hsub⟩ := ih fun d hd => hentry d (by simp [hd])
    rw [List.map_cons, Visitor.traceEntries, regular_files_append]
    rcases hentry e (by simp) with hnone | ⟨q, st, below, hmet, hbelow, hsub'⟩
    · rw [hnone]
      exact ⟨rest, hrest, hsub.trans (List.sublist_append_right _ _)⟩
    · refine ⟨(q, st)::(below++rest), ?_, ?_⟩
      · rw [hmet]
        dsimp only
        rw [hbelow, hrest]
        rfl
      · rw [← List.cons_append, List.filterMap_append]
        exact hsub'.append hsub

theorem unambiguous_traced {fuel : ℕ} {p : Bytes} {d : DirTree} (hdir : d.isDirectory = true)
    (hfuel : heights d.entries < fuel) (hn : Shown fs p d) (hu : Unambiguous fs p d.entries) :
    ∃ log, (fileVisitor fs).trace fuel p = .ok log ∧
      (log.filterMap recordedFile).Sublist (regularFiles p d.entries) := by
  induction fuel generalizing p d with
  | zero => omega
  | succ fuel ih =>
    obtain ⟨stream, hopen, hstream⟩ := within_stream hn hdir
    have hopen' : (fileVisitor fs).opendir p = some stream := hopen
    rw [Visitor.trace, hopen']
    dsimp only
    rw [trace_entries_filter, hstream]
    apply entries_traced
    intro e he
    apply entry_traced he hn hu (Nat.lt_succ_iff.mp hfuel)
    intro hchild hfits
    cases hu with
    | intro _ hsub =>
      have hheight := height_le_heights he
      have hlower : heights e.2.entries < fuel := by
        cases he2 : e.2 with
        | leaf => rw [he2] at hchild; cases hchild
        | dir st hst sub =>
          rw [he2] at hheight
          have hsub' : heights sub+1 ≤ heights d.entries := hheight
          show heights sub < fuel
          omega
      exact ih hchild hlower (within_entry hn he hfits) (hsub e he hfits hchild)

/-- Every directory that the scan of an unambiguous directory leads to is a
child, and unambiguous itself. -/
theorem unambiguous_child {p q : Bytes} {d : DirTree} (hn : Shown fs p d)
    (hdir : d.isDirectory = true) (hu : Unambiguous fs p d.entries)
    (h : (fileVisitor fs).Calls p q) : ∃ e ∈ d.entries, e.2.isDirectory = true ∧
      q = p++slash::e.1.bytes ∧ Shown fs q e.2 ∧ Unambiguous fs q e.2.entries := by
  obtain ⟨e, he, rfl, st, hst, htype⟩ := (calls_iff hn hdir).mp h
  cases hu with
  | intro hharmless hsub =>
    by_cases hfits : (p++slash::e.1.bytes).length < fullPathSize
    · rw [snprintf_fits _ _ hfits] at hst ⊢
      have hshown := within_entry hn he hfits
      rw [within_status hshown] at hst
      have hchild := directory_of_status hst htype
      exact ⟨e, he, hchild, rfl, hshown, hsub e he hfits hchild⟩
    · obtain ⟨c, hc, hchild, hempty, hq⟩ :=
        (hharmless e he (not_lt.mp hfits) st hst).2 htype
      have hlength := cut_length (not_lt.mp hfits)
      rw [hq] at hlength ⊢
      refine ⟨c, hc, hchild, rfl, within_entry hn hc (by omega), ?_⟩
      rw [hempty]
      exact .intro (fun _ h => nomatch h) fun _ h => nomatch h

theorem unambiguous_called {base p : Bytes} {root : DirTree} (hn : Shown fs base root)
    (hdir : root.isDirectory = true) (hu : Unambiguous fs base root.entries)
    (h : Relation.ReflTransGen (fileVisitor fs).Calls base p) : ∃ ns d, Leads root ns d ∧
      d.isDirectory = true ∧ p = entryPath base ns ∧ Shown fs p d ∧
        Unambiguous fs p d.entries := by
  induction h with
  | refl => exact ⟨[], root, .here root, hdir, by simp [entryPath], hn, hu⟩
  | tail _ hcall ih =>
    obtain ⟨ns, d, hd, hisDir, rfl, hnd, hud⟩ := ih
    obtain ⟨e, he, hchild, rfl, hne, hue⟩ := unambiguous_child hnd hisDir hud hcall
    exact ⟨ns++[e.1], e.2, leads_concat hd he, hchild, (entry_path_concat base ns e.1).symm,
      hne, hue⟩

theorem unambiguous_own_paths {base : Bytes} {root : DirTree} (hn : Shown fs base root)
    (hdir : root.isDirectory = true) (hd : DirTree.Distinct root)
    (hu : Unambiguous fs base root.entries) : OwnPaths fs base root := by
  constructor
  · intro fc heap
    obtain ⟨stream, hopen, -⟩ := within_stream hn hdir
    obtain ⟨log, hlog, hsub⟩ := unambiguous_traced hdir (Nat.lt_succ_self _) hn hu
    obtain ⟨fc', heap', added, hcollected, hfiles, hadded⟩ := collected_adds fs log fc heap
    have hall := hadded.trans hsub
    refine ⟨heights root.entries+1, fc', heap', added, ?_, hfiles, ?_,
      fun f hf => hall.subset (List.mem_reverse.mpr hf)⟩
    · rw [collect_trace, hlog, hopen, ← hcollected]
      rfl
    · have hnodup : Distinct added.reverse := by
        refine (hall.map _).nodup (recorded_nodup base ?_ fun _ _ _ hf => regular_file_path hf)
        cases hd with
        | leaf => cases hdir
        | dir _ _ _ hnames hbelow => exact statuses_nodup hnames hbelow
      simpa using distinct_reverse hnodup
  · intro p q hp hcall
    obtain ⟨ns, d, hlead, hisDir, rfl, hnd, hud⟩ := unambiguous_called hn hdir hu hp
    obtain ⟨e, he, hchild, rfl, -⟩ := unambiguous_child hnd hisDir hud hcall
    exact ⟨ns, d, e, hlead, he, hchild, rfl, rfl⟩

end ProgSistema.FileDaemon
