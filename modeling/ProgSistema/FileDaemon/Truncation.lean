import ProgSistema.FileDaemon.OwnPaths

/-!
# Paths that are cut off

A scan that keeps to own paths tells that each path it cut off was harmless. A
regular file found under such a path is another entry, which is found once more
by its own name, and a directory is at best an empty one.
-/

set_option autoImplicit false

namespace ProgSistema.FileDaemon
open CRuntime FileTree DirTree

theorem eq_of_filter_map_nodup {α β : Type*} {f : α → Option β} {l : List α} {a b : α} {c : β}
    (h : (l.filterMap f).Nodup) (ha : a ∈ l) (hb : b ∈ l) (hfa : f a = some c)
    (hfb : f b = some c) : a = b := by
  induction l with
  | nil => cases ha
  | cons x l ih =>
    have hrest : (l.filterMap f).Nodup :=
      h.sublist ((List.sublist_cons_self x l).filterMap f)
    have hfirst : ∀ y ∈ l, f x = some c → f y ≠ some c := by
      intro y hy hfx hfy
      rw [List.filterMap_cons_some hfx] at h
      exact (List.nodup_cons.mp h).1 (List.mem_filterMap.mpr ⟨y, hy, hfy⟩)
    rcases List.mem_cons.mp ha with hax | ha
    · rcases List.mem_cons.mp hb with hbx | hb
      · exact hax.trans hbx.symm
      · exact absurd hfb (hfirst b hb (hax ▸ hfa))
    · rcases List.mem_cons.mp hb with hbx | hb
      · exact absurd hfa (hfirst a ha (hbx ▸ hfb))
      · exact ih hrest ha hb

theorem regular_leads {base : Bytes} {root : DirTree} {f : FileSnapshot}
    (h : f ∈ regularFiles base root.entries) : ∃ ms m u st, Leads root (ms++[m]) u ∧
      u.status = some st ∧ st.type = .regular ∧ f.filepath = entryPath base (ms++[m]) := by
  cases root with
  | leaf => cases h
  | dir rst hrst es =>
    obtain ⟨_, hd, hf⟩ := List.mem_filterMap.mp h
    obtain ⟨⟨ns, u⟩, hu, rfl⟩ := List.mem_map.mp hd
    obtain ⟨hne, hlead⟩ := (mem_descendants (.dir rst hrst es) ns u).mp hu
    obtain ⟨ms, m, rfl⟩ := List.eq_nil_or_concat' ns |>.resolve_left hne
    have hpath := regular_file_path hf
    obtain ⟨st, hst, htype⟩ := Option.bind_eq_some_iff.mp hf
    split at htype
    · exact ⟨ms, m, u, st, hlead, hst, ‹_›, hpath⟩
    · cases htype

section
variable {fs : FileSystem} {base : Bytes} {root : DirTree} (hown : OwnPaths fs base root)
include hown

theorem own_log : ∃ fuel log, (fileVisitor fs).trace fuel base = .ok log ∧
    Distinct (log.filterMap recordedFile) ∧
      ∀ f ∈ log.filterMap recordedFile, f ∈ regularFiles base root.entries := by
  obtain ⟨fuel, fc', heap', added, hcollect, hfiles, hdistinct, hown⟩ :=
    hown.collects ⟨[], 0, 0⟩ alwaysSucceeds
  rw [collect_trace] at hcollect
  cases hlog : (fileVisitor fs).trace fuel base with
  | error => rw [hlog] at hcollect; cases hcollect
  | ok log =>
    obtain ⟨fc, hall, hadded⟩ := collected_all fs log ⟨[], 0, 0⟩
    have hreached : collected fs log (⟨[], 0, 0⟩, alwaysSucceeds) = (fc', heap') := by
      rw [hlog] at hcollect
      exact congrArg Prod.snd (Except.ok.inj hcollect)
    have hfc : fc = fc' := congrArg Prod.fst (hall.symm.trans hreached)
    rw [hfc, hfiles, List.append_nil, List.append_nil] at hadded
    refine ⟨fuel, log, hlog, ?_, fun f hf => hown f ?_⟩
    · have hreverse := distinct_reverse hdistinct
      rwa [hadded, List.reverse_reverse] at hreverse
    · rw [hadded]
      exact List.mem_reverse.mpr hf

/-- What is collected in one directory that the scan comes to. -/
theorem own_met {p : Bytes} {d : DirTree}
    (hcalled : Relation.ReflTransGen (fileVisitor fs).Calls base p)
    (hn : Shown fs p d) (hdir : d.isDirectory = true) :
    let found := d.entries.filterMap
      fun e => ((fileVisitor fs).met p e.1.bytes).bind recordedFile
    found.Nodup ∧ ∀ f ∈ found, f ∈ regularFiles base root.entries := by
  obtain ⟨fuel, log, hlog, hdistinct, hfiles⟩ := own_log hown
  obtain ⟨fuel', log', hlog', hsub⟩ := calls_sublist hcalled hlog
  obtain ⟨stream, hopen, hstream⟩ := within_stream hn hdir
  have hopen' : (fileVisitor fs).opendir p = some stream := hopen
  cases fuel' with
  | zero => cases hlog'
  | succ fuel' =>
    rw [Visitor.trace, hopen'] at hlog'
    dsimp only at hlog'
    rw [trace_entries_filter, hstream] at hlog'
    have hall := ((met_sublist hlog').trans hsub).filterMap recordedFile
    rw [List.filterMap_map, List.filterMap_filterMap] at hall
    exact ⟨(List.Nodup.of_map _ hdistinct).sublist hall, fun f hf => hfiles f (hall.subset hf)⟩

section
variable {p : Bytes} {ns : List Name} {d : DirTree} {e : Name × DirTree}
  (hn : Shown fs p d) (hd : DirTree.Distinct root)
  (hcalled : Relation.ReflTransGen (fileVisitor fs).Calls base p) (hp : p = entryPath base ns)
  (hlead : Leads root ns d) (hdir : d.isDirectory = true) (he : e ∈ d.entries)
  (hcut : fullPathSize ≤ (p++slash::e.1.bytes).length)
include hn hd hcalled hp hlead hdir he hcut

/-- A regular file found under a path that was cut off would be found under its
own path too. -/
theorem own_not_regular {st : Stat}
    (hst : fs.stat (snprintf fullPathSize (p++slash::e.1.bytes)) = some st) :
    st.type ≠ .regular := by
  intro hregular
  have hlength := cut_length hcut
  have hprefix : snprintf fullPathSize (p++slash::e.1.bytes) <+: p++slash::e.1.bytes :=
    List.take_prefix _ _
  obtain ⟨hnodup, hfiles⟩ := own_met hown hcalled hn hdir
  have hfound : ((fileVisitor fs).met p e.1.bytes).bind recordedFile =
      some ⟨snprintf fullPathSize (p++slash::e.1.bytes), st.mtime, st.size⟩ := by
    rw [met_entry, hst]
    exact if_pos hregular
  obtain ⟨ms, m, u, st', hu, hstatus, -, hpath⟩ :=
    regular_leads (hfiles _ (List.mem_filterMap.mpr ⟨e, he, hfound⟩))
  dsimp only at hpath
  rw [hpath, entry_path_concat] at hprefix
  rcases last_name m.noSlash e.1.noSlash hprefix with hparent | hbefore
  · -- The file is another entry of the same directory.
    have hms : ms = ns := entry_path_injective base (hparent.trans hp)
    rw [hms] at hu
    obtain ⟨d', hd', hmem⟩ := leads_last hu
    rw [leads_unique hd hd' hlead] at hmem
    have hq : snprintf fullPathSize (p++slash::e.1.bytes) = p++slash::m.bytes := by
      rw [hpath, entry_path_concat, hparent]
    have hfits : (p++slash::m.bytes).length < fullPathSize := by
      rw [← hq]
      omega
    have hfound' : ((fileVisitor fs).met p m.bytes).bind recordedFile =
        some ⟨snprintf fullPathSize (p++slash::e.1.bytes), st.mtime, st.size⟩ := by
      rw [met_entry, snprintf_fits _ _ hfits, ← hq, hst]
      exact if_pos hregular
    have hsame := eq_of_filter_map_nodup hnodup he hmem hfound hfound'
    rw [hsame] at hcut
    exact absurd hfits (not_lt.mpr hcut)
  · -- The path is that of the directory itself, or shorter than the start path.
    rw [← entry_path_concat, ← hpath] at hbefore
    rcases calls_length hcalled with hbase | hshort
    · have hlong : base.length < (entryPath base (ms++[m])).length := by
        rw [entry_path_concat, entryPath, List.length_append, List.length_append, List.length_cons]
        omega
      rw [← hpath, ← hbase] at hlong
      exact absurd hbefore.length_le (not_le.mpr hlong)
    · have hself : snprintf fullPathSize (p++slash::e.1.bytes) = p := by
        apply hbefore.eq_of_length_le
        show p.length ≤ _
        have hsize : (fileVisitor fs).bufferSize = fullPathSize := rfl
        rw [hsize] at hshort
        omega
      obtain ⟨st₀, hstatus₀, hdir₀⟩ := status_of_directory hdir
      rw [hself, within_status hn, hstatus₀] at hst
      cases hst
      rw [hdir₀] at hregular
      cases hregular

/-- A directory found under a path that was cut off is a child. The paths of its
entries would be cut off to its own one. -/
theorem own_empty_child {st : Stat}
    (hst : fs.stat (snprintf fullPathSize (p++slash::e.1.bytes)) = some st)
    (htype : st.type = .directory) : ∃ c ∈ d.entries, c.2.isDirectory = true ∧
      c.2.entries = [] ∧ snprintf fullPathSize (p++slash::e.1.bytes) = p++slash::c.1.bytes := by
  have hlength := cut_length hcut
  have hcall : (fileVisitor fs).Calls p (snprintf fullPathSize (p++slash::e.1.bytes)) :=
    (calls_iff hn hdir).mpr ⟨e, he, rfl, st, hst, htype⟩
  obtain ⟨ns', d', c, hlead', hc, hchild, hp', hq⟩ := hown.descends _ _ hcalled hcall
  have hns : ns' = ns := entry_path_injective base (hp'.symm.trans hp)
  rw [hns] at hlead'
  rw [leads_unique hd hlead' hlead] at hc
  refine ⟨c, hc, hchild, ?_, hq⟩
  by_contra hne
  obtain ⟨x, hx⟩ := List.exists_mem_of_ne_nil _ hne
  rw [hq] at hst hlength hcall
  have hself : snprintf fullPathSize (p++slash::c.1.bytes++slash::x.1.bytes) =
      p++slash::c.1.bytes := by
    rw [snprintf, List.take_append_of_le_length (by omega), List.take_of_length_le (by omega)]
  have hloop : (fileVisitor fs).Calls (p++slash::c.1.bytes) (p++slash::c.1.bytes) :=
    (calls_iff (within_entry hn hc (by omega)) hchild).mpr ⟨x, hx, hself.symm, st, hst, htype⟩
  obtain ⟨_, _, y, -, -, -, -, hy⟩ := hown.descends _ _ (hcalled.tail hcall) hloop
  exact (entry_longer _ y.1).ne (congrArg List.length hy)

end

theorem own_paths_unambiguous (hn : Shown fs base root) (hdir : root.isDirectory = true)
    (hd : DirTree.Distinct root) : Unambiguous fs base root.entries := by
  have hall : ∀ d ns, Leads root ns d → d.isDirectory = true → Shown fs (entryPath base ns) d →
      Relation.ReflTransGen (fileVisitor fs).Calls base (entryPath base ns) →
      Unambiguous fs (entryPath base ns) d.entries := by
    intro d
    induction d using DirTree.induction with
    | leaf => exact fun _ _ hleaf => nomatch hleaf
    | dir st hst es ih =>
      intro ns hlead hisDir hshown hcalled
      refine .intro (fun e he hcut => ?_) fun e he hfits hchild => ?_
      · intro s hs
        exact ⟨own_not_regular hown hshown hd hcalled rfl hlead hisDir he hcut hs,
          own_empty_child hown hshown hd hcalled rfl hlead hisDir he hcut hs⟩
      · have hentry := within_entry hshown he hfits
        obtain ⟨s, hs, htype⟩ := status_of_directory hchild
        have hcall : (fileVisitor fs).Calls (entryPath base ns)
            (entryPath base ns++slash::e.1.bytes) := by
          refine (calls_iff hshown hisDir).mpr
            ⟨e, he, (snprintf_fits _ _ hfits).symm, s, ?_, htype⟩
          rw [within_status hentry, hs]
        rw [← entry_path_concat] at hcall hentry ⊢
        exact ih e he _ (leads_concat hlead he) hchild hentry (hcalled.tail hcall)
  have hroot := hall root [] (.here root) hdir
  have hbase : entryPath base [] = base := by simp [entryPath]
  rw [hbase] at hroot
  exact hroot hn .refl

end

/-- A scan keeps to own paths exactly when every path that does not fit in the
buffer is cut off to a harmless one. -/
theorem scan_own_paths_iff {fs : FileSystem} {base : Bytes} {root : DirTree}
    (hn : Shown fs base root) (hdir : root.isDirectory = true) (hd : DirTree.Distinct root) :
    OwnPaths fs base root ↔ Unambiguous fs base root.entries :=
  ⟨fun hown => own_paths_unambiguous hown hn hdir hd, unambiguous_own_paths hn hdir hd⟩

/-- A directory with one file whose path fits. -/
theorem short_paths_own : OwnPaths (watchedHost (oneFile 7 1)).fileSystem (text "/w")
    (.dir ⟨.directory, 12, 4096, 2, 0⟩ rfl (oneFile 7 1)) := by
  have hdistinct : DirTree.Distinct (.dir ⟨.directory, 12, 4096, 2, 0⟩ rfl (oneFile 7 1)) := by
    refine .dir _ _ _ (List.nodup_singleton _) fun e he => ?_
    rw [List.mem_singleton.mp he]
    exact .leaf _ _
  have hshown := (watchedHost (oneFile 7 1)).lookup_names hdistinct (text "/w") _ (by rfl)
  refine (scan_own_paths_iff (names_within hshown) rfl hdistinct).mpr (.intro ?_ ?_)
  · intro e he hcut
    rw [List.mem_singleton.mp he] at hcut
    exact absurd hcut (by decide)
  · intro e he _ hdir
    rw [List.mem_singleton.mp he] at hdir
    cases hdir

def letters (k : ℕ) (hk : 0 < k) : Name where
  bytes := List.replicate k 97
  nonempty h := by simp [hk.ne'] at h
  noSlash h := absurd (List.eq_of_mem_replicate h) (by decide)
  noNul h := absurd (List.eq_of_mem_replicate h) (by decide)
  notDot h := by
    have hmem : (46 : UInt8) ∈ List.replicate k 97 := h ▸ List.mem_singleton_self _
    exact absurd (List.eq_of_mem_replicate hmem) (by decide)
  notDotdot h := by
    have hmem : (46 : UInt8) ∈ List.replicate k 97 := h ▸ List.mem_cons_self
    exact absurd (List.eq_of_mem_replicate hmem) (by decide)

def plainFile (ino : ℕ) : DirTree := .leaf (some ⟨.regular, ino, 1, 1, 0⟩) (by rintro s ⟨⟩; simp)

def twinFiles : DirTree :=
  .dir ⟨.directory, 21, 4096, 2, 0⟩ rfl
    [(letters 1 (by decide), plainFile 22), (letters 2 (by decide), plainFile 23)]

def nest (ino k : ℕ) (hk : 0 < k) (t : DirTree) : DirTree :=
  .dir ⟨.directory, ino, 4096, 3, 0⟩ rfl [(letters k hk, t)]

def nestedRoot : DirTree :=
  nest 31 255 (by decide) (nest 32 254 (by decide) (nest 33 254 (by decide)
    (nest 34 254 (by decide) twinFiles)))

def nestedHost : Host := ⟨nestedRoot, [nestedRoot]⟩

def nestedPath : Bytes :=
  entryPath [] [letters 255 (by decide), letters 254 (by decide), letters 254 (by decide),
    letters 254 (by decide)]

theorem twin_distinct : DirTree.Distinct twinFiles := by
  refine .dir _ _ _ (by decide) fun e he => ?_
  rcases List.mem_cons.mp he with rfl | he
  · exact .leaf _ _
  · rw [List.mem_singleton.mp he]
    exact .leaf _ _

theorem lookup_nest {host : Host} {p : Bytes} {ino k : ℕ} {hk : 0 < k} {t : DirTree}
    {up : List DirTree} (h : host.lookup p = some (nest ino k hk t::up)) :
    host.lookup (p++slash::(letters k hk).bytes) = some (t::nest ino k hk t::up) :=
  Host.lookup_entry (e := (letters k hk, t)) h (List.nodup_singleton _) (List.mem_singleton_self _)

theorem nested_lookup : ∃ up, nestedHost.lookup nestedPath = some (twinFiles::up) := by
  have hroot : nestedHost.lookup [slash] = some [nestedRoot] := rfl
  have hfirst := Host.lookup_entry_slash (e := (letters 255 (by decide), _)) hroot (by decide)
    (List.nodup_singleton _) (List.mem_singleton_self _)
  have hall := lookup_nest (lookup_nest (lookup_nest hfirst))
  refine ⟨_, Eq.trans ?_ hall⟩
  rw [nestedPath, entry_path_cons, entry_path_cons, entry_path_cons, entry_path_cons]
  simp [entryPath]

/-- The path of `aa` is cut off to that of `a`, which is recorded twice. -/
theorem twin_recorded_twice :
    ¬ ∀ (fs : FileSystem) (base : Bytes) (root : DirTree), Shown fs base root →
      root.isDirectory = true → root.Distinct → OwnPaths fs base root := by
  intro hall
  obtain ⟨up, hlookup⟩ := nested_lookup
  have hnames := nestedHost.lookup_names twin_distinct nestedPath up hlookup
  have hshown : Shown nestedHost.fileSystem nestedPath twinFiles := names_within hnames
  have hown := hall _ _ _ hshown rfl twin_distinct
  have hcut : snprintf fullPathSize (nestedPath++slash::(letters 2 (by decide)).bytes) =
      nestedPath++slash::(letters 1 (by decide)).bytes := by decide +kernel
  have hfile := within_entry (e := (letters 1 (by decide), plainFile 22)) hshown
    (List.mem_cons_self ..) (by decide +kernel)
  cases own_paths_unambiguous hown hshown rfl twin_distinct with
  | intro hharmless _ =>
    have hwrong := hharmless (letters 2 (by decide), plainFile 23)
      (List.mem_cons_of_mem _ (List.mem_singleton_self _)) (by decide +kernel)
    rw [hcut] at hwrong
    exact (hwrong _ (within_status hfile)).1 rfl

end ProgSistema.FileDaemon
