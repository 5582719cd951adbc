import ProgSistema.FileQuery.Model

/-!
# The reply to one request

The array of the server doubles when it is full, as long as its capacity fits
an `int`. The selected paths are those of the large regular files, in the
order of the visit; each gets a datagram, and the client prints one line for
each of them before it meets the end marker.
-/

set_option autoImplicit false

namespace ProgSistema.FileQuery
open CRuntime FileTree DirTree

/-- The array has been doubled at most nineteen times; one more would exceed
the range of `int`. -/
def maxFiles : ℕ := 3000*2^19

/-- The allocator refuses a size that it could grant. -/
def Refused (alloc : Allocator) : Prop := ∃ bytes ≤ ptrdiffMax, alloc.granted bytes = false

theorem refused_of (alloc : Allocator) (bytes : ℕ) (hle : bytes ≤ ptrdiffMax)
    (h : ¬ alloc.granted bytes = true) : Refused alloc :=
  ⟨bytes, hle, by simpa using h⟩

structure Grown (fc : FileCollection) : Prop where
  size : ∃ k ≤ 19, fc.slots = 3000*2^k
  capacity : fc.capacity = fc.slots
  count : fc.fileCount = fc.filePaths.length
  fits : fc.filePaths.length ≤ fc.slots

theorem slots_le (k : ℕ) (hk : k ≤ 19) : 3000*2^k ≤ maxFiles := by
  have hpow : 2^k ≤ 2^19 := Nat.pow_le_pow_right (by omega) hk
  unfold maxFiles
  omega

theorem grown_length {fc : FileCollection} (hg : Grown fc) : fc.filePaths.length ≤ maxFiles := by
  obtain ⟨k, hk, hsize⟩ := hg.size
  have hle := slots_le k hk
  have hfits := hg.fits
  omega

theorem to_size_t_of_lt (n : ℕ) (h : n < 2^64) : toSizeT n = n := by
  unfold toSizeT
  omega

section Growth
variable {alloc : Allocator} {fc : FileCollection}

/-- The bytes asked for when the array of a full collection is doubled. -/
theorem doubled_bytes (n : ℕ) (h : 2*n < 2^31) :
    toInt ((n : ℤ)*2) = (2*n : ℕ) ∧ toSizeT (toSizeT (toInt ((n : ℤ)*2))*pointerSize) = 16*n := by
  have hint : toInt ((n : ℤ)*2) = (2*n : ℕ) := by
    have hcast : (n : ℤ)*2 = ((2*n : ℕ) : ℤ) := by
      push_cast
      ring
    rw [hcast, to_int_of_lt _ h]
  refine ⟨hint, ?_⟩
  rw [hint, to_size_t_of_lt _ (by omega)]
  have hcast : ((2*n : ℕ) : ℤ)*(pointerSize : ℤ) = ((16*n : ℕ) : ℤ) := by
    unfold pointerSize
    push_cast
    ring
  rw [hcast, to_size_t_of_lt _ (by omega)]

/-- The twentieth doubling wraps around, and no allocator grants its size. -/
theorem overflow_refused (alloc : Allocator) :
    alloc.granted (toSizeT (toSizeT (toInt ((maxFiles : ℤ)*2))*pointerSize)) = false := by
  by_contra hne
  have hle := alloc.limited _ (by simpa using hne)
  revert hle
  decide

theorem reallocate_full (n : ℕ) (hcap : fc.capacity = n) (hcount : fc.fileCount = n)
    (h : 2*n < 2^31) : reallocate alloc fc =
      if alloc.granted (16*n) then .ok { fc with capacity := (2*n : ℕ), slots := 2*n }
      else .error .allocationFailed := by
  obtain ⟨hdouble, hbytes⟩ := doubled_bytes n h
  have hslots : 16*n/pointerSize = 2*n := by
    unfold pointerSize
    omega
  rw [reallocate, if_pos (by rw [hcap, hcount]), hcap]
  dsimp only
  rw [hbytes, hslots, hdouble]

theorem reallocate_overflow (hcap : fc.capacity = maxFiles) (hcount : fc.fileCount = maxFiles) :
    reallocate alloc fc = .error .allocationFailed := by
  rw [reallocate, if_pos (by rw [hcap, hcount]), hcap]
  dsimp only
  rw [overflow_refused]
  rfl

theorem grown_room (hg : Grown fc) (hroom : fc.slots < maxFiles) :
    ∃ k < 19, fc.slots = 3000*2^k := by
  obtain ⟨k, hk, hsize⟩ := hg.size
  refine ⟨k, ?_, hsize⟩
  by_contra hlt
  have hk19 : k = 19 := by omega
  rw [hsize, hk19, maxFiles] at hroom
  omega

theorem doubled_lt (hg : Grown fc) (hroom : fc.slots < maxFiles) : 2*fc.slots < 2^31 := by
  obtain ⟨k, hk, hsize⟩ := grown_room hg hroom
  have hle := slots_le (k+1) hk
  rw [pow_succ] at hle
  unfold maxFiles at hle
  omega

theorem grown_doubled (hg : Grown fc) (hroom : fc.slots < maxFiles) :
    Grown { fc with capacity := (2*fc.slots : ℕ), slots := 2*fc.slots } := by
  obtain ⟨k, hk, hsize⟩ := grown_room hg hroom
  constructor
  · refine ⟨k+1, hk, ?_⟩
    show 2*fc.slots = _
    rw [hsize, pow_succ]
    ring
  · rfl
  · exact hg.count
  · have hfits := hg.fits
    show fc.filePaths.length ≤ 2*fc.slots
    omega

theorem reallocate_cases (alloc : Allocator) (hg : Grown fc) :
    (reallocate alloc fc = .error .allocationFailed ∧
        (Refused alloc ∨ fc.filePaths.length = maxFiles)) ∨
      ∃ fc', reallocate alloc fc = .ok fc' ∧ Grown fc' ∧ fc'.filePaths = fc.filePaths ∧
        fc'.filePaths.length < fc'.slots := by
  have hfits := hg.fits
  have hcap := hg.capacity
  have hcount := hg.count
  by_cases hfull : fc.fileCount ≥ fc.capacity
  · have hlen : fc.filePaths.length = fc.slots := by omega
    rw [hlen] at hcount
    obtain ⟨k, hk, hsize⟩ := hg.size
    have hpos : 0 < fc.slots := by
      rw [hsize]
      positivity
    have hle := slots_le k hk
    rw [← hsize] at hle
    by_cases hroom : fc.slots < maxFiles
    · rw [reallocate_full fc.slots hcap hcount (doubled_lt hg hroom)]
      by_cases hgrant : alloc.granted (16*fc.slots) = true
      · rw [if_pos hgrant]
        refine .inr ⟨_, rfl, grown_doubled hg hroom, rfl, ?_⟩
        show fc.filePaths.length < 2*fc.slots
        omega
      · have hbytes : 16*fc.slots ≤ ptrdiffMax := by
          have hroom' := doubled_lt hg hroom
          unfold ptrdiffMax
          omega
        rw [if_neg hgrant]
        exact .inl ⟨rfl, .inl (refused_of alloc _ hbytes hgrant)⟩
    · have hmax : fc.slots = maxFiles := by omega
      rw [hmax] at hcap hcount
      exact .inl ⟨reallocate_overflow hcap hcount, .inr (hlen.trans hmax)⟩
  · refine .inr ⟨fc, ?_, hg, rfl, by omega⟩
    rw [reallocate, if_neg hfull]

/-- A file is appended to the collection, unless an allocation fails. -/
theorem add_cases (alloc : Allocator) (hg : Grown fc) (filepath : Bytes) (size : ℤ)
    (hlen : filepath.length < bufferSize) :
    (addFileToCollection alloc fc filepath size = .error .allocationFailed ∧
        (Refused alloc ∨ fc.filePaths.length = maxFiles)) ∨
      ∃ fc', addFileToCollection alloc fc filepath size = .ok fc' ∧ Grown fc' ∧
        fc'.filePaths = fc.filePaths++[filepath] := by
  unfold addFileToCollection
  rcases reallocate_cases alloc hg with ⟨herr, hwhy⟩ | ⟨fc', hok, hg', hpaths, hroom⟩
  · rw [herr]
    exact .inl ⟨rfl, hwhy⟩
  · rw [hok, ok_bind]
    by_cases hgrant : alloc.granted (filepath.length+1) = true
    · have hcount := hg'.count
      have hbound := grown_length hg'
      rw [if_pos hgrant, if_pos (by omega)]
      refine .inr ⟨_, rfl, ?_, by rw [hpaths]⟩
      have hnext : toInt (fc'.fileCount+1) = (fc'.filePaths.length+1 : ℕ) := by
        rw [hcount, ← Nat.cast_succ]
        apply to_int_of_lt
        unfold maxFiles at hbound
        omega
      constructor
      · exact hg'.size
      · exact hg'.capacity
      · show toInt (fc'.fileCount+1) = ((fc'.filePaths++[filepath]).length : ℤ)
        rw [hnext, List.length_append]
        rfl
      · show (fc'.filePaths++[filepath]).length ≤ fc'.slots
        rw [List.length_append, List.length_singleton]
        omega
    · have hbytes : filepath.length+1 ≤ ptrdiffMax := by
        unfold bufferSize at hlen
        unfold ptrdiffMax
        omega
      rw [if_neg hgrant]
      exact .inl ⟨rfl, .inl (refused_of alloc _ hbytes hgrant)⟩

end Growth

def selected (base : Bytes) (limit : ℤ) (ds : List (List Name × Option Stat)) : List Bytes :=
  (ds.filter fun d => d.2.any fun st => st.type = .regular ∧ st.size > limit).map
    fun d => entryPath base d.1

theorem selected_cons (base : Bytes) (limit : ℤ) (d : List Name × Option Stat)
    (ds : List (List Name × Option Stat)) : selected base limit (d::ds) =
      if d.2.any fun st => st.type = .regular ∧ st.size > limit
        then entryPath base d.1::selected base limit ds else selected base limit ds := by
  unfold selected
  rw [List.filter_cons]
  split <;> rfl

theorem mem_selected (base : Bytes) (limit : ℤ) (ds : List (List Name × Option Stat))
    (p : Bytes) : p ∈ selected base limit ds ↔ ∃ ns st, (ns, some st) ∈ ds ∧
      st.type = .regular ∧ st.size > limit ∧ p = entryPath base ns := by
  unfold selected
  rw [List.mem_map]
  constructor
  · rintro ⟨⟨ns, st⟩, hd, rfl⟩
    obtain ⟨hmem, hany⟩ := List.mem_filter.mp hd
    cases st with
    | none => cases hany
    | some st =>
      obtain ⟨hregular, hsize⟩ : st.type = .regular ∧ st.size > limit := by simpa using hany
      exact ⟨ns, st, hmem, hregular, hsize, rfl⟩
  · rintro ⟨ns, st, hmem, hregular, hsize, rfl⟩
    exact ⟨(ns, some st), List.mem_filter.mpr ⟨hmem, by simp [hregular, hsize]⟩, rfl⟩

theorem selected_nodup (base : Bytes) (limit : ℤ) (ds : List (List Name × Option Stat))
    (h : (ds.map Prod.fst).Nodup) : (selected base limit ds).Nodup := by
  have hsub : ((ds.filter fun d => d.2.any fun st =>
      st.type = .regular ∧ st.size > limit).map Prod.fst).Nodup :=
    h.sublist (List.filter_sublist.map _)
  have hmap : selected base limit ds = ((ds.filter fun d => d.2.any fun st =>
      st.type = .regular ∧ st.size > limit).map Prod.fst).map (entryPath base) := by
    rw [List.map_map]
    rfl
  rw [hmap]
  exact hsub.map (entry_path_injective base)

section Collection
variable {alloc : Allocator} {fs : FileSystem} {limit : ℤ}

theorem meet_failed (base : Bytes) (d : List Name × Option Stat) :
    (fileVisitor alloc fs limit).meet base (.error .allocationFailed) d =
      .error .allocationFailed := by
  obtain ⟨ns, st⟩ := d
  cases st with
  | none => rfl
  | some st =>
    show (if st.type = .regular ∧ st.size > limit then _ else _) = _
    split <;> rfl

theorem meets_failed (base : Bytes) (ds : List (List Name × Option Stat)) :
    ds.foldl ((fileVisitor alloc fs limit).meet base) (.error .allocationFailed) =
      .error .allocationFailed := by
  induction ds with
  | nil => rfl
  | cons d ds ih => rw [List.foldl_cons, meet_failed, ih]

/-- A visit appends the selected paths, unless an allocation fails. -/
theorem meets_select (alloc : Allocator) (base : Bytes) (ds : List (List Name × Option Stat))
    (fc : FileCollection) (hg : Grown fc) (hlen : ∀ d ∈ ds, (entryPath base d.1).length < bufferSize) :
    (ds.foldl ((fileVisitor alloc fs limit).meet base) (.ok fc) = .error .allocationFailed ∧
        (Refused alloc ∨ maxFiles < fc.filePaths.length+(selected base limit ds).length)) ∨
      ∃ fc', ds.foldl ((fileVisitor alloc fs limit).meet base) (.ok fc) = .ok fc' ∧ Grown fc' ∧
        fc'.filePaths = fc.filePaths++selected base limit ds := by
  induction ds generalizing fc with
  | nil => exact .inr ⟨fc, rfl, hg, by simp [selected]⟩
  | cons d ds ih =>
    obtain ⟨ns, st⟩ := d
    obtain ⟨hhead, htail⟩ := List.forall_mem_cons.mp hlen
    rw [List.foldl_cons, selected_cons]
    cases st with
    | none => exact ih fc hg htail
    | some st =>
      by_cases hlarge : st.type = .regular ∧ st.size > limit
      · have hmeet : (fileVisitor alloc fs limit).meet base (.ok fc) (ns, some st) =
            addFileToCollection alloc fc (entryPath base ns) st.size := by
          show (if st.type = .regular ∧ st.size > limit then _ else _) = _
          rw [if_pos hlarge]
          rfl
        rw [hmeet, if_pos (by simpa using hlarge)]
        rcases add_cases alloc hg (entryPath base ns) st.size hhead with
          ⟨herr, hwhy⟩ | ⟨fc', hok, hg', hpaths⟩
        · rw [herr, meets_failed]
          refine .inl ⟨rfl, hwhy.imp id fun hmax => ?_⟩
          rw [List.length_cons]
          omega
        · rw [hok]
          rcases ih fc' hg' htail with ⟨herr, hwhy⟩ | ⟨fc'', hok', hg'', hpaths'⟩
          · refine .inl ⟨herr, hwhy.imp id fun hmax => ?_⟩
            rw [hpaths, List.length_append, List.length_singleton] at hmax
            rw [List.length_cons]
            omega
          · refine .inr ⟨fc'', hok', hg'', ?_⟩
            rw [hpaths', hpaths, List.append_assoc]
            rfl
      · have hmeet : (fileVisitor alloc fs limit).meet base (.ok fc) (ns, some st) = .ok fc := by
          show (if st.type = .regular ∧ st.size > limit then _ else _) = _
          rw [if_neg hlarge]
        rw [hmeet, if_neg (by simpa using hlarge)]
        exact ih fc hg htail

end Collection

theorem init_grown {alloc : Allocator} {fc : FileCollection}
    (h : initFileCollection alloc = .ok fc) : Grown fc ∧ fc.filePaths = [] := by
  unfold initFileCollection at h
  split at h
  · cases h
    exact ⟨⟨⟨0, by omega, rfl⟩, rfl, rfl, Nat.zero_le _⟩, rfl⟩
  · cases h

theorem init_cases (alloc : Allocator) :
    (initFileCollection alloc = .error .allocationFailed ∧ Refused alloc) ∨
      ∃ fc, initFileCollection alloc = .ok fc := by
  unfold initFileCollection
  by_cases hgrant : alloc.granted 24 = true ∧ alloc.granted (3000*pointerSize) = true
  · rw [if_pos hgrant]
    exact .inr ⟨_, rfl⟩
  · rw [if_neg hgrant]
    refine .inl ⟨rfl, ?_⟩
    by_cases hheader : alloc.granted 24 = true
    · exact refused_of alloc _ (by decide) fun harray => hgrant ⟨hheader, harray⟩
    · exact refused_of alloc _ (by decide) hheader

/-- The server selects the large regular files of the tree, unless a size is
refused that could be granted, or there are more files than an array with an
`int` capacity can be doubled for. -/
theorem select_cases (alloc : Allocator) (fs : FileSystem) (es : List (Name × DirTree))
    (request : Bytes) (fuel : ℕ) (hs : Shows fs.opendir fs.stat directory es)
    (hfit : PathsFit bufferSize directory es) (hfuel : heights es < fuel) :
    (select alloc fs fuel request = .ok (.error .allocationFailed) ∧ (Refused alloc ∨
        maxFiles < (selected directory (sizeLimits request) (statuses es)).length)) ∨
      (select alloc fs fuel request =
          .ok (.ok (selected directory (sizeLimits request) (statuses es))) ∧
        (selected directory (sizeLimits request) (statuses es)).length ≤ maxFiles) := by
  have hvisit := fun fc => visit_directory_ok (fileVisitor alloc fs (sizeLimits request)) fuel
    directory es fc hfuel hs hfit
  unfold select collectAllFilesRecursive
  rw [hvisit]
  rcases init_cases alloc with ⟨herr, hwhy⟩ | ⟨fc, hok⟩
  · rw [herr, meets_failed]
    exact .inl ⟨rfl, .inl hwhy⟩
  · obtain ⟨hg, hempty⟩ := init_grown hok
    rw [hok]
    rcases meets_select alloc directory (statuses es) fc hg hfit with
      ⟨herr, hwhy⟩ | ⟨fc', hok', hg', hpaths⟩
    · rw [herr]
      rw [hempty, List.length_nil, Nat.zero_add] at hwhy
      exact .inl ⟨rfl, hwhy⟩
    · rw [hok']
      rw [hempty, List.nil_append] at hpaths
      rw [← hpaths]
      exact .inr ⟨rfl, grown_length hg'⟩

section Receiving

theorem text_path : text "Path: " = [80, 97, 116, 104, 58, 32] := by decide

theorem end_marker : endMarker = [101, 110, 100] := by decide

theorem entry_path_no_nul (base : Bytes) (ns : List Name) (hbase : 0 ∉ base) :
    0 ∉ entryPath base ns := by
  intro hmem
  rw [entryPath, List.mem_append, List.mem_flatMap] at hmem
  rcases hmem with hmem | ⟨n, -, hmem⟩
  · exact hbase hmem
  · rcases List.mem_cons.mp hmem with heq | hmem
    · cases heq
    · exact n.noNul hmem

/-- The datagram of a path that fits the buffers is not the end marker. -/
theorem response_fits (p : Bytes) (hlen : p.length ≤ 1017) : response p = text "Path: "++p := by
  unfold response
  apply snprintf_fits
  rw [List.length_append, text_path]
  unfold bufferSize
  simp only [List.length_cons, List.length_nil]
  omega

/-- Every path is received as a path: its prefix tells it from the marker and
from an empty datagram. -/
theorem receive_path (count : ℤ) (p : Bytes) : receiveOne count (.datagram (response p)) =
    (.file (toInt (count+1)) (cstr (response p)), toInt (count+1), true) := by
  have htake : (response p).take (bufferSize-1) = response p := by
    rw [response, snprintf, List.take_take, Nat.min_self]
  have hresponse : response p = [80, 97, 116, 104, 58, 32]++p.take 1017 := by
    rw [response, snprintf, text_path]
    rfl
  have hcstr : cstr (response p) = [80, 97, 116, 104, 58, 32]++cstr (p.take 1017) := by
    rw [hresponse]
    rfl
  have hne : response p ≠ [] := by simp [hresponse]
  have hpath : cstr (response p) ≠ endMarker := by simp [hcstr, end_marker]
  unfold receiveOne
  dsimp only
  rw [if_neg hne, htake, if_neg hpath]

theorem receive_response (count : ℕ) (p : Bytes) (hlen : p.length ≤ 1017) (hnul : 0 ∉ p)
    (hcount : count+1 < 2^31) : receiveOne count (.datagram (response p)) =
      (Line.file (count+1 : ℕ) (text "Path: "++p), ((count+1 : ℕ) : ℤ), true) := by
  have hcstr : cstr (text "Path: "++p) = text "Path: "++p := by
    apply cstr_of_no_nul
    rw [text_path]
    simpa using hnul
  have hnext : toInt ((count : ℤ)+1) = (count+1 : ℕ) := by
    rw [← Nat.cast_succ]
    exact to_int_of_lt _ hcount
  rw [receive_path, response_fits p hlen, hcstr, hnext]

theorem receive_end (count : ℤ) :
    receiveOne count (.datagram endMarker) = (.total count, count, false) := by
  unfold receiveOne
  dsimp only
  rw [if_neg (by decide), if_pos (by decide)]

def fileLine (p : Bytes × ℕ) : Line := .file p.2 (text "Path: "++p.1)

/-- The client prints a numbered line for each path, and stops at the marker. -/
theorem receive_reply (paths : List Bytes) (count : ℕ) (later : List Received)
    (hpaths : ∀ p ∈ paths, p.length ≤ 1017 ∧ 0 ∉ p) (hcount : count+paths.length < 2^31) :
    receiveLoop count ((replyTo paths).map .datagram++later) =
      ((paths.zipIdx (count+1)).map fileLine++[.total (count+paths.length : ℕ)], later) := by
  induction paths generalizing count with
  | nil =>
    show receiveLoop count (.datagram endMarker::later) = _
    rw [receiveLoop, receive_end]
    rfl
  | cons p paths ih =>
    obtain ⟨⟨hlen, hnul⟩, htail⟩ := List.forall_mem_cons.mp hpaths
    rw [List.length_cons] at hcount
    have hlast : count+1+paths.length = count+(p::paths).length := by
      rw [List.length_cons]
      omega
    show receiveLoop count (.datagram (response p)::((replyTo paths).map .datagram++later)) = _
    rw [receiveLoop, receive_response count p hlen hnul (by omega)]
    dsimp only
    rw [ih (count+1) htail (by omega), hlast]
    rfl

end Receiving

/-- With an allocator that grants every size it can, and no more files than the
array can be doubled for, the server answers with the large regular files of the
tree, and the client prints them and nothing else. -/
theorem reply_shown (alloc : Allocator) (fs : FileSystem) (es : List (Name × DirTree))
    (request : Bytes) (fuel : ℕ) (later : List Received)
    (hs : Shows fs.opendir fs.stat directory es) (hnames : (es.map Prod.fst).Nodup)
    (hdistinct : ∀ e ∈ es, Distinct e.2)
    (hlen : ∀ d ∈ statuses es, (entryPath directory d.1).length ≤ 1017)
    (hfuel : heights es < fuel) (hgrants : ∀ bytes ≤ ptrdiffMax, alloc.granted bytes = true)
    (hcount : (selected directory (sizeLimits request) (statuses es)).length ≤ maxFiles) :
    ∃ paths, select alloc fs fuel request = .ok (.ok paths) ∧ paths.Nodup ∧
      (∀ p, p ∈ paths ↔ ∃ ns st, (ns, some st) ∈ statuses es ∧ st.type = .regular ∧
        st.size > sizeLimits request ∧ p = entryPath directory ns) ∧
      replyTo paths = paths.map (text "Path: "++·)++[text "end"] ∧
      receiveLoop 0 ((replyTo paths).map .datagram++later) =
        ((paths.zipIdx 1).map fileLine++[.total paths.length], later) := by
  have hfit : PathsFit bufferSize directory es := by
    intro d hd
    have hle := hlen d hd
    unfold bufferSize
    omega
  rcases select_cases alloc fs es request fuel hs hfit hfuel with ⟨-, hwhy⟩ | ⟨hok, hmax⟩
  · rcases hwhy with ⟨bytes, hle, hrefused⟩ | hmany
    · rw [hgrants bytes hle] at hrefused
      cases hrefused
    · omega
  · have hmem := mem_selected directory (sizeLimits request) (statuses es)
    have hpaths : ∀ p ∈ selected directory (sizeLimits request) (statuses es),
        p.length ≤ 1017 ∧ 0 ∉ p := by
      intro p hp
      obtain ⟨ns, st, hd, -, -, rfl⟩ := (hmem p).mp hp
      exact ⟨hlen _ hd, entry_path_no_nul directory ns (by decide)⟩
    refine ⟨_, hok, selected_nodup _ _ _ (statuses_nodup hnames hdistinct), hmem, ?_, ?_⟩
    · rw [replyTo, endMarker]
      congr 1
      apply List.map_congr_left
      intro p hp
      exact response_fits p (hpaths p hp).1
    · have hshown := receive_reply _ 0 later hpaths (by
        unfold maxFiles at hmax
        omega)
      rw [Nat.zero_add, Nat.zero_add] at hshown
      exact hshown

def generous : Allocator := ⟨fun bytes => decide (bytes ≤ ptrdiffMax), by simp⟩

def nameMnt : Name := ⟨text "mnt", by decide, by decide, by decide, by decide, by decide⟩
def nameTest : Name := ⟨text "cartella_test", by decide, by decide, by decide, by decide, by decide⟩
def nameEnd : Name := ⟨text "end", by decide, by decide, by decide, by decide, by decide⟩
def nameLog : Name := ⟨text "log", by decide, by decide, by decide, by decide, by decide⟩

def storedFile (size : ℤ) : DirTree :=
  .leaf (some ⟨.regular, 7, size, 1, 0⟩) (by rintro s ⟨⟩; simp)

def storedDirectory (es : List (Name × DirTree)) : DirTree :=
  .dir ⟨.directory, 8, 4096, 2, 0⟩ rfl es

def storedEntries : List (Name × DirTree) :=
  [(nameEnd, storedDirectory [(nameEnd, storedFile 20), (nameLog, storedFile 5)]),
    (nameLog, storedFile 30)]

def storedHost : Host :=
  let root := storedDirectory
    [(nameMnt, storedDirectory [(nameTest, storedDirectory storedEntries)])]
  ⟨root, [root]⟩

theorem stored_distinct : ∀ e ∈ storedEntries, Distinct e.2 := by
  have hinner : Distinct (storedDirectory [(nameEnd, storedFile 20), (nameLog, storedFile 5)]) := by
    refine .dir _ _ _ (by decide) ?_
    simp only [List.forall_mem_cons]
    exact ⟨.leaf _ _, .leaf _ _, by simp⟩
  simp only [storedEntries, List.forall_mem_cons]
  exact ⟨hinner, .leaf _ _, by simp⟩

theorem stored_shows : Shows storedHost.fileSystem.opendir storedHost.fileSystem.stat directory
    storedEntries :=
  shows_of_names (storedHost.lookup_names (.dir _ rfl _ (by decide) stored_distinct) directory _
    (by rfl))

theorem large_files_shown : receiveLoop 0 ((replyTo [text "/mnt/cartella_test/end/end",
      text "/mnt/cartella_test/log"]).map .datagram++[.timeout]) =
    ([.file 1 (text "Path: /mnt/cartella_test/end/end"),
      .file 2 (text "Path: /mnt/cartella_test/log"), .total 2], [.timeout]) := by
  have hselect : select generous storedHost.fileSystem 2 (text "10") =
      .ok (.ok [text "/mnt/cartella_test/end/end", text "/mnt/cartella_test/log"]) := by
    decide +kernel
  obtain ⟨paths, hok, -, -, -, hshown⟩ := reply_shown generous storedHost.fileSystem storedEntries
    (text "10") 2 [.timeout] stored_shows (by decide) stored_distinct (by decide) (by decide)
    (fun bytes hle => decide_eq_true hle) (by decide)
  have hpaths : paths = [text "/mnt/cartella_test/end/end", text "/mnt/cartella_test/log"] := by
    rw [hselect] at hok
    exact (Except.ok.inj (Except.ok.inj hok)).symm
  subst hpaths
  exact hshown

end ProgSistema.FileQuery
