import Mathlib.Data.List.TakeWhile
import Mathlib.Tactic

/-!
# Lines read from the chunks of a stream

Values are written one on a line. A reader that takes each chunk of the stream
for a line, up to the first separator in it, gets the values exactly if every
line comes as a chunk of its own, with its separator or before it.
-/

set_option autoImplicit false

namespace ProgSistema.LineChunks

section
variable {α β : Type*} (sep : α) (body : β → List α)

def line (v : β) : List α := body v++[sep]

def lines (vs : List β) : List α := vs.flatMap (line sep body)

inductive WholeLines : List β → List (List α) → Prop
  | nil : WholeLines [] []
  | line (v : β) {vs : List β} {chunks : List (List α)} (h : WholeLines vs chunks) :
      WholeLines (v::vs) (line sep body v::chunks)
  | split (v : β) {vs : List β} {chunks : List (List α)} (h : WholeLines vs chunks) :
      WholeLines (v::vs) (body v::[sep]::chunks)

variable {sep body}

theorem lines_append (us vs : List β) :
    lines sep body (us++vs) = lines sep body us++lines sep body vs := List.flatMap_append

theorem whole_lines_append {us vs : List β} {chunks later : List (List α)}
    (h : WholeLines sep body us chunks) (hlater : WholeLines sep body vs later) :
    WholeLines sep body (us++vs) (chunks++later) := by
  induction h with
  | nil => exact hlater
  | line v _ ih => exact .line v ih
  | split v _ ih => exact .split v ih

theorem whole_lines_lines (vs : List β) :
    WholeLines sep body vs (vs.map (line sep body)) := by
  induction vs with
  | nil => exact .nil
  | cons v vs ih => exact .line v ih

/-- Where a nonempty beginning of the lines ends: in the line of some value or
at its end. -/
theorem lines_split {c rest : List α} {vs : List β} (hc : c ≠ [])
    (h : c++rest = lines sep body vs) :
    ∃ us v ws x r, vs = us++v::ws ∧ line sep body v = x++r ∧ x ≠ [] ∧
      rest = r++lines sep body ws := by
  induction vs generalizing c with
  | nil => exact absurd (List.append_eq_nil_iff.mp h).1 hc
  | cons w vs ih =>
    have hlines : c++rest = line sep body w++lines sep body vs := h
    rcases List.append_eq_append_iff.mp hlines with ⟨r, hline, hrest⟩ | ⟨c', rfl, hrest⟩
    · exact ⟨[], w, vs, c, r, rfl, hline, hc, hrest⟩
    · by_cases hc' : c' = []
      · subst hc'
        refine ⟨[], w, vs, line sep body w, [], rfl, (List.append_nil _).symm, ?_, hrest.symm⟩
        rwa [List.append_nil] at hc
      · obtain ⟨us, v, ws, x, r, rfl, hline, hx, hr⟩ := ih hc' hrest.symm
        exact ⟨w::us, v, ws, x, r, rfl, hline, hx, hr⟩

end

/-! ## Lines read back from the whole text -/

/-- The parts of a text up to each separator. What follows the last separator
counts as a line unless it is empty. -/
def splitLines {α : Type*} [DecidableEq α] (sep : α) : List α → List (List α)
  | [] => []
  | a::text =>
    if a = sep then []::splitLines sep text
    else match splitLines sep text with
      | [] => [[a]]
      | l::ls => (a::l)::ls

section
variable {α : Type*} [DecidableEq α] {sep : α}

theorem split_lines_line {l : List α} (h : sep ∉ l) (text : List α) :
    splitLines sep (l++sep::text) = l::splitLines sep text := by
  induction l with
  | nil => exact if_pos rfl
  | cons a l ih =>
    rw [List.mem_cons, not_or] at h
    rw [List.cons_append, splitLines, if_neg (Ne.symm h.1), ih h.2]

theorem split_lines_clean {text l : List α} (h : l ∈ splitLines sep text) : sep ∉ l := by
  induction text generalizing l with
  | nil => cases h
  | cons a text ih =>
    rw [splitLines] at h
    split at h
    · rcases List.mem_cons.mp h with rfl | h
      · simp
      · exact ih h
    · rename_i ha
      split at h
      · rw [List.mem_singleton.mp h, List.mem_singleton]
        exact Ne.symm ha
      · rename_i first rest heq
        rcases List.mem_cons.mp h with rfl | h
        · rw [List.mem_cons, not_or]
          exact ⟨Ne.symm ha, ih (heq ▸ List.mem_cons_self)⟩
        · exact ih (heq ▸ List.mem_cons_of_mem _ h)

theorem split_lines_append {ls : List (List α)} (h : ∀ l ∈ ls, sep ∉ l) (text : List α) :
    splitLines sep (lines sep id ls++text) = ls++splitLines sep text := by
  induction ls with
  | nil => rfl
  | cons l ls ih =>
    have hcons : lines sep id (l::ls)++text = l++sep::(lines sep id ls++text) := by
      simp [lines, line]
    rw [hcons, split_lines_line (h l (by simp)), ih fun m hm => h m (by simp [hm])]
    rfl

/-- Lines come back as they were written exactly if no line contains the
separator. -/
theorem split_lines_iff (ls : List (List α)) :
    splitLines sep (lines sep id ls) = ls ↔ ∀ l ∈ ls, sep ∉ l := by
  constructor
  · intro h l hl
    rw [← h] at hl
    exact split_lines_clean hl
  · intro h
    have happend := split_lines_append h []
    rwa [List.append_nil, splitLines, List.append_nil] at happend

end

/-- A text without the separator begins with it no later than the separator. -/
theorem prefix_before {α : Type*} {sep : α} {s : List α} (hs : sep ∉ s) (l text : List α) :
    s <+: l++sep::text ↔ s <+: l := by
  constructor
  · intro h
    rcases List.prefix_or_prefix_of_prefix h (List.prefix_append l (sep::text)) with hle | hle
    · exact hle
    · obtain ⟨r, rfl⟩ := hle
      have hr : r <+: sep::text := (List.prefix_append_right_inj l).mp h
      cases r with
      | nil => rw [List.append_nil]
      | cons a r =>
        have ha : a = sep := (List.cons_prefix_cons.mp hr).1
        exact absurd (List.mem_append_right l (ha ▸ List.mem_cons_self)) hs
  · intro h
    exact h.trans (List.prefix_append _ _)

theorem take_while_congr {α : Type*} {p q : α → Bool} {l : List α} (h : ∀ a ∈ l, p a = q a) :
    l.takeWhile p = l.takeWhile q := by
  induction l with
  | nil => rfl
  | cons a l ih =>
    rw [List.takeWhile_cons, List.takeWhile_cons, h a (by simp), ih fun b hb => h b (by simp [hb])]

section Reader
variable {α β : Type*} [DecidableEq α] {sep : α} {body : β → List α} {parse : List α → Option β}

def readChunk (sep : α) (parse : List α → Option β) (chunk : List α) : Option β :=
  parse (chunk.takeWhile (· ≠ sep))

variable (sep body parse) in
structure Readable : Prop where
  clean : ∀ v, sep ∉ body v
  empty : parse [] = none
  fragment : ∀ v s, s <:+: body v → s ≠ body v → parse s ≠ some v

theorem take_while_clean {b rest : List α} (h : sep ∉ b) :
    (b++sep::rest).takeWhile (· ≠ sep) = b := by
  rw [List.takeWhile_append_of_pos]
  · simp
  · intro a ha
    simpa using fun heq : a = sep => h (heq ▸ ha)

theorem take_while_all {b : List α} (h : sep ∉ b) : b.takeWhile (· ≠ sep) = b := by
  rw [List.takeWhile_eq_self_iff]
  intro a ha
  simpa using fun heq : a = sep => h (heq ▸ ha)

section
variable (hr : Readable sep body parse)
include hr

theorem read_line {v : β} (hv : parse (body v) = some v) (rest : List α) :
    readChunk sep parse (line sep body v++rest) = some v := by
  rw [readChunk, line, List.append_assoc, List.singleton_append, take_while_clean (hr.clean v), hv]

theorem read_body {v : β} (hv : parse (body v) = some v) :
    readChunk sep parse (body v) = some v := by
  rw [readChunk, take_while_all (hr.clean v), hv]

theorem read_separator (rest : List α) : readChunk sep parse (sep::rest) = none := by
  rw [readChunk, List.takeWhile_cons_of_neg (by simp), hr.empty]

/-- What comes after the beginning of a line is not read as its value. -/
theorem read_later {v : β} {x c rest : List α} (hx : x ≠ [])
    (h : line sep body v = x++(c++rest)) : readChunk sep parse c ≠ some v := by
  have hsplit := List.takeWhile_append_dropWhile (p := fun a => decide (a ≠ sep)) (l := c)
  have hclean : sep ∉ c.takeWhile (· ≠ sep) := fun hmem => by
    simpa using List.mem_takeWhile_imp hmem
  unfold readChunk
  generalize c.takeWhile (· ≠ sep) = s at hsplit hclean ⊢
  generalize c.dropWhile (fun a => decide (a ≠ sep)) = t at hsplit
  have hline : body v++[sep] = (x++s)++(t++rest) := by
    rw [← hsplit] at h
    simpa [line] using h
  have hshort : ∀ y, body v = x++s++y → parse s ≠ some v := by
    intro y hy
    refine hr.fragment v s ⟨x, y, hy.symm⟩ fun heq => ?_
    have hlen := congrArg List.length hy
    have hpos := List.length_pos_iff.mpr hx
    rw [heq] at hlen
    simp only [List.length_append] at hlen
    omega
  rcases List.append_eq_append_iff.mp hline with ⟨a, ha, hsep⟩ | ⟨y, hy, -⟩
  · cases a with
    | nil => exact hshort [] (by rw [ha]; simp)
    | cons b a =>
      obtain ⟨rfl, hnil⟩ := List.cons.inj hsep
      obtain ⟨rfl, -⟩ := List.append_eq_nil_iff.mp hnil.symm
      cases s using List.reverseRecOn with
      | nil =>
        rw [hr.empty]
        exact nofun
      | append_singleton s b =>
        rw [← List.append_assoc] at ha
        have hlast := (List.append_inj_right' ha rfl)
        simp only [List.cons.injEq, and_true] at hlast
        exact absurd (by simp [hlast]) hclean
  · exact hshort y hy

/-- Once the beginning of a line has gone by without its value, a value is
missing at the end. The induction is on the chunks that follow. -/
theorem late_misses {chunks : List (List α)} {pre ws : List β} {v : β} {x r : List α}
    (hchunks : [] ∉ chunks) (hstream : chunks.flatten = r++lines sep body ws)
    (hline : line sep body v = x++r) (hx : x ≠ []) :
    chunks.filterMap (readChunk sep parse) ≠ pre++v::ws := by
  induction chunks generalizing pre ws v x r with
  | nil =>
    intro hnil
    cases pre <;> cases hnil
  | cons c chunks ih =>
    intro heq
    have hc : c ≠ [] := fun hnil => hchunks (by simp [hnil])
    have hrest : [] ∉ chunks := fun hmem => hchunks (List.mem_cons_of_mem _ hmem)
    have hsplit : c++chunks.flatten = r++lines sep body ws := hstream
    have hends : (∃ r', r = c++r' ∧ chunks.flatten = r'++lines sep body ws) ∨
        ∃ c', c' ≠ [] ∧ c'++chunks.flatten = lines sep body ws := by
      rcases List.append_eq_append_iff.mp hsplit with hin | ⟨c', rfl, hlines⟩
      · exact Or.inl hin
      · by_cases hc' : c' = []
        · subst hc'
          exact Or.inl ⟨[], by simp, hlines.symm⟩
        · exact Or.inr ⟨c', hc', hlines.symm⟩
    rcases hends with ⟨r', rfl, hflat⟩ | ⟨c', hc', hlines⟩
    -- the chunk ends in the same line
    · have hline' : line sep body v = (x++c)++r' := by rw [hline, List.append_assoc]
      have hx' : x++c ≠ [] := by simp [hx]
      cases hread : readChunk sep parse c with
      | none =>
        rw [List.filterMap_cons_none hread] at heq
        exact ih hrest hflat hline' hx' heq
      | some y =>
        rw [List.filterMap_cons_some hread] at heq
        cases pre with
        | nil =>
          obtain ⟨rfl, -⟩ := List.cons.inj heq
          exact read_later hr hx hline hread
        | cons p pre => exact ih hrest hflat hline' hx' (List.cons.inj heq).2
    -- the chunk begins another line
    · obtain ⟨us, v', ws', x', r', rfl, hline', hx', hflat⟩ := lines_split hc' hlines
      cases hread : readChunk sep parse c with
      | none =>
        rw [List.filterMap_cons_none hread] at heq
        have hlate : chunks.filterMap (readChunk sep parse) = (pre++v::us)++v'::ws' := by
          rw [List.append_assoc]
          exact heq
        exact ih hrest hflat hline' hx' hlate
      | some y =>
        rw [List.filterMap_cons_some hread] at heq
        cases pre with
        | nil => exact ih hrest hflat hline' hx' (List.cons.inj heq).2
        | cons p pre =>
          have hlate : chunks.filterMap (readChunk sep parse) = (pre++v::us)++v'::ws' := by
            rw [List.append_assoc]
            exact (List.cons.inj heq).2
          exact ih hrest hflat hline' hx' hlate

/-- A stream that goes on after the beginning of another line misses a value. -/
theorem begun_misses {c : List α} {chunks : List (List α)} {vs : List β} (hc : c ≠ [])
    (hchunks : [] ∉ chunks) (hstream : c++chunks.flatten = lines sep body vs) :
    chunks.filterMap (readChunk sep parse) ≠ vs := by
  obtain ⟨us, v, ws, x, r, rfl, hline, hx, hflat⟩ := lines_split hc hstream
  exact late_misses hr hchunks hflat hline hx

theorem whole_lines_read {vs : List β} {chunks : List (List α)}
    (hvs : ∀ v ∈ vs, parse (body v) = some v) (h : WholeLines sep body vs chunks) :
    chunks.filterMap (readChunk sep parse) = vs := by
  induction h with
  | nil => rfl
  | line v h ih =>
    have hv := hvs v (by simp)
    have hread := read_line hr hv []
    rw [List.append_nil] at hread
    rw [List.filterMap_cons_some hread, ih fun w hw => hvs w (by simp [hw])]
  | split v h ih =>
    have hv := hvs v (by simp)
    rw [List.filterMap_cons_some (read_body hr hv), List.filterMap_cons_none (read_separator hr []),
      ih fun w hw => hvs w (by simp [hw])]

/-- The first chunk is a whole line without its separator. -/
theorem whole_split {v : β} {vs : List β} {chunks : List (List α)}
    (hv : parse (body v) = some v) (hchunks : [] ∉ chunks)
    (hflat : chunks.flatten = sep::lines sep body vs)
    (h : (body v::chunks).filterMap (readChunk sep parse) = v::vs)
    (ih : ∀ {chunks}, [] ∉ chunks → chunks.flatten = lines sep body vs →
      chunks.filterMap (readChunk sep parse) = vs → WholeLines sep body vs chunks) :
    WholeLines sep body (v::vs) (body v::chunks) := by
  rw [List.filterMap_cons_some (read_body hr hv)] at h
  have hread := (List.cons.inj h).2
  cases chunks with
  | nil => cases hflat
  | cons d chunks =>
    have hd : d ≠ [] := fun hnil => hchunks (by simp [hnil])
    have hrest : [] ∉ chunks := fun hmem => hchunks (List.mem_cons_of_mem _ hmem)
    obtain ⟨b, d, rfl⟩ := List.exists_cons_of_ne_nil hd
    obtain ⟨rfl, hlines⟩ := List.cons.inj hflat
    rw [List.filterMap_cons_none (read_separator hr d)] at hread
    by_cases hd : d = []
    · subst hd
      exact .split v (ih hrest hlines hread)
    · exact absurd hread (begun_misses hr hd hrest hlines)

/-- The first chunk is a part of the first line. -/
theorem cut_misses {v : β} {vs : List β} {c r : List α} {chunks : List (List α)}
    (hc : c ≠ []) (hchunks : [] ∉ chunks) (hline : line sep body v = c++r) (hr' : r ≠ [])
    (hcut : c ≠ body v) (hflat : chunks.flatten = r++lines sep body vs) :
    (c::chunks).filterMap (readChunk sep parse) ≠ v::vs := by
  intro h
  cases hread : readChunk sep parse c with
  | none =>
    rw [List.filterMap_cons_none hread] at h
    have hlate : chunks.filterMap (readChunk sep parse) = []++v::vs := h
    exact late_misses hr hchunks hflat hline hc hlate
  | some y =>
    rw [List.filterMap_cons_some hread] at h
    obtain ⟨rfl, -⟩ := List.cons.inj h
    obtain ⟨r, b, rfl⟩ := List.eq_nil_or_concat' r |>.resolve_left hr'
    rw [line, ← List.append_assoc] at hline
    obtain ⟨hbody, -⟩ := List.append_inj' hline rfl
    have hclean : sep ∉ c := fun hmem => hr.clean y (by rw [hbody]; simp [hmem])
    rw [readChunk, take_while_all hclean] at hread
    exact hr.fragment y c ⟨[], r, hbody.symm⟩ hcut hread

theorem read_whole_lines {vs : List β} {chunks : List (List α)}
    (hvs : ∀ v ∈ vs, parse (body v) = some v) (hchunks : [] ∉ chunks)
    (hstream : chunks.flatten = lines sep body vs)
    (h : chunks.filterMap (readChunk sep parse) = vs) : WholeLines sep body vs chunks := by
  induction vs generalizing chunks with
  | nil =>
    cases chunks with
    | nil => exact .nil
    | cons c chunks =>
      have hnil := (List.append_eq_nil_iff.mp hstream).1
      exact absurd (by simp [hnil]) hchunks
  | cons v vs ih =>
    have hv := hvs v (by simp)
    have hvs' : ∀ w ∈ vs, parse (body w) = some w := fun w hw => hvs w (by simp [hw])
    cases chunks with
    | nil => cases h
    | cons c chunks =>
      have hc : c ≠ [] := fun hnil => hchunks (by simp [hnil])
      have hrest : [] ∉ chunks := fun hmem => hchunks (List.mem_cons_of_mem _ hmem)
      have hsplit : c++chunks.flatten = line sep body v++lines sep body vs := hstream
      rcases List.append_eq_append_iff.mp hsplit with ⟨r, hr', hflat⟩ | ⟨c', rfl, hlines⟩
      · by_cases hcut : c = body v
        · subst hcut
          have hsep : r = [sep] := (List.append_cancel_left hr').symm
          subst hsep
          exact whole_split hr hv hrest hflat h fun hrest hstream h => ih hvs' hrest hstream h
        · by_cases hend : r = []
          · subst hend
            rw [List.append_nil] at hr'
            have hread := read_line hr hv []
            rw [List.append_nil, hr'] at hread
            rw [List.filterMap_cons_some hread] at h
            rw [← hr']
            exact .line v (ih hvs' hrest hflat (List.cons.inj h).2)
          · exact absurd h (cut_misses hr hc hrest hr' hend hcut hflat)
      · rw [List.filterMap_cons_some (read_line hr hv c')] at h
        have hread := (List.cons.inj h).2
        by_cases hc' : c' = []
        · subst hc'
          rw [List.append_nil]
          exact .line v (ih hvs' hrest hlines.symm hread)
        · exact absurd hread (begun_misses hr hc' hrest hlines.symm)

/-- The reader gets the values exactly from whole lines. -/
theorem read_iff_whole {vs : List β} {chunks : List (List α)}
    (hvs : ∀ v ∈ vs, parse (body v) = some v) (hchunks : [] ∉ chunks)
    (hstream : chunks.flatten = lines sep body vs) :
    chunks.filterMap (readChunk sep parse) = vs ↔ WholeLines sep body vs chunks :=
  ⟨read_whole_lines hr hvs hchunks hstream, whole_lines_read hr hvs⟩

end

end Reader

end ProgSistema.LineChunks
