import ProgSistema.SharedArray.LogFile

/-!
# The log of a file that exists already

`init_shared_file` takes over a file that is not empty as it finds it, with
the size and the offset that it has.
-/

set_option autoImplicit false

namespace ProgSistema.SharedArray
open CRuntime MappedFile

/-- A file with this content, mapped. Zeros fill its last page. -/
def existing (content : Bytes) : MappedFile where
  bytes i := content.getD i 0
  size := content.length

theorem init_existing (content : Bytes) (h : content ≠ []) :
    initSharedFile (existing content) = existing content :=
  if_neg fun hsize => h (List.length_eq_zero_iff.mp hsize)

/-- The places and lengths of the copies that calls of `write_to_shared_file`
make one after the other. A copy that leaves the file is the last one. -/
def copies : List Record → MappedFile → List (ℤ × ℕ)
  | [], _ => []
  | record::rest, f =>
    let len := (encode record).length
    ((f.place len).1, len)::match f.append (encode record) with
      | .ok g => copies rest g
      | .error _ => []

def Fits (size : ℕ) (record : Record) : Prop := 4+(encode record).length ≤ size

instance (size : ℕ) : DecidablePred (Fits size) := fun _ => inferInstanceAs (Decidable (_ ≤ _))

/-- The next record is not copied in front of the log. An offset so far below
zero that the record would end there as well makes the log begin again. -/
def OffsetUsable (f : MappedFile) (record : Record) : Prop :=
  0 ≤ f.offset ∨ f.offset+4+(encode record).length < 0

theorem copies_inside (records : List Record) (f : MappedFile) (hsize : f.size < 2^63)
    (hlines : ∀ record ∈ records, (encode record).length < 64) :
    (∀ w ∈ copies records f, Inside f.size w) ↔
      (∀ record ∈ records, Fits f.size record) ∧
        ∀ record ∈ records.head?, OffsetUsable f record := by
  induction records generalizing f with
  | nil => simp [copies]
  | cons record rest ih =>
    have hline : (encode record).length < 2^30 := by
      have := hlines record List.mem_cons_self
      omega
    have hfirst := place_inside_iff f hsize hline
    by_cases hinside : Inside f.size ((f.place (encode record).length).1, (encode record).length)
    · -- the offset is not negative from here on
      obtain ⟨g, hg, hgsize, hglow⟩ := append_inside f (encode record) hline hinside hsize
      have hrest := ih g (hgsize ▸ hsize) fun r hr => hlines r (List.mem_cons_of_mem record hr)
      have husable : ∀ r ∈ rest.head?, OffsetUsable g r := fun _ _ => Or.inl hglow
      rw [hgsize] at hrest
      obtain ⟨hfits, hoffset⟩ := hfirst.mp hinside
      have hcopies : copies (record::rest) f =
          ((f.place (encode record).length).1, (encode record).length)::copies rest g := by
        simp only [copies, hg]
      rw [hcopies, List.forall_mem_cons, hrest, List.forall_mem_cons]
      constructor
      · rintro ⟨-, hall, -⟩
        refine ⟨⟨hfits, hall⟩, ?_⟩
        intro r hr
        cases hr
        exact hoffset
      · rintro ⟨⟨-, hall⟩, -⟩
        exact ⟨hinside, hall, husable⟩
    · constructor
      · intro hall
        exact absurd (hall _ List.mem_cons_self) hinside
      · rintro ⟨hfits, hoffset⟩
        exact absurd (hfirst.mpr ⟨hfits record List.mem_cons_self, hoffset record rfl⟩) hinside

/-- All copies lie behind the offset and inside the file exactly if every
record fits and the first one finds an offset that can be used. -/
theorem existing_log_iff (content : Bytes) (records : List Record) (hcontent : content ≠ [])
    (hsize : content.length < 2^63) (hlines : ∀ record ∈ records, (encode record).length < 64) :
    (∀ w ∈ copies records (initSharedFile (existing content)), Inside content.length w) ↔
      (∀ record ∈ records, Fits content.length record) ∧
        ∀ record ∈ records.head?, OffsetUsable (existing content) record := by
  rw [init_existing content hcontent]
  exact copies_inside records (existing content) hsize hlines

def morning : Record := ⟨text "09:30:00", 7⟩

def noon : Record := ⟨text "12:00:00", 4711⟩

/-- The offset 5 and a log of five bytes in a file of 32 bytes. The second
record begins the log again. -/
theorem two_records_inside :
    let writes := copies [morning, noon] (initSharedFile (existing
      ([5, 0, 0, 0, 104, 101, 108, 108, 111]++List.replicate 23 0)))
    writes.length = 2 ∧ ∀ w ∈ writes, Inside 32 w :=
  ⟨by decide +kernel, (existing_log_iff _ [morning, noon] (by decide) (by decide) (by decide)).mpr
    ⟨by decide, fun _ _ => .inl (by decide)⟩⟩

/-- A file of ten bytes does not hold a record, which is copied behind its end. -/
theorem copied_behind_end :
    ¬ ∀ (content : Bytes) (records : List Record), content ≠ [] → content.length < 2^63 →
      (∀ record ∈ records, (encode record).length < 64) →
      ∀ w ∈ copies records (initSharedFile (existing content)), Inside content.length w := by
  intro h
  have hcopy := h (text "old notes\n") [morning] (by decide) (by decide) (by decide) (4, 13)
    (by decide)
  revert hcopy
  decide

end ProgSistema.SharedArray
