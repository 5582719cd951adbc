import ProgSistema.Lib.Decimal
import ProgSistema.Lib.LineChunks

/-!
# A server that reads values from a stream

The client writes each value on a line. The server takes whatever a receive
returns for one message, cuts it at the first end of line and converts it. It
gets the values exactly when every line has been received by itself.
-/

set_option autoImplicit false

namespace ProgSistema.ValueStream
open CRuntime LineChunks

def bufferSize : ℕ := 1024

def removeNewline (str : Bytes) : Bytes := str.takeWhile fun b => b ≠ 10 && b ≠ 13

/-- `safe_string_to_int`. A `long` has the size of a `long long`. -/
def safeStringToInt (str : Bytes) : Option ℤ :=
  let (val, endptr, erange) := strtoll str
  if erange then none
  else if endptr = str ∨ endptr ≠ [] then none
  else if val < -2^31 ∨ 2^31-1 < val then none
  else some val

/-- The variables of the server and its answers. The values assigned to `A`
only record. -/
structure Server where
  a : ℤ
  environmentA : Option Bytes
  echoes : List Bytes
  assigned : List ℤ
  deriving DecidableEq, Repr

def message (buffer : Bytes) : Option ℤ := safeStringToInt (removeNewline (cstr buffer))

def received (s : Server) (buffer : Bytes) : Server :=
  match message buffer with
  | none => s
  | some a =>
    { a, environmentA := some (printInt a), echoes := s.echoes++[printInt a],
      assigned := s.assigned++[a] }

def started : Server := { a := 0, environmentA := none, echoes := [], assigned := [] }

def serve (chunks : List Bytes) : Server := chunks.foldl received started

def stream (values : List ℤ) : Bytes := values.flatMap fun value => printInt value++[10]

structure Receives (values : List ℤ) (chunks : List Bytes) : Prop where
  nonempty : [] ∉ chunks
  fit : ∀ buffer ∈ chunks, buffer.length ≤ bufferSize-1
  stream : chunks.flatten = stream values

theorem serve_assigned (chunks : List Bytes) (s : Server) :
    (chunks.foldl received s).assigned =
      s.assigned++chunks.filterMap message := by
  induction chunks generalizing s with
  | nil => simp
  | cons buffer chunks ih =>
    rw [List.foldl_cons, ih]
    unfold received
    cases hread : message buffer with
    | none => rw [List.filterMap_cons_none hread]
    | some a => rw [List.filterMap_cons_some hread, List.append_assoc, List.singleton_append]

def Server.Current (s : Server) : Prop :=
  s.a = s.assigned.getLastD 0 ∧
    s.environmentA = (s.assigned.getLast?).map printInt

theorem serve_current (chunks : List Bytes) : (serve chunks).Current := by
  have hkeeps : ∀ s : Server, s.Current → (chunks.foldl received s).Current := by
    induction chunks with
    | nil => exact fun s hs => hs
    | cons buffer chunks ih =>
      intro s hs
      apply ih
      unfold received
      cases message buffer with
      | none => exact hs
      | some a => simp [Server.Current]
  exact hkeeps started ⟨rfl, rfl⟩

/-! What the conversion gives back. -/

def IsInt (value : ℤ) : Prop := -2^31 ≤ value ∧ value < 2^31

theorem convert_scanned {str : Bytes} {value : ℤ} (hscan : scanInteger str = some (value, []))
    (hstr : str ≠ []) (hvalue : IsInt value) : safeStringToInt str = some value := by
  obtain ⟨hlow, hhigh⟩ := hvalue
  have hlong : -2^63 ≤ value ∧ value ≤ 2^63-1 := by
    norm_num at hlow hhigh ⊢
    omega
  have hint : ¬ (value < -2^31 ∨ 2^31-1 < value) := by
    norm_num at hlow hhigh ⊢
    omega
  obtain ⟨-, hstrtol⟩ := (strtoll_cases hscan).resolve_right fun hout => hout.1 hlong
  unfold safeStringToInt
  rw [hstrtol]
  dsimp only
  rw [if_neg (by decide), if_neg (by simpa using hstr.symm), if_neg hint]

theorem scanned_of_convert {str rest : Bytes} {value scanned : ℤ}
    (hscan : scanInteger str = some (scanned, rest)) (h : safeStringToInt str = some value) :
    value = scanned := by
  unfold safeStringToInt at h
  rcases strtoll_cases hscan with ⟨-, hstrtol⟩ | ⟨-, bound, hstrtol⟩
  · rw [hstrtol] at h
    dsimp only at h
    split at h
    · cases h
    · split at h
      · cases h
      · split at h
        · cases h
        · cases h
          rfl
  · rw [hstrtol] at h
    cases h

theorem convert_empty : safeStringToInt [] = none := by decide

theorem convert_minus : safeStringToInt [45] = none := by decide

/-- What is printed for an `int` is converted back. -/
theorem convert_printed {value : ℤ} (h : IsInt value) :
    safeStringToInt (printInt value) = some value := by
  have hdigits := decimal_digits value.natAbs
  have hne := decimal_ne_nil value.natAbs
  unfold printInt
  split
  · rename_i hneg
    have hscan := scan_minus hdigits hne
    rw [digits_value_decimal, show -(value.natAbs : ℤ) = value by omega] at hscan
    exact convert_scanned hscan (List.cons_ne_nil _ _) h
  · rename_i hnonneg
    have hscan := scan_digits hdigits hne
    rw [digits_value_decimal, show (value.natAbs : ℤ) = value by omega] at hscan
    exact convert_scanned hscan hne h

/-- Some of the digits of a number are not converted to it. -/
theorem convert_digits {digits : Bytes} {value : ℤ} (hwithin : digits <:+: decimal value.natAbs)
    (hpart : 0 ≤ value → digits ≠ decimal value.natAbs) :
    safeStringToInt digits ≠ some value := by
  intro h
  have hall : ∀ b ∈ digits, isDigit b = true := fun b hb =>
    decimal_digits value.natAbs b (hwithin.subset hb)
  by_cases hne : digits = []
  · rw [hne, convert_empty] at h
    cases h
  · have hvalue := scanned_of_convert (scan_digits hall hne) h
    have hshort : digits.length < (decimal value.natAbs).length :=
      lt_of_le_of_ne hwithin.length_le fun hlen =>
        hpart (by omega) (hwithin.eq_of_length hlen)
    have hlt := digits_value_short hall hne hshort
    omega

theorem convert_fragment (value : ℤ) (s : Bytes) (hwithin : s <:+: printInt value)
    (hpart : s ≠ printInt value) : safeStringToInt s ≠ some value := by
  unfold printInt at hwithin hpart
  split at hwithin <;> rename_i hneg
  · rw [if_pos hneg] at hpart
    rcases List.infix_cons_iff.mp hwithin with hstart | hin
    · cases s with
      | nil =>
        rw [convert_empty]
        exact nofun
      | cons b digits =>
        obtain ⟨rfl, hdigits⟩ := List.cons_prefix_cons.mp hstart
        intro h
        have hall : ∀ c ∈ digits, isDigit c = true := fun c hc =>
          decimal_digits value.natAbs c (hdigits.subset hc)
        by_cases hne : digits = []
        · rw [hne, convert_minus] at h
          cases h
        · have hvalue := scanned_of_convert (scan_minus hall hne) h
          have hshort : digits.length < (decimal value.natAbs).length :=
            lt_of_le_of_ne hdigits.length_le fun hlen =>
              hpart (congrArg (45::·) (hdigits.eq_of_length hlen))
          have hlt := digits_value_short hall hne hshort
          omega
    · exact convert_digits hin (by omega)
  · rw [if_neg hneg] at hpart
    exact convert_digits hwithin fun _ => hpart

theorem printed_bytes (value : ℤ) : ∀ b ∈ printInt value, isDigit b = true ∨ b = 45 := by
  intro b hb
  unfold printInt at hb
  split at hb
  · rcases List.mem_cons.mp hb with rfl | hdigit
    · exact Or.inr rfl
    · exact Or.inl (decimal_digits _ b hdigit)
  · exact Or.inl (decimal_digits _ b hb)

theorem printed_readable : Readable 10 printInt safeStringToInt where
  clean value hmem := by
    rcases printed_bytes value 10 hmem with h | h <;> revert h <;> decide
  empty := convert_empty
  fragment := convert_fragment

/-- In a part of the stream, a message ends at the first newline. -/
theorem message_of_stream {values : List ℤ} {chunks : List Bytes} (h : Receives values chunks)
    {buffer : Bytes} (hbuffer : buffer ∈ chunks) :
    message buffer = readChunk 10 safeStringToInt buffer := by
  have hbytes : ∀ b ∈ buffer, b ≠ 0 ∧ b ≠ 13 := by
    intro b hb
    have hstream : b ∈ stream values := by
      rw [← h.stream]
      exact List.mem_flatten.mpr ⟨buffer, hbuffer, hb⟩
    obtain ⟨value, -, hline⟩ := List.mem_flatMap.mp hstream
    rcases List.mem_append.mp hline with hprinted | hend
    · rcases printed_bytes value b hprinted with hdigit | rfl
      · constructor <;> rintro rfl <;> revert hdigit <;> decide
      · decide
    · rw [List.mem_singleton.mp hend]
      decide
  have hcstr : cstr buffer = buffer := cstr_of_no_nul buffer fun h0 => (hbytes 0 h0).1 rfl
  unfold message readChunk removeNewline
  rw [hcstr]
  congr 1
  apply take_while_congr
  intro b hb
  simp [(hbytes b hb).2]

/-- The server assigns the values that have been sent, and no others, exactly
if each line is received alone, with its newline or before it. -/
theorem values_assigned {values : List ℤ} {chunks : List Bytes}
    (hvalues : ∀ value ∈ values, IsInt value) (h : Receives values chunks) :
    ((serve chunks).assigned = values ∧ (serve chunks).a = values.getLastD 0) ↔
      WholeLines 10 printInt values chunks := by
  have hread : (serve chunks).assigned = chunks.filterMap (readChunk 10 safeStringToInt) := by
    rw [serve, serve_assigned]
    exact List.filterMap_congr fun buffer hbuffer => message_of_stream h hbuffer
  have hwhole := read_iff_whole printed_readable
    (fun value hvalue => convert_printed (hvalues value hvalue)) h.nonempty h.stream
  rw [← hwhole, ← hread]
  constructor
  · exact fun hassigned => hassigned.1
  · intro hassigned
    refine ⟨hassigned, ?_⟩
    rw [(serve_current chunks).1, hassigned]

/-- Two lines, each received alone; the first one before its newline. -/
theorem two_values_assigned :
    (serve [text "12", text "\n", text "-7\n"]).assigned = [12, -7] := by
  have hreceives : Receives [12, -7] [text "12", text "\n", text "-7\n"] :=
    ⟨by decide +kernel, by decide +kernel, by decide +kernel⟩
  have hwhole : WholeLines 10 printInt [12, -7] [text "12", text "\n", text "-7\n"] :=
    .split 12 (.line (-7) .nil)
  exact ((values_assigned (by unfold IsInt; decide +kernel) hreceives).mpr hwhole).1

/-- Two lines received together. -/
theorem together_not_assigned : ¬ ∀ values chunks, (∀ value ∈ values, IsInt value) →
    Receives values chunks → (serve chunks).assigned = values := by
  intro hclaim
  have hassigned := hclaim [12, 34] [text "12\n34\n"] (by unfold IsInt; decide +kernel)
    ⟨by decide +kernel, by decide +kernel, by decide +kernel⟩
  revert hassigned
  decide +kernel

end ProgSistema.ValueStream
