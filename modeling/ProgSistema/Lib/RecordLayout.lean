import ProgSistema.Lib.CRuntime

/-!
# Records one after another in a file

A record is found by the offset of its first byte. Replacing a record by one of
the same length, or adding one at the end, leaves all others where they are.
-/

set_option autoImplicit false

namespace ProgSistema.RecordLayout
variable {α : Type*} (enc : α → Bytes)

def pread (file : Bytes) (offset n : ℕ) : Bytes := (file.drop offset).take n

/-- A file after a write at an offset; a gap before it is filled with zeros. -/
def pwrite (file : Bytes) (offset : ℕ) (bytes : Bytes) : Bytes :=
  file.take offset++List.replicate (offset-file.length) 0++bytes++file.drop (offset+bytes.length)

def image (xs : List α) : Bytes := xs.flatMap enc

def get : List α → ℕ → Option α
  | [], _ => none
  | x::xs, n =>
    if n = 0 then some x
    else if n < (enc x).length then none
    else get xs (n-(enc x).length)

def put : List α → ℕ → α → List α
  | [], _, _ => []
  | x::xs, n, y =>
    if n = 0 then y::xs
    else if n < (enc x).length then x::xs
    else x::put xs (n-(enc x).length) y

variable {enc}

@[simp] theorem image_nil : image enc [] = [] := rfl

@[simp] theorem image_cons (x : α) (xs : List α) : image enc (x::xs) = enc x++image enc xs := rfl

@[simp] theorem image_append (xs ys : List α) :
    image enc (xs++ys) = image enc xs++image enc ys := List.flatMap_append

theorem image_replicate_length (n : ℕ) (x : α) :
    (image enc (List.replicate n x)).length = n*(enc x).length := by
  induction n with
  | zero => simp
  | succ n ih =>
    rw [List.replicate_succ, image_cons, List.length_append, ih, Nat.succ_mul, Nat.add_comm]

theorem put_length (xs : List α) (n : ℕ) (y : α) : (put enc xs n y).length = xs.length := by
  induction xs generalizing n with
  | nil => rfl
  | cons x xs ih =>
    rw [put]
    split_ifs
    · rfl
    · rfl
    · rw [List.length_cons, ih, List.length_cons]

theorem mem_put {xs : List α} {n : ℕ} {y z : α} (h : z ∈ put enc xs n y) : z = y ∨ z ∈ xs := by
  induction xs generalizing n with
  | nil => cases h
  | cons x xs ih =>
    rw [put] at h
    split_ifs at h
    · rcases List.mem_cons.mp h with rfl | hz
      · exact Or.inl rfl
      · exact Or.inr (List.mem_cons_of_mem _ hz)
    · exact Or.inr h
    · rcases List.mem_cons.mp h with rfl | hz
      · exact Or.inr List.mem_cons_self
      · exact (ih hz).imp_right (List.mem_cons_of_mem _)

theorem pread_end (file : Bytes) (n : ℕ) : pread file file.length n = [] := by
  simp [pread]

theorem pwrite_middle (a b c : Bytes) {b' : Bytes} (h : b'.length = b.length) :
    pwrite (a++b++c) a.length b' = a++b'++c := by
  simp [pwrite, h]

theorem pwrite_end (file bytes : Bytes) : pwrite file file.length bytes = file++bytes := by
  simp [pwrite]

section records
variable (he : ∀ x, 0 < (enc x).length)
include he

theorem get_split (a b : List α) (x : α) : get enc (a++x::b) (image enc a).length = some x := by
  induction a with
  | nil => rfl
  | cons y a ih =>
    have hy := he y
    simp only [List.cons_append, get, image_cons, List.length_append]
    rw [if_neg (by omega), if_neg (by omega), Nat.add_sub_cancel_left, ih]

omit he in
theorem split_of_get {xs : List α} {n : ℕ} {x : α} (h : get enc xs n = some x) :
    ∃ a b, xs = a++x::b ∧ n = (image enc a).length := by
  induction xs generalizing n with
  | nil => cases h
  | cons y xs ih =>
    rw [get] at h
    split_ifs at h with hzero hinside
    · cases h
      exact ⟨[], xs, rfl, hzero⟩
    · obtain ⟨a, b, hsplit, hn⟩ := ih h
      refine ⟨y::a, b, by rw [hsplit]; rfl, ?_⟩
      rw [image_cons, List.length_append]
      omega

theorem put_split (a b : List α) (x y : α) :
    put enc (a++x::b) (image enc a).length y = a++y::b := by
  induction a with
  | nil => rfl
  | cons z a ih =>
    have hz := he z
    simp only [List.cons_append, put, image_cons, List.length_append]
    rw [if_neg (by omega), if_neg (by omega), Nat.add_sub_cancel_left, ih]

/-- Only the record replaced is another one than before. -/
theorem get_put {xs : List α} {n : ℕ} {x y : α} (h : get enc xs n = some x)
    (hy : (enc y).length = (enc x).length) :
    get enc (put enc xs n y) = Function.update (get enc xs) n (some y) := by
  induction xs generalizing n with
  | nil => cases h
  | cons z xs ih =>
    ext1 m
    by_cases hn : n = 0
    · subst hn
      cases h
      by_cases hm : m = 0
      · simp [put, get, hm]
      · simp [put, get, hm, hy]
    · have hz := he z
      have hinside : ¬ n < (enc z).length := fun hlt => by
        rw [get, if_neg hn, if_pos hlt] at h
        cases h
      rw [get, if_neg hn, if_neg hinside] at h
      rw [put, if_neg hn, if_neg hinside, get, ih h]
      by_cases hm : m = n
      · subst hm
        rw [if_neg hn, if_neg hinside, Function.update_self, Function.update_self]
      · rw [Function.update_of_ne hm, get]
        by_cases hm0 : m = 0
        · rw [if_pos hm0, if_pos hm0]
        by_cases hlt : m < (enc z).length
        · rw [if_neg hm0, if_neg hm0, if_pos hlt, if_pos hlt]
        · rw [if_neg hm0, if_neg hm0, if_neg hlt, if_neg hlt, Function.update_of_ne]
          omega

omit he in
theorem get_lt {xs : List α} {n : ℕ} {x : α} (h : get enc xs n = some x) :
    n+(enc x).length ≤ (image enc xs).length := by
  obtain ⟨a, b, rfl, rfl⟩ := split_of_get h
  simp only [image_append, image_cons, List.length_append]
  omega

omit he in
theorem get_mem {xs : List α} {n : ℕ} {x : α} (h : get enc xs n = some x) : x ∈ xs := by
  obtain ⟨a, b, rfl, rfl⟩ := split_of_get h
  simp

theorem get_end (xs : List α) : get enc xs (image enc xs).length = none := by
  cases h : get enc xs (image enc xs).length with
  | none => rfl
  | some x =>
    have hlt := get_lt h
    have hx := he x
    omega

theorem get_append (xs : List α) (y : α) :
    get enc (xs++[y]) = Function.update (get enc xs) (image enc xs).length (some y) := by
  ext1 m
  by_cases hm : m = (image enc xs).length
  · rw [hm, Function.update_self, get_split he]
  rw [Function.update_of_ne hm]
  induction xs generalizing m with
  | nil =>
    have hm0 : m ≠ 0 := hm
    simp [get, hm0]
  | cons z xs ih =>
    rw [image_cons, List.length_append] at hm
    rw [List.cons_append, get, get]
    by_cases hm0 : m = 0
    · rw [if_pos hm0, if_pos hm0]
    by_cases hlt : m < (enc z).length
    · rw [if_neg hm0, if_neg hm0, if_pos hlt, if_pos hlt]
    · rw [if_neg hm0, if_neg hm0, if_neg hlt, if_neg hlt]
      exact ih _ (by omega)

/-- Behind a record there is another one or the end of the file. -/
theorem get_next {xs : List α} {n : ℕ} {x : α} (h : get enc xs n = some x) :
    n+(enc x).length = (image enc xs).length ∨ ∃ y, get enc xs (n+(enc x).length) = some y := by
  obtain ⟨a, b, rfl, rfl⟩ := split_of_get h
  cases b with
  | nil => exact Or.inl (by simp)
  | cons y b =>
    refine Or.inr ⟨y, ?_⟩
    have hget := get_split he (a++[x]) b y
    simpa using hget

omit he in
/-- Records do not overlap. -/
theorem get_apart {xs : List α} {n m : ℕ} {x y : α} (hx : get enc xs n = some x)
    (hy : get enc xs m = some y) (h : n < m) : n+(enc x).length ≤ m := by
  induction xs generalizing n m with
  | nil => cases hx
  | cons z xs ih =>
    rw [get, if_neg (by omega)] at hy
    split_ifs at hy with hlt
    rw [get] at hx
    split_ifs at hx with hn hinside
    · cases hx
      omega
    · have hle := ih hx hy (by omega)
      omega

omit he in
theorem pread_image {xs : List α} {n : ℕ} {x : α} (h : get enc xs n = some x) {i k : ℕ}
    (hk : i+k ≤ (enc x).length) : pread (image enc xs) (n+i) k = pread (enc x) i k := by
  obtain ⟨a, b, rfl, rfl⟩ := split_of_get h
  simp only [pread, image_append, image_cons, List.drop_append]
  rw [List.drop_of_length_le (by omega), List.nil_append, Nat.add_sub_cancel_left,
    List.take_append_of_le_length (by rw [List.length_drop]; omega)]

theorem pwrite_image {xs : List α} {n : ℕ} {x y : α} (h : get enc xs n = some x) {b : Bytes}
    (hb : b.length ≤ (enc x).length) (hy : enc y = b++(enc x).drop b.length) :
    pwrite (image enc xs) n b = image enc (put enc xs n y) := by
  obtain ⟨l, r, rfl, rfl⟩ := split_of_get h
  have hx := List.take_append_drop b.length (enc x)
  have htake : b.length = ((enc x).take b.length).length := by
    rw [List.length_take, min_eq_left hb]
  have hmiddle := pwrite_middle (image enc l) ((enc x).take b.length)
    ((enc x).drop b.length++image enc r) htake
  rw [put_split he, image_append, image_append, image_cons, image_cons, hy]
  simp only [List.append_assoc] at hmiddle ⊢
  rw [← hmiddle, ← List.append_assoc (List.take _ _), hx]

theorem image_put {xs : List α} {n : ℕ} {x y : α} (h : get enc xs n = some x)
    (hy : enc y = enc x) : image enc (put enc xs n y) = image enc xs := by
  obtain ⟨l, r, rfl, rfl⟩ := split_of_get h
  rw [put_split he, image_append, image_append, image_cons, image_cons, hy]

theorem image_put_length {xs : List α} {n : ℕ} {x y : α} (h : get enc xs n = some x)
    (hy : (enc y).length = (enc x).length) :
    (image enc (put enc xs n y)).length = (image enc xs).length := by
  obtain ⟨l, r, rfl, rfl⟩ := split_of_get h
  rw [put_split he]
  simp only [image_append, image_cons, List.length_append, hy]

omit he in
theorem length_le_image {k : ℕ} (hk : ∀ x, k ≤ (enc x).length) (xs : List α) :
    k*xs.length ≤ (image enc xs).length := by
  induction xs with
  | nil => exact Nat.zero_le _
  | cons x xs ih =>
    have hx := hk x
    rw [image_cons, List.length_append, List.length_cons, Nat.mul_succ]
    omega

omit he in
theorem image_length_le {k : ℕ} {xs : List α} (hk : ∀ x ∈ xs, (enc x).length ≤ k) :
    (image enc xs).length ≤ k*xs.length := by
  induction xs with
  | nil => exact Nat.zero_le _
  | cons x xs ih =>
    have hx := hk x List.mem_cons_self
    have hxs := ih fun y hy => hk y (List.mem_cons_of_mem _ hy)
    rw [image_cons, List.length_append, List.length_cons, Nat.mul_succ]
    omega

end records

end ProgSistema.RecordLayout
