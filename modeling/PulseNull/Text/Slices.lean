import PulseNull.Text.Casing

/-! Places in a text by their byte offsets: slices, which must lie between characters, and where a
part is found. -/
namespace PulseNull.Text

/-- `str::len` -/
def size (text : Chars) : Nat := (text.map Char.utf8Size).sum

/-- `&text[n..]`; none where that panics. -/
def sliceFrom : Nat → Chars → Option Chars
  | 0, text => some text
  | _ + 1, [] => none
  | n + 1, c :: text => if c.utf8Size ≤ n + 1 then sliceFrom (n + 1 - c.utf8Size) text else none

/-- `&text[..n]` -/
def sliceTo : Nat → Chars → Option Chars
  | 0, _ => some []
  | _ + 1, [] => none
  | n + 1, c :: text =>
    if c.utf8Size ≤ n + 1 then (sliceTo (n + 1 - c.utf8Size) text).map (c :: ·) else none

/-- `&text[a..b]` -/
def slice (a b : Nat) (text : Chars) : Option Chars := (sliceFrom a text).bind (sliceTo (b - a))

/-- `str::find` -/
def find (part : Chars) : Chars → Option Nat
  | [] => if part = [] then some 0 else none
  | c :: text =>
    if part.isPrefixOf (c :: text) then some 0 else (find part text).map (c.utf8Size + ·)

def digitsNumber (digits : Chars) : Nat := digits.foldl (fun n c => 10 * n + (c.toNat - 48)) 0

def readDigits (digits : Chars) : Option Int :=
  if digits ≠ [] ∧ digits.all Char.isDigit then some (digitsNumber digits) else none

/-- `str::parse::<i64>` -/
def parseI64 (text : Chars) : Option Int :=
  let n : Option Int := match text with
    | '+' :: digits => readDigits digits
    | '-' :: digits => (readDigits digits).map (- ·)
    | digits => readDigits digits
  n.filter fun n => -2^63 ≤ n ∧ n < 2^63

/-- The last `w` decimal digits of a number. -/
def padded : Nat → Nat → Chars
  | 0, _ => []
  | w + 1, n => padded w (n / 10) ++ [Nat.digitChar (n % 10)]

theorem size_append (a b : Chars) : size (a ++ b) = size a + size b := by simp [size]

@[simp] theorem size_cons (c : Char) (text : Chars) : size (c :: text) = c.utf8Size + size text := by
  simp [size]

@[simp] theorem size_nil : size [] = 0 := rfl

theorem sliceFrom_cons {n : Nat} (hn : 0 < n) (c : Char) (text : Chars) : sliceFrom n (c :: text) =
    if c.utf8Size ≤ n then sliceFrom (n - c.utf8Size) text else none := by
  obtain ⟨k, rfl⟩ := Nat.exists_eq_add_of_le' hn
  rfl

theorem sliceTo_cons {n : Nat} (hn : 0 < n) (c : Char) (text : Chars) : sliceTo n (c :: text) =
    if c.utf8Size ≤ n then (sliceTo (n - c.utf8Size) text).map (c :: ·) else none := by
  obtain ⟨k, rfl⟩ := Nat.exists_eq_add_of_le' hn
  rfl

@[simp] theorem sliceFrom_zero (text : Chars) : sliceFrom 0 text = some text := by
  cases text <;> rfl

@[simp] theorem sliceTo_zero (text : Chars) : sliceTo 0 text = some [] := by
  cases text <;> rfl

/-- A slice cuts a text at a character boundary. -/
theorem sliceFrom_eq_some {n : Nat} {text rest : Chars} :
    sliceFrom n text = some rest ↔ ∃ a, text = a ++ rest ∧ size a = n := by
  induction text generalizing n with
  | nil =>
    cases n with
    | zero =>
      rw [sliceFrom_zero, Option.some.injEq]
      constructor
      · rintro rfl
        exact ⟨[], rfl, rfl⟩
      · rintro ⟨a, h, _⟩
        exact (List.append_eq_nil_iff.mp h.symm).2.symm
    | succ n =>
      constructor
      · intro h
        cases h
      · rintro ⟨a, h, ha⟩
        rw [(List.append_eq_nil_iff.mp h.symm).1] at ha
        cases ha
  | cons c text ih =>
    rcases Nat.eq_zero_or_pos n with rfl | hn
    · rw [sliceFrom_zero, Option.some.injEq]
      constructor
      · rintro rfl
        exact ⟨[], rfl, rfl⟩
      · rintro ⟨a, h, ha⟩
        cases a with
        | nil => exact h
        | cons d a =>
          have := d.utf8Size_pos
          rw [size_cons] at ha
          omega
    · rw [sliceFrom_cons hn]
      have hc := c.utf8Size_pos
      split
      · next hle =>
        rw [ih]
        constructor
        · rintro ⟨a, rfl, ha⟩
          exact ⟨c :: a, rfl, by rw [size_cons]; omega⟩
        · rintro ⟨a, h, ha⟩
          cases a with
          | nil =>
            rw [size_nil] at ha
            omega
          | cons d a =>
            obtain ⟨rfl, rfl⟩ := List.cons.inj h
            rw [size_cons] at ha
            exact ⟨a, rfl, by omega⟩
      · next hle =>
        constructor
        · intro h
          cases h
        · rintro ⟨a, h, ha⟩
          cases a with
          | nil =>
            rw [size_nil] at ha
            omega
          | cons d a =>
            obtain ⟨rfl, rfl⟩ := List.cons.inj h
            rw [size_cons] at ha
            omega

theorem sliceFrom_append (a b : Chars) : sliceFrom (size a) (a ++ b) = some b :=
  sliceFrom_eq_some.mpr ⟨a, rfl, rfl⟩

theorem sliceTo_append (a b : Chars) : sliceTo (size a) (a ++ b) = some a := by
  induction a with
  | nil => exact sliceTo_zero b
  | cons c a ih =>
    have hc := c.utf8Size_pos
    have hle : c.utf8Size ≤ c.utf8Size + size a := Nat.le_add_right _ _
    rw [size_cons, List.cons_append, sliceTo_cons (by omega), if_pos hle, Nat.add_sub_cancel_left, ih]
    rfl

theorem slice_append (a b c : Chars) : slice (size a) (size a + size b) (a ++ (b ++ c)) = some b := by
  rw [slice, sliceFrom_append, Nat.add_sub_cancel_left]
  exact sliceTo_append b c

theorem sliceTo_eq_some {n : Nat} {text a : Chars} :
    sliceTo n text = some a ↔ ∃ rest, text = a ++ rest ∧ size a = n := by
  constructor
  · intro h
    induction text generalizing n a with
    | nil =>
      cases n with
      | zero => exact ⟨[], by simpa using h.symm, by simpa using (Option.some.inj h) ▸ rfl⟩
      | succ n => cases h
    | cons c text ih =>
      rcases Nat.eq_zero_or_pos n with rfl | hn
      · rw [sliceTo_zero, Option.some.injEq] at h
        subst h
        exact ⟨c :: text, rfl, rfl⟩
      · rw [sliceTo_cons hn] at h
        split at h
        · next hle =>
          obtain ⟨b, hb, rfl⟩ := Option.map_eq_some_iff.mp h
          obtain ⟨rest, rfl, hsize⟩ := ih hb
          exact ⟨rest, rfl, by rw [size_cons]; omega⟩
        · cases h
  · rintro ⟨rest, rfl, rfl⟩
    exact sliceTo_append a rest

theorem slice_eq_some {a b : Nat} {text w : Chars} :
    slice a b text = some w ↔ ∃ x rest, text = x ++ (w ++ rest) ∧ size x = a ∧ size w = b - a := by
  rw [slice, Option.bind_eq_some_iff]
  constructor
  · rintro ⟨y, hy, hw⟩
    obtain ⟨x, rfl, hx⟩ := sliceFrom_eq_some.mp hy
    obtain ⟨rest, rfl, hsize⟩ := sliceTo_eq_some.mp hw
    exact ⟨x, rest, rfl, hx, hsize⟩
  · rintro ⟨x, rest, rfl, hx, hw⟩
    exact ⟨w ++ rest, sliceFrom_eq_some.mpr ⟨x, rfl, hx⟩, sliceTo_eq_some.mpr ⟨rest, rfl, hw⟩⟩

/-- A slice and what follows it. -/
theorem slice_next {a b : Nat} (hab : a ≤ b) {text w : Chars} (h : slice a b text = some w) :
    ∃ rest, sliceFrom a text = some (w ++ rest) ∧ sliceFrom b text = some rest := by
  obtain ⟨x, rest, rfl, hx, hw⟩ := slice_eq_some.mp h
  refine ⟨rest, sliceFrom_eq_some.mpr ⟨x, rfl, hx⟩, sliceFrom_eq_some.mpr ⟨x ++ w, ?_, ?_⟩⟩
  · rw [List.append_assoc]
  · rw [size_append]
    omega

/-- `str::is_char_boundary` -/
def isCharBoundary (text : Chars) (n : Nat) : Bool := (sliceFrom n text).isSome

theorem isCharBoundary_iff {text : Chars} {n : Nat} :
    isCharBoundary text n = true ↔ ∃ a b, text = a ++ b ∧ size a = n := by
  rw [isCharBoundary, Option.isSome_iff_exists]
  simp only [sliceFrom_eq_some]
  exact exists_comm

theorem isPrefix_of_size {a b text : Chars} (ha : a <+: text) (hb : b <+: text)
    (h : size a ≤ size b) : a <+: b := by
  rcases List.prefix_or_prefix_of_prefix ha hb with hab | hba
  · exact hab
  · obtain ⟨t, rfl⟩ := hba
    cases t with
    | nil => rw [List.append_nil]
    | cons c t =>
      have := c.utf8Size_pos
      rw [size_append, size_cons] at h
      omega

/-- A slice is there when both its ends fall between characters. -/
theorem slice_isSome {a b : Nat} (hab : a ≤ b) (text : Chars) :
    (slice a b text).isSome = true ↔ isCharBoundary text a = true ∧ isCharBoundary text b = true := by
  rw [Option.isSome_iff_exists, isCharBoundary_iff, isCharBoundary_iff]
  simp only [slice_eq_some]
  constructor
  · rintro ⟨w, x, rest, rfl, rfl, hw⟩
    exact ⟨⟨x, w ++ rest, rfl, rfl⟩, x ++ w, rest, by rw [List.append_assoc],
      by rw [size_append]; omega⟩
  · rintro ⟨⟨x, y, rfl, rfl⟩, z, rest, h, rfl⟩
    obtain ⟨w, rfl⟩ := isPrefix_of_size ⟨y, rfl⟩ ⟨rest, h.symm⟩ hab
    rw [List.append_assoc] at h
    exact ⟨w, x, rest, h, rfl, by rw [size_append]; omega⟩

theorem sliceTo_isSome (n : Nat) (text : Chars) :
    (sliceTo n text).isSome = true ↔ isCharBoundary text n = true := by
  rw [Option.isSome_iff_exists, isCharBoundary_iff]
  simp only [sliceTo_eq_some]

/-! Numbers. -/

private theorem digitChar_spec : ∀ d < 10, (Nat.digitChar d).isDigit = true ∧
    (Nat.digitChar d).toNat - 48 = d ∧ (Nat.digitChar d).utf8Size = 1 := by decide

theorem padded_digits (w n : Nat) : ∀ c ∈ padded w n, c.isDigit = true := by
  induction w generalizing n with
  | zero => simp [padded]
  | succ w ih =>
    intro c hc
    rcases List.mem_append.mp hc with hc | hc
    · exact ih (n / 10) c hc
    · rw [List.mem_singleton.mp hc]
      exact (digitChar_spec (n % 10) (Nat.mod_lt n (by decide))).1

theorem size_padded (w n : Nat) : size (padded w n) = w := by
  induction w generalizing n with
  | zero => rfl
  | succ w ih =>
    rw [padded, size_append, ih, size_cons, size_nil,
      (digitChar_spec (n % 10) (Nat.mod_lt n (by decide))).2.2]

theorem digitsNumber_padded {w n : Nat} (h : n < 10 ^ w) : digitsNumber (padded w n) = n := by
  induction w generalizing n with
  | zero =>
    obtain rfl : n = 0 := by omega
    rfl
  | succ w ih =>
    have hn : n / 10 < 10 ^ w := by
      rw [Nat.pow_succ] at h
      omega
    have hlast := (digitChar_spec (n % 10) (Nat.mod_lt n (by decide))).2.1
    have hinit := ih hn
    unfold digitsNumber at *
    rw [padded, List.foldl_append, hinit]
    simp only [List.foldl_cons, List.foldl_nil, hlast]
    omega

theorem parseI64_digits {digits : Chars} (hne : digits ≠ []) (h : ∀ c ∈ digits, c.isDigit = true)
    (hn : digitsNumber digits < 2^63) : parseI64 digits = some (digitsNumber digits : Int) := by
  have hread : readDigits digits = some (digitsNumber digits : Int) :=
    if_pos ⟨hne, List.all_eq_true.mpr h⟩
  have hfit : (some (digitsNumber digits : Int)).filter (fun n => -2^63 ≤ n ∧ n < 2^63) =
      some (digitsNumber digits : Int) := by
    rw [Option.filter_some, if_pos]
    simp only [decide_eq_true_eq]
    omega
  unfold parseI64
  split
  · next ds =>
    exact absurd (h '+' List.mem_cons_self) (by decide)
  · next ds =>
    exact absurd (h '-' List.mem_cons_self) (by decide)
  · rw [hread]
    exact hfit

theorem parseI64_padded {w n : Nat} (hw : 0 < w) (h : n < 10 ^ w) (hn : n < 2^63) :
    parseI64 (padded w n) = some (n : Int) := by
  have hnum := digitsNumber_padded h
  rw [parseI64_digits (fun hnil => ?_) (padded_digits w n) (by rwa [hnum]), hnum]
  have hsize := size_padded w n
  rw [hnil, size_nil] at hsize
  omega

end PulseNull.Text
