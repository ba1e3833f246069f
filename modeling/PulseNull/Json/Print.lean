import PulseNull.Json.Value

/-! Compact JSON text. A float has no text here: every printer that meets one
gives nothing. -/
namespace PulseNull.Json
open Text (ascii decimal)

abbrev quoteMark : UInt8 := 34
abbrev comma : UInt8 := 44
abbrev minus : UInt8 := 45
abbrev colon : UInt8 := 58
abbrev openBracket : UInt8 := 91
abbrev backslash : UInt8 := 92
abbrev closeBracket : UInt8 := 93
abbrev openBrace : UInt8 := 123
abbrev closeBrace : UInt8 := 125

/-- Two-letter escapes where JSON has one, `\u00XX` for the other controls. -/
def escape (c : UInt8) : Bytes :=
  if c = quoteMark then [backslash, quoteMark]
  else if c = backslash then [backslash, backslash]
  else if c = 8 then [backslash, 98]
  else if c = 9 then [backslash, 116]
  else if c = 10 then [backslash, 110]
  else if c = 12 then [backslash, 102]
  else if c = 13 then [backslash, 114]
  else if c < 32 then backslash :: 117 :: 48 :: 48 :: Text.hex [c]
  else [c]

def quote (s : Bytes) : Bytes := quoteMark :: (s.flatMap escape ++ [quoteMark])

/-- Items separated by commas. -/
def join : List Bytes → Bytes
  | [] => []
  | [t] => t
  | t :: ts => t ++ comma :: join ts

def printNum : Num → Option Bytes
  | .pos n => some (decimal n.val)
  | .neg n => some (minus :: decimal (n.val + 1))
  | .float => none

def printMember (m : Bytes × Bytes) : Bytes := quote m.1 ++ colon :: m.2

def bracket (ts : List Bytes) : Bytes := openBracket :: (join ts ++ [closeBracket])

def brace (ms : List (Bytes × Bytes)) : Bytes :=
  openBrace :: (join (ms.map printMember) ++ [closeBrace])

mutual
/-- Compact text, members in the order they have. -/
def print : Json → Option Bytes
  | .null => some (ascii "null")
  | .bool true => some (ascii "true")
  | .bool false => some (ascii "false")
  | .num n => printNum n
  | .str s => some (quote s)
  | .arr items => (printItems items).map bracket
  | .obj members => (printMembers members).map brace
def printItems : List Json → Option (List Bytes)
  | [] => some []
  | v :: vs => do
    let t ← print v
    let ts ← printItems vs
    return t :: ts
def printMembers : List (Bytes × Json) → Option (List (Bytes × Bytes))
  | [] => some []
  | (k, v) :: ms => do
    let t ← print v
    let ps ← printMembers ms
    return (k, t) :: ps
end

private theorem escape_ge (c : UInt8) : ∀ x ∈ escape c, 32 ≤ x := by
  have two {a b x : UInt8} (ha : 32 ≤ a) (hb : 32 ≤ b) (hx : x ∈ [a, b]) : 32 ≤ x := by
    simp only [List.mem_cons, List.not_mem_nil, or_false] at hx
    rcases hx with rfl | rfl <;> assumption
  intro x hx
  unfold escape at hx
  iterate 7
    split at hx
    · exact two (by decide) (by decide) hx
  split at hx
  · simp only [List.mem_cons] at hx
    rcases hx with rfl | rfl | rfl | rfl | hx
    iterate 4 decide
    exact UInt8.le_trans (by decide) (Text.isLowerHex_ge (Text.hex_lower [c] x hx))
  · next h => exact (List.mem_singleton.mp hx) ▸ UInt8.not_lt.mp h

theorem quote_ge (s : Bytes) : ∀ x ∈ quote s, 32 ≤ x := by
  intro x hx
  simp only [quote, List.mem_cons, List.mem_append, List.mem_flatMap, List.not_mem_nil, or_false] at hx
  rcases hx with rfl | ⟨c, _, hc⟩ | rfl
  · decide
  · exact escape_ge c x hc
  · decide

private theorem join_all {P : UInt8 → Prop} (hc : P comma) {ts : List Bytes}
    (h : ∀ t ∈ ts, ∀ x ∈ t, P x) : ∀ x ∈ join ts, P x := by
  induction ts with
  | nil => simp [join]
  | cons t ts ih =>
    have ht := h t (by simp)
    cases ts with
    | nil => exact ht
    | cons u us =>
      intro x hx
      rw [join, List.mem_append, List.mem_cons] at hx
      rcases hx with hx | rfl | hx
      · exact ht x hx
      · exact hc
      · exact ih (fun t' h' => h t' (List.mem_cons_of_mem _ h')) x hx
      · simp

/-- What holds of the punctuation, the keys and the values holds of an object's text. -/
theorem brace_all {P : UInt8 → Prop} (hp : ∀ x ∈ [comma, colon, openBrace, closeBrace], P x)
    {ms : List (Bytes × Bytes)} (h : ∀ m ∈ ms, (∀ x ∈ quote m.1, P x) ∧ ∀ x ∈ m.2, P x) :
    ∀ x ∈ brace ms, P x := by
  intro x hx
  simp only [brace, List.mem_cons, List.mem_append, List.not_mem_nil, or_false] at hx
  rcases hx with rfl | hx | rfl
  · exact hp _ (by simp)
  · refine join_all (hp _ (by simp)) ?_ x hx
    intro t ht y hy
    obtain ⟨m, hm, rfl⟩ := List.mem_map.mp ht
    simp only [printMember, List.mem_append, List.mem_cons] at hy
    rcases hy with hy | rfl | hy
    · exact (h m hm).1 y hy
    · exact hp _ (by simp)
    · exact (h m hm).2 y hy
  · exact hp _ (by simp)

private theorem decimal_ge (n : Nat) : ∀ x ∈ decimal n, (32 : UInt8) ≤ x := by
  intro x hx
  have hd := (Text.isDigit_iff x).mp (Text.decimal_digits n x hx)
  rw [UInt8.le_iff_toNat_le]
  have : (32 : UInt8).toNat = 32 := rfl
  omega

theorem bracket_ge {ts : List Bytes} (h : ∀ t ∈ ts, ∀ x ∈ t, 32 ≤ x) :
    ∀ x ∈ bracket ts, (32 : UInt8) ≤ x := by
  intro x hx
  simp only [bracket, List.mem_cons, List.mem_append, List.not_mem_nil, or_false] at hx
  rcases hx with rfl | hx | rfl
  · decide
  · exact join_all (P := (32 ≤ ·)) (show (32 : UInt8) ≤ comma by decide) h x hx
  · decide

theorem brace_ge {ms : List (Bytes × Bytes)} (h : ∀ m ∈ ms, ∀ x ∈ m.2, 32 ≤ x) :
    ∀ x ∈ brace ms, (32 : UInt8) ≤ x :=
  brace_all (show ∀ x ∈ [comma, colon, openBrace, closeBrace], (32 : UInt8) ≤ x by decide +kernel)
    fun m hm => ⟨quote_ge _, h m hm⟩

mutual
/-- Compact text holds no control character, a newline least of all. -/
theorem print_ge : ∀ {v : Json} {t : Bytes}, print v = some t → ∀ x ∈ t, 32 ≤ x
  | .null, _, h | .bool true, _, h | .bool false, _, h => by
    simp only [print, Option.some.injEq] at h
    subst h
    decide +kernel
  | .num (.pos n), _, h => by
    simp only [print, printNum, Option.some.injEq] at h
    exact h ▸ decimal_ge _
  | .num (.neg n), _, h => by
    simp only [print, printNum, Option.some.injEq] at h
    subst h
    exact List.forall_mem_cons.mpr ⟨by decide, decimal_ge _⟩
  | .num .float, _, h => by simp [print, printNum] at h
  | .str s, _, h => by
    simp only [print, Option.some.injEq] at h
    exact h ▸ quote_ge s
  | .arr items, t, h => by
    rw [print, Option.map_eq_some_iff] at h
    obtain ⟨ts, hts, rfl⟩ := h
    exact bracket_ge (printItems_ge hts)
  | .obj members, t, h => by
    rw [print, Option.map_eq_some_iff] at h
    obtain ⟨ms, hms, rfl⟩ := h
    exact brace_ge (printMembers_ge hms)
theorem printItems_ge : ∀ {vs : List Json} {ts : List Bytes}, printItems vs = some ts →
    ∀ t ∈ ts, ∀ x ∈ t, (32 : UInt8) ≤ x
  | [], _, h => by
    simp only [printItems, Option.some.injEq] at h
    simp [← h]
  | v :: vs, _, h => by
    simp only [printItems, Option.bind_eq_bind, Option.bind_eq_some_iff, Option.pure_def,
      Option.some.injEq] at h
    obtain ⟨t, ht, ts, hts, rfl⟩ := h
    exact List.forall_mem_cons.mpr ⟨print_ge ht, printItems_ge hts⟩
theorem printMembers_ge : ∀ {ms : List (Bytes × Json)} {ps : List (Bytes × Bytes)},
    printMembers ms = some ps → ∀ p ∈ ps, ∀ x ∈ p.2, (32 : UInt8) ≤ x
  | [], _, h => by
    simp only [printMembers, Option.some.injEq] at h
    simp [← h]
  | (k, v) :: ms, _, h => by
    simp only [printMembers, Option.bind_eq_bind, Option.bind_eq_some_iff, Option.pure_def,
      Option.some.injEq] at h
    obtain ⟨t, ht, ps, hps, rfl⟩ := h
    exact List.forall_mem_cons.mpr ⟨print_ge ht, printMembers_ge hps⟩
end

theorem printMembers_keys : ∀ {ms : List (Bytes × Json)} {ps : List (Bytes × Bytes)},
    printMembers ms = some ps → ps.map Prod.fst = ms.map Prod.fst
  | [], _, h => by
    simp only [printMembers, Option.some.injEq] at h
    simp [← h]
  | (k, v) :: ms, _, h => by
    simp only [printMembers, Option.bind_eq_bind, Option.bind_eq_some_iff, Option.pure_def,
      Option.some.injEq] at h
    obtain ⟨t, _, ps, hps, rfl⟩ := h
    simp [printMembers_keys hps]

mutual
/-- A float anywhere in a value leaves it without a text. -/
theorem hasFloat_of_print : ∀ {v : Json} {t : Bytes}, print v = some t → v.hasFloat = false
  | .null, _, _ | .bool _, _, _ | .num (.pos _), _, _ | .num (.neg _), _, _ | .str _, _, _ => rfl
  | .num .float, _, h => by simp [print, printNum] at h
  | .arr items, t, h => by
    rw [print, Option.map_eq_some_iff] at h
    obtain ⟨ts, hts, _⟩ := h
    exact hasFloatItems_of_print hts
  | .obj members, t, h => by
    rw [print, Option.map_eq_some_iff] at h
    obtain ⟨ms, hms, _⟩ := h
    exact hasFloatMembers_of_print hms
theorem hasFloatItems_of_print : ∀ {vs : List Json} {ts : List Bytes}, printItems vs = some ts →
    hasFloatItems vs = false
  | [], _, _ => rfl
  | v :: vs, _, h => by
    simp only [printItems, Option.bind_eq_bind, Option.bind_eq_some_iff] at h
    obtain ⟨t, ht, ts, hts, _⟩ := h
    rw [hasFloatItems, hasFloat_of_print ht, hasFloatItems_of_print hts, Bool.or_self]
theorem hasFloatMembers_of_print : ∀ {ms : List (Bytes × Json)} {ps : List (Bytes × Bytes)},
    printMembers ms = some ps → hasFloatMembers ms = false
  | [], _, _ => rfl
  | (k, v) :: ms, _, h => by
    simp only [printMembers, Option.bind_eq_bind, Option.bind_eq_some_iff] at h
    obtain ⟨t, ht, ps, hps, _⟩ := h
    rw [hasFloatMembers, hasFloat_of_print ht, hasFloatMembers_of_print hps, Bool.or_self]
end

/-! Size and alphabet of a quoted string. -/

private theorem escape_length_le (c : UInt8) : (escape c).length ≤ 6 := by
  unfold escape
  repeat' split
  all_goals simp

theorem quote_length_le (s : Bytes) : (quote s).length ≤ 6 * s.length + 2 := by
  have h : (s.flatMap escape).length ≤ 6 * s.length := by
    induction s with
    | nil => simp
    | cons c s ih =>
      have := escape_length_le c
      rw [List.flatMap_cons, List.length_append, List.length_cons]
      omega
  simp only [quote, List.length_cons, List.length_append, List.length_nil]
  omega

private theorem escape_lt {c : UInt8} (h : c < 128) : ∀ x ∈ escape c, x < 128 := by
  have two {a b x : UInt8} (ha : a < 128) (hb : b < 128) (hx : x ∈ [a, b]) : x < 128 := by
    simp only [List.mem_cons, List.not_mem_nil, or_false] at hx
    rcases hx with rfl | rfl <;> assumption
  intro x hx
  unfold escape at hx
  iterate 7
    split at hx
    · exact two (by decide) (by decide) hx
  split at hx
  · simp only [List.mem_cons] at hx
    rcases hx with rfl | rfl | rfl | rfl | hx
    iterate 4 decide
    exact Text.isLowerHex_lt (Text.hex_lower [c] x hx)
  · exact (List.mem_singleton.mp hx) ▸ h

theorem quote_lt {s : Bytes} (h : ∀ c ∈ s, c < 128) : ∀ x ∈ quote s, x < 128 := by
  intro x hx
  simp only [quote, List.mem_cons, List.mem_append, List.mem_flatMap, List.not_mem_nil, or_false] at hx
  rcases hx with rfl | ⟨c, hs, hc⟩ | rfl
  · decide
  · exact escape_lt (h c hs) x hc
  · decide

end PulseNull.Json
