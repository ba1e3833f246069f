import PulseNull.Text.Bytes

/-! Bytes as text, with what is not UTF-8 replaced: each longest start of a character that does
not go on becomes one U+FFFD. -/
namespace PulseNull.Text

def replacement : Bytes := [239, 191, 189]

/-- The second byte goes with the first. -/
def leads (a b : UInt8) : Bool :=
  if 194 ≤ a && a ≤ 223 then isCont b
  else if a = 224 then 160 ≤ b && b ≤ 191
  else if a = 237 then 128 ≤ b && b ≤ 159
  else if 225 ≤ a && a ≤ 239 then isCont b
  else if a = 240 then 144 ≤ b && b ≤ 191
  else if a = 244 then 128 ≤ b && b ≤ 143
  else if 241 ≤ a && a ≤ 243 then isCont b
  else false

def fromUtf8Lossy : Bytes → Bytes
  | [] => []
  | a :: as =>
    if a < 128 then a :: fromUtf8Lossy as
    else match as with
      | [] => replacement
      | b :: bs =>
        if !leads a b then replacement ++ fromUtf8Lossy (b :: bs)
        else if a ≤ 223 then a :: b :: fromUtf8Lossy bs
        else match bs with
          | [] => replacement
          | c :: cs =>
            if !isCont c then replacement ++ fromUtf8Lossy (c :: cs)
            else if a ≤ 239 then a :: b :: c :: fromUtf8Lossy cs
            else match cs with
              | [] => replacement
              | d :: ds =>
                if !isCont d then replacement ++ fromUtf8Lossy (d :: ds)
                else a :: b :: c :: d :: fromUtf8Lossy ds

private theorem not_le_of_ge {a x y : UInt8} (h : x ≤ a) (hxy : y < x) : ¬ a ≤ y :=
  fun ha => absurd (UInt8.lt_of_lt_of_le hxy (UInt8.le_trans h ha)) (UInt8.lt_irrefl y)

/-- Text at the front stays what it is. -/
theorem fromUtf8Lossy_append {bs : Bytes} (h : utf8Valid bs = true) (more : Bytes) :
    fromUtf8Lossy (bs ++ more) = bs ++ fromUtf8Lossy more := by
  induction bs using utf8Valid.induct with
  | case1 => rfl
  | case2 c cs hc ih =>
    rw [utf8Valid_cons_ascii hc] at h
    rw [List.cons_append, fromUtf8Lossy.eq_def]
    simp only [hc, if_true]
    rw [ih h, List.cons_append]
  | case8 a _ b c cs _ _ _ h225 ih =>
    have h223 : ¬ a ≤ 223 := not_le_of_ge (by simpa using h225 : _ ∧ _).1 (by decide)
    rw [utf8Valid.eq_def] at h
    simp only [List.cons_append]
    rw [fromUtf8Lossy.eq_def]
    simp_all [leads, -UInt8.not_lt, -UInt8.not_le, -not_and, -not_or]
  | case12 a _ b c d ds _ _ _ _ _ _ h241 ih =>
    have h241 : 241 ≤ a := (by simpa using h241 : _ ∧ _).1
    have h223 : ¬ a ≤ 223 := not_le_of_ge h241 (by decide)
    have h239 : ¬ a ≤ 239 := not_le_of_ge h241 (by decide)
    rw [utf8Valid.eq_def] at h
    simp only [List.cons_append]
    rw [fromUtf8Lossy.eq_def]
    simp_all [leads, -UInt8.not_lt, -UInt8.not_le, -not_and, -not_or]
  | _ =>
    rw [utf8Valid.eq_def] at h
    simp only [List.cons_append]
    rw [fromUtf8Lossy.eq_def]
    simp_all [leads, -UInt8.not_lt, -not_and, -not_or]

/-- Text stays what it is. -/
theorem fromUtf8Lossy_valid {bs : Bytes} (h : utf8Valid bs = true) : fromUtf8Lossy bs = bs := by
  have := fromUtf8Lossy_append h []
  rwa [List.append_nil, fromUtf8Lossy, List.append_nil] at this

/-- What follows the first byte of a character. -/
def Follows (a : UInt8) (more : Bytes) : Prop :=
  ∃ b bs, more = b :: bs ∧ leads a b = true ∧
    (a ≤ 223 ∧ utf8Valid bs = true ∨ ¬ a ≤ 223 ∧ ∃ c cs, bs = c :: cs ∧ isCont c = true ∧
      (a ≤ 239 ∧ utf8Valid cs = true ∨ ¬ a ≤ 239 ∧ ∃ d ds, cs = d :: ds ∧ isCont d = true ∧ utf8Valid ds = true))

private theorem follows {a : UInt8} {more : Bytes} (ha : ¬ a < 128) (h : utf8Valid (a :: more) = true) : Follows a more := by
  unfold Follows
  rw [utf8Valid.eq_def] at h
  simp only [ha, if_false] at h
  cases more with
  | nil => simp at h
  | cons b bs =>
  refine ⟨b, bs, rfl, ?_⟩
  dsimp only at h
  split at h
  · next h194 =>
    have h223 : a ≤ 223 := by grind
    simp_all [leads]
  next h194 =>
  cases bs with
  | nil => simp at h
  | cons c cs =>
  dsimp only at h
  split at h
  · subst a
    simp_all [leads]
  split at h
  · subst a
    simp_all [leads]
  split at h
  · next h225 =>
    have h223 : ¬ a ≤ 223 := not_le_of_ge (by simpa using h225 : _ ∧ _).1 (by decide)
    simp_all [leads, -UInt8.not_lt, -UInt8.not_le, -not_and, -not_or]
  cases cs with
  | nil => simp at h
  | cons d ds =>
  dsimp only at h
  split at h
  · subst a
    simp_all [leads]
  split at h
  · subst a
    simp_all [leads]
  split at h
  · next h241 =>
    have h241 : 241 ≤ a := (by simpa using h241 : _ ∧ _).1
    have h223 : ¬ a ≤ 223 := not_le_of_ge h241 (by decide)
    have h239 : ¬ a ≤ 239 := not_le_of_ge h241 (by decide)
    simp_all [leads, -UInt8.not_lt, -UInt8.not_le, -not_and, -not_or]
  · simp at h

private theorem ends_cons {x y : Bytes} (p : Bytes) (h : x = y ∨ ∃ c, x = c ++ replacement) :
    p ++ x = p ++ y ∨ ∃ c, p ++ x = c ++ replacement := by
  rcases h with rfl | ⟨c, rfl⟩
  · exact .inl rfl
  · exact .inr ⟨p ++ c, (List.append_assoc _ _ _).symm⟩

/-- A text cut short stays what it is, or ends with a replacement. -/
theorem fromUtf8Lossy_cut {a b : Bytes} (h : utf8Valid (a ++ b) = true) :
    fromUtf8Lossy a = a ∨ ∃ c, fromUtf8Lossy a = c ++ replacement := by
  induction a using fromUtf8Lossy.induct with
  | case1 => exact .inl rfl
  | case2 a as ha ih =>
    rw [List.cons_append, utf8Valid_cons_ascii ha] at h
    rw [fromUtf8Lossy.eq_def]
    simp only [ha, if_true]
    exact ends_cons [a] (ih h)
  | case3 a ha =>
    rw [fromUtf8Lossy.eq_def]
    simp only [ha, if_false]
    exact .inr ⟨[], rfl⟩
  | case4 a ha d ds hl ih =>
    obtain ⟨_, _, he, hlead, -⟩ := follows ha h
    obtain ⟨rfl, rfl⟩ := List.cons.inj he
    simp [hlead] at hl
  | case5 a ha d ds hl h223 ih =>
    obtain ⟨_, _, he, hlead, hrest⟩ := follows ha h
    obtain ⟨rfl, rfl⟩ := List.cons.inj he
    have hvalid := (hrest.resolve_right fun h => h.1 h223).2
    rw [fromUtf8Lossy.eq_def]
    simp only [ha, if_false, hl, h223, if_true]
    exact ends_cons [a, d] (ih hvalid)
  | case6 a ha d hl h223 =>
    rw [fromUtf8Lossy.eq_def]
    simp only [ha, if_false, hl, h223]
    exact .inr ⟨[], rfl⟩
  | case7 a ha d hl h223 c cs hc ih =>
    obtain ⟨_, _, he, hlead, hrest⟩ := follows ha h
    obtain ⟨rfl, rfl⟩ := List.cons.inj he
    obtain ⟨-, _, _, he, hcont, -⟩ := hrest.resolve_left fun h => h223 h.1
    obtain ⟨rfl, rfl⟩ := List.cons.inj he
    simp [hcont] at hc
  | case8 a ha d hl h223 c cs hc h239 ih =>
    obtain ⟨_, _, he, hlead, hrest⟩ := follows ha h
    obtain ⟨rfl, rfl⟩ := List.cons.inj he
    obtain ⟨-, _, _, he, hcont, hrest⟩ := hrest.resolve_left fun h => h223 h.1
    obtain ⟨rfl, rfl⟩ := List.cons.inj he
    have hvalid := (hrest.resolve_right fun h => h.1 h239).2
    rw [fromUtf8Lossy.eq_def]
    simp only [ha, if_false, hl, h223, hc, h239, if_true]
    exact ends_cons [a, d, c] (ih hvalid)
  | case9 a ha d hl h223 c hc h239 =>
    rw [fromUtf8Lossy.eq_def]
    simp only [ha, if_false, hl, h223, hc, h239]
    exact .inr ⟨[], rfl⟩
  | case10 a ha d hl h223 c hc h239 e es he' ih =>
    obtain ⟨_, _, he, hlead, hrest⟩ := follows ha h
    obtain ⟨rfl, rfl⟩ := List.cons.inj he
    obtain ⟨-, _, _, he, hcont, hrest⟩ := hrest.resolve_left fun h => h223 h.1
    obtain ⟨rfl, rfl⟩ := List.cons.inj he
    obtain ⟨-, _, _, he, hcont, -⟩ := hrest.resolve_left fun h => h239 h.1
    obtain ⟨rfl, rfl⟩ := List.cons.inj he
    simp [hcont] at he'
  | case11 a ha d hl h223 c hc h239 e es he' ih =>
    obtain ⟨_, _, he, hlead, hrest⟩ := follows ha h
    obtain ⟨rfl, rfl⟩ := List.cons.inj he
    obtain ⟨-, _, _, he, hcont, hrest⟩ := hrest.resolve_left fun h => h223 h.1
    obtain ⟨rfl, rfl⟩ := List.cons.inj he
    obtain ⟨-, _, _, he, hcont, hvalid⟩ := hrest.resolve_left fun h => h239 h.1
    obtain ⟨rfl, rfl⟩ := List.cons.inj he
    rw [fromUtf8Lossy.eq_def]
    simp only [ha, if_false, hl, h223, hc, h239, he']
    exact ends_cons [a, d, c, e] (ih hvalid)

theorem mem_fromUtf8Lossy {bs : Bytes} {c : UInt8} (h : c ∈ fromUtf8Lossy bs) : c ∈ bs ∨ c ∈ replacement := by
  induction bs using fromUtf8Lossy.induct with
  | case1 => exact nomatch h
  | _ =>
    rw [fromUtf8Lossy.eq_def] at h
    simp_all [-UInt8.not_lt, -UInt8.not_le]
    try grind

example : fromUtf8Lossy [65, 0xE2, 0x82, 65, 0xFF, 0xE2, 0x82, 0xAC] =
    [65, 239, 191, 189, 65, 239, 191, 189, 0xE2, 0x82, 0xAC] := by decide

end PulseNull.Text
