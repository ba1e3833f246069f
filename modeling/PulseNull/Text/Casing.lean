import Mathlib

/-! Texts by their characters: words, lower case as `str::to_lowercase` gives it, and words found in
words. The tables of letters and of their lower cases are a parameter. -/
namespace PulseNull.Text

abbrev Chars := List Char

/-- `char::is_whitespace` -/
def isWhitespace (c : Char) : Bool :=
  (9 ≤ c.toNat && c.toNat ≤ 13) || c.toNat = 32 || c.toNat = 0x85 || c.toNat = 0xA0 ||
    c.toNat = 0x1680 || (0x2000 ≤ c.toNat && c.toNat ≤ 0x200A) || c.toNat = 0x2028 ||
    c.toNat = 0x2029 || c.toNat = 0x202F || c.toNat = 0x205F || c.toNat = 0x3000

/-- `str::trim` -/
def trimChars (text : Chars) : Chars := (text.dropWhile isWhitespace).rdropWhile isWhitespace

/-- The tables: what is a letter or a digit, the one character a character is in lower case, and
where a capital sigma ends a word. Two characters keep out of `lower`: `Σ` has two lower cases and
the lower case of `İ` is two characters. -/
structure Casing where
  alphanumeric : Char → Bool
  lower : Char → Char
  finalSigma : Chars → Chars → Bool
  alphanumeric_lower : ∀ c, alphanumeric (lower c) = alphanumeric c
  lower_lower : ∀ c, lower (lower c) = lower c
  lower_plain : ∀ c, lower c ≠ 'Σ' ∧ lower c ≠ 'İ'
  alphanumeric_ascii : ∀ c, c.toNat < 128 → alphanumeric c = c.isAlphanum
  lower_ascii : ∀ c, c.toNat < 128 → lower c = c.toLower
  not_alphanumeric : ∀ c, isWhitespace c ∨ c = '’' → alphanumeric c = false

variable (T : Casing)

def lowercaseFrom (before : Chars) : Chars → Chars
  | [] => []
  | c :: after =>
    (if c = 'Σ' then [if T.finalSigma before after then 'ς' else 'σ']
      else if c = 'İ' then ['i', '\u0307'] else [T.lower c]) ++ lowercaseFrom (before ++ [c]) after

/-- `str::to_lowercase` -/
def toLowercase (text : Chars) : Chars := lowercaseFrom T [] text

/-- What stands between separators, `str::split` without empty parts. -/
def pieces (sep : Char → Bool) (text : Chars) : List Chars := (text.splitOnP sep).filter (· ≠ [])

/-- Lowercase words of letters and digits. -/
def words (text : Chars) : List Chars :=
  (pieces (fun c => !T.alphanumeric c) text).map (toLowercase T)

/-- `slice::windows` -/
def windows (n : Nat) : List Chars → List (List Chars)
  | [] => []
  | w :: ws => if n ≤ (w :: ws).length then (w :: ws).take n :: windows n ws else []

/-- Do `truth`'s words appear, contiguous and in order, among `answer`'s? -/
def containsWords (answer truth : Chars) : Bool :=
  !(words T truth).isEmpty &&
    (windows (words T truth).length (words T answer)).any (· = words T truth)

/-- No character's lower case depends on its place or is more than one character. -/
def Plain (text : Chars) : Prop := ∀ c ∈ text, c ≠ 'Σ' ∧ c ≠ 'İ'

instance (text : Chars) : Decidable (Plain text) := List.decidableBAll _ text

variable {T}

private theorem lowercaseFrom_plain {text : Chars} (h : Plain text) (before : Chars) :
    lowercaseFrom T before text = text.map T.lower := by
  induction text generalizing before with
  | nil => rfl
  | cons c after ih =>
    obtain ⟨hc, hafter⟩ := List.forall_mem_cons.mp h
    rw [lowercaseFrom, if_neg hc.1, if_neg hc.2, ih hafter]
    rfl

theorem toLowercase_plain {text : Chars} (h : Plain text) : toLowercase T text = text.map T.lower :=
  lowercaseFrom_plain h []

theorem plain_lower (text : Chars) : Plain (text.map T.lower) := by
  intro c hc
  obtain ⟨d, _, rfl⟩ := List.mem_map.mp hc
  exact T.lower_plain d

/-! Pieces and words. -/

theorem pieces_append {sep : Char → Bool} {c : Char} (hc : sep c = true) (a b : Chars) :
    pieces sep (a ++ c :: b) = pieces sep a ++ pieces sep b := by
  rw [pieces, List.splitOnP_append_cons a b hc, List.filter_append]
  rfl

/-- Separators around a text do not change its pieces. -/
theorem pieces_strip {sep strip : Char → Bool} (h : ∀ c, strip c = true → sep c = true)
    (text : Chars) :
    pieces sep ((text.dropWhile strip).rdropWhile strip) = pieces sep text := by
  have hstart (text : Chars) : pieces sep (text.dropWhile strip) = pieces sep text := by
    induction text with
    | nil => rfl
    | cons c text ih =>
      by_cases hc : strip c = true
      · rw [List.dropWhile_cons_of_pos hc, ih]
        exact (pieces_append (h c hc) [] text).symm
      · rw [List.dropWhile_cons_of_neg hc]
  have hend (text : Chars) : pieces sep (text.rdropWhile strip) = pieces sep text := by
    induction text using List.reverseRecOn with
    | nil => rfl
    | append_singleton text c ih =>
      by_cases hc : strip c = true
      · rw [List.rdropWhile_concat_pos _ _ _ hc, ih, pieces_append (h c hc) text []]
        exact (List.append_nil _).symm
      · rw [List.rdropWhile_concat_neg _ _ _ hc]
  rw [hend, hstart]

theorem trimChars_trimChars (text : Chars) : trimChars (trimChars text) = trimChars text := by
  have hstart : (trimChars text).dropWhile isWhitespace = trimChars text := by
    obtain ⟨rest, hrest⟩ := List.rdropWhile_prefix isWhitespace (text.dropWhile isWhitespace)
    have hhead := List.head?_dropWhile_not isWhitespace text
    rw [trimChars]
    cases hl : (text.dropWhile isWhitespace).rdropWhile isWhitespace with
    | nil => rfl
    | cons c cs =>
      rw [← hrest, hl] at hhead
      exact List.dropWhile_cons_of_neg (by simpa using hhead)
  have hend := List.rdropWhile_idempotent isWhitespace (text.dropWhile isWhitespace)
  rw [trimChars, hstart]
  exact hend

theorem words_nil : words T [] = [] := rfl

/-- Words end at a character that is no letter and no digit. -/
theorem words_append {c : Char} (hc : T.alphanumeric c = false) (a b : Chars) :
    words T (a ++ c :: b) = words T a ++ words T b := by
  rw [words, pieces_append (by simp [hc]), List.map_append]
  rfl

theorem words_cons {c : Char} (hc : T.alphanumeric c = false) (text : Chars) :
    words T (c :: text) = words T text := words_append hc [] text

/-- A word by itself. -/
theorem words_word {w : Chars} (hne : w ≠ []) (hw : ∀ c ∈ w, T.alphanumeric c = true) :
    words T w = [toLowercase T w] := by
  rw [words, pieces, List.splitOnP_eq_singleton fun c hc => by simp [hw c hc]]
  simp [hne]

/-- A text without letters and digits, or its first word and what follows. -/
theorem words_induction {motive : Chars → Prop} (T : Casing)
    (skip : ∀ c text, T.alphanumeric c = false → motive text → motive (c :: text))
    (word : ∀ w, (∀ c ∈ w, T.alphanumeric c = true) → motive w)
    (first : ∀ w c text, w ≠ [] → (∀ c ∈ w, T.alphanumeric c = true) → T.alphanumeric c = false →
      motive text → motive (w ++ c :: text)) (text : Chars) : motive text := by
  induction hn : text.length using Nat.strong_induction_on generalizing text with
  | _ n ih =>
    subst hn
    have hsplit := List.takeWhile_append_dropWhile (p := T.alphanumeric) (l := text)
    have hw : ∀ c ∈ text.takeWhile T.alphanumeric, T.alphanumeric c = true :=
      fun c hc => List.mem_takeWhile_imp hc
    cases hrest : text.dropWhile T.alphanumeric with
    | nil =>
      rw [hrest, List.append_nil] at hsplit
      rw [← hsplit]
      exact word _ hw
    | cons c rest =>
      have hc : T.alphanumeric c = false := by
        have := List.head?_dropWhile_not T.alphanumeric text
        rw [hrest] at this
        simpa using this
      rw [hrest] at hsplit
      have hlen := congrArg List.length hsplit
      rw [List.length_append, List.length_cons] at hlen
      have hih := ih rest.length (by omega) rest rfl
      rw [← hsplit]
      by_cases hne : text.takeWhile T.alphanumeric = []
      · rw [hne]
        exact skip c rest hc hih
      · exact first _ c rest hne hw hc hih

/-- The words of a text, character by character. -/
theorem words_map {f : Char → Char} (hf : ∀ c, T.alphanumeric (f c) = T.alphanumeric c)
    (hlower : ∀ c, T.alphanumeric c = true → T.lower (f c) = T.lower c) {text : Chars}
    (h : Plain text) (hmap : Plain (text.map f)) : words T (text.map f) = words T text := by
  have hword {w : Chars} (hw : ∀ c ∈ w, T.alphanumeric c = true) (hp : Plain w)
      (hm : Plain (w.map f)) : words T (w.map f) = words T w := by
    rcases eq_or_ne w [] with rfl | hne
    · rfl
    · have hwf : ∀ c ∈ w.map f, T.alphanumeric c = true := by
        intro c hc
        obtain ⟨d, hd, rfl⟩ := List.mem_map.mp hc
        rw [hf, hw d hd]
      have hl : (w.map f).map T.lower = w.map T.lower := by
        rw [List.map_map]
        exact List.map_congr_left fun c hc => hlower c (hw c hc)
      rw [words_word (by simpa using hne) hwf, words_word hne hw, toLowercase_plain hp,
        toLowercase_plain hm, hl]
  induction text using words_induction T with
  | skip c text hc ih =>
    rw [List.map_cons, words_cons (by rw [hf, hc]), words_cons hc]
    exact ih (List.forall_mem_cons.mp h).2 (List.forall_mem_cons.mp hmap).2
  | word w hw => exact hword hw h hmap
  | first w c text hne hw hc ih =>
    rw [List.map_append, List.map_cons] at hmap ⊢
    obtain ⟨hpw, hprest⟩ := List.forall_mem_append.mp h
    obtain ⟨hmw, hmrest⟩ := List.forall_mem_append.mp hmap
    rw [words_append (by rw [hf, hc]), words_append hc, hword hw hpw hmw,
      ih (List.forall_mem_cons.mp hprest).2 (List.forall_mem_cons.mp hmrest).2]

theorem words_toLowercase {text : Chars} (h : Plain text) :
    words T (toLowercase T text) = words T text := by
  rw [toLowercase_plain h]
  exact words_map T.alphanumeric_lower (fun c _ => T.lower_lower c) h (plain_lower text)

theorem words_trim (text : Chars) : words T (trimChars text) = words T text := by
  rw [words, trimChars, pieces_strip fun c hc => by simp [T.not_alphanumeric c (.inl hc)]]
  rfl

/-- A word as `words` gives it. -/
structure IsLowerWord (T : Casing) (w : Chars) : Prop where
  ne_nil : w ≠ []
  lowered : ∀ c ∈ w, T.alphanumeric c = true ∧ T.lower c = c

theorem IsLowerWord.plain {w : Chars} (h : IsLowerWord T w) : Plain w := by
  intro c hc
  have hp := T.lower_plain c
  rwa [(h.lowered c hc).2] at hp

theorem IsLowerWord.words_eq {w : Chars} (h : IsLowerWord T w) : words T w = [w] := by
  rw [words_word h.ne_nil fun c hc => (h.lowered c hc).1, toLowercase_plain h.plain,
    List.map_congr_left fun c hc => (h.lowered c hc).2, List.map_id']

theorem isLowerWord_of_mem {text : Chars} (h : Plain text) : ∀ w ∈ words T text, IsLowerWord T w := by
  have hword {w : Chars} (hw : ∀ c ∈ w, T.alphanumeric c = true) (hp : Plain w) :
      ∀ v ∈ words T w, IsLowerWord T v := by
    intro v hv
    rcases eq_or_ne w [] with rfl | hne
    · exact nomatch hv
    · rw [words_word hne hw, toLowercase_plain hp, List.mem_singleton] at hv
      subst hv
      refine ⟨by simpa using hne, fun c hc => ?_⟩
      obtain ⟨d, hd, rfl⟩ := List.mem_map.mp hc
      rw [T.alphanumeric_lower, T.lower_lower]
      exact ⟨hw d hd, rfl⟩
  induction text using words_induction T with
  | skip c text hc ih =>
    rw [words_cons hc]
    exact ih (List.forall_mem_cons.mp h).2
  | word w hw => exact hword hw h
  | first w c text _ hw hc ih =>
    obtain ⟨hpw, hprest⟩ := List.forall_mem_append.mp h
    rw [words_append hc]
    exact List.forall_mem_append.mpr ⟨hword hw hpw, ih (List.forall_mem_cons.mp hprest).2⟩

/-- Words with a space after each. -/
def spaced (ws : List Chars) : Chars := ws.flatMap (· ++ [' '])

theorem words_spaced {ws : List Chars} (h : ∀ w ∈ ws, IsLowerWord T w) : words T (spaced ws) = ws := by
  induction ws with
  | nil => rfl
  | cons w ws ih =>
    obtain ⟨hw, hws⟩ := List.forall_mem_cons.mp h
    have hspaced : spaced (w :: ws) = w ++ ' ' :: spaced ws := by simp [spaced]
    rw [hspaced, words_append (T.not_alphanumeric ' ' (.inl rfl)), hw.words_eq, ih hws]
    rfl

theorem plain_spaced {ws : List Chars} (h : ∀ w ∈ ws, IsLowerWord T w) : Plain (spaced ws) := by
  intro c hc
  obtain ⟨w, hw, hc⟩ := List.mem_flatMap.mp hc
  rcases List.mem_append.mp hc with hc | hc
  · exact (h w hw).plain c hc
  · rw [List.mem_singleton.mp hc]
    decide

/-! Words among words. -/

theorem mem_windows {n : Nat} {ws : List Chars} {w : List Chars} (hn : 0 < n) :
    w ∈ windows n ws ↔ w <:+: ws ∧ w.length = n := by
  induction ws with
  | nil =>
    simp only [windows, List.not_mem_nil, List.infix_nil, false_iff, not_and]
    rintro rfl h
    exact absurd h (Nat.ne_of_lt hn)
  | cons a ws ih =>
    rw [windows]
    split_ifs with hlen
    · rw [List.mem_cons, ih, List.infix_cons_iff]
      constructor
      · rintro (rfl | ⟨h, hw⟩)
        · exact ⟨.inl (List.take_prefix _ _), List.length_take_of_le hlen⟩
        · exact ⟨.inr h, hw⟩
      · rintro ⟨h | h, hw⟩
        · exact .inl (by rw [← hw]; exact List.prefix_iff_eq_take.mp h)
        · exact .inr ⟨h, hw⟩
    · simp only [List.not_mem_nil, false_iff, not_and]
      intro h hw
      exact hlen (hw ▸ h.length_le)

theorem containsWords_iff {answer truth : Chars} : containsWords T answer truth = true ↔
    words T truth ≠ [] ∧ words T truth <:+: words T answer := by
  rw [containsWords, Bool.and_eq_true, Bool.not_eq_true', List.isEmpty_eq_false_iff]
  refine and_congr_right fun hne => ?_
  simp only [List.any_eq_true, decide_eq_true_eq, exists_eq_right,
    mem_windows (List.length_pos_of_ne_nil hne), and_true]

/-! Texts of ASCII characters. -/

private theorem isAlphanum_iff (c : Char) : c.isAlphanum = true ↔
    (48 ≤ c.toNat ∧ c.toNat ≤ 57) ∨ (65 ≤ c.toNat ∧ c.toNat ≤ 90) ∨
      (97 ≤ c.toNat ∧ c.toNat ≤ 122) := by
  simp only [Char.isAlphanum, Char.isAlpha, Char.isUpper, Char.isLower, Char.isDigit,
    Bool.or_eq_true, Bool.and_eq_true, decide_eq_true_eq, UInt32.le_iff_toNat_le, Char.toNat_val,
    ge_iff_le, Char.reduceToNat]
  omega

private theorem toLower_cases (c : Char) :
    (65 ≤ c.toNat ∧ c.toNat ≤ 90 ∧ c.toLower.toNat = c.toNat + 32) ∨
      (¬(65 ≤ c.toNat ∧ c.toNat ≤ 90) ∧ c.toLower = c) := by
  unfold Char.toLower
  split
  · next h =>
    obtain ⟨hl, hr⟩ := h
    simp only [ge_iff_le, UInt32.le_iff_toNat_le, Char.toNat_val, Char.reduceToNat] at hl hr
    refine .inl ⟨hl, hr, ?_⟩
    show (c.val + ('a'.val - 'A'.val)).toNat = c.toNat + 32
    rw [UInt32.toNat_add, Char.toNat_val, show ('a'.val - 'A'.val).toNat = 32 from rfl]
    omega
  · next h =>
    simp only [ge_iff_le, UInt32.le_iff_toNat_le, Char.toNat_val, Char.reduceToNat] at h
    exact .inr ⟨h, rfl⟩

private theorem isAlphanum_toLower (c : Char) : c.toLower.isAlphanum = c.isAlphanum := by
  rw [Bool.eq_iff_iff, isAlphanum_iff, isAlphanum_iff]
  rcases toLower_cases c with ⟨hl, hr, h⟩ | ⟨_, h⟩
  · omega
  · rw [h]

private theorem toLower_ne {c d : Char} (hd : 128 ≤ d.toNat) (hne : c ≠ d) : c.toLower ≠ d := by
  rcases toLower_cases c with ⟨hl, hr, h⟩ | ⟨_, h⟩
  · rintro rfl
    omega
  · rwa [h]

private theorem toLower_toLower (c : Char) : c.toLower.toLower = c.toLower := by
  rcases toLower_cases c.toLower with ⟨hl, hr, _⟩ | ⟨_, h⟩
  · rcases toLower_cases c with ⟨_, _, h⟩ | ⟨h, he⟩
    · omega
    · rw [he] at hl hr
      exact absurd ⟨hl, hr⟩ h
  · exact h

private def asciiLower (c : Char) : Char :=
  if c = 'Σ' then 'σ' else if c = 'İ' then 'i' else c.toLower

private theorem asciiLower_cases (c : Char) : (c = 'Σ' ∧ asciiLower c = 'σ') ∨
    (c = 'İ' ∧ asciiLower c = 'i') ∨ (c ≠ 'Σ' ∧ c ≠ 'İ' ∧ asciiLower c = c.toLower) := by
  unfold asciiLower
  split_ifs with hs hi
  · exact .inl ⟨hs, rfl⟩
  · exact .inr (.inl ⟨hi, rfl⟩)
  · exact .inr (.inr ⟨hs, hi, rfl⟩)

/-- The letters beyond ASCII that the tables below know. -/
private def furtherLetters : Chars := ['İ', 'Σ', 'σ', 'ς']

private theorem furtherLetters_toNat {c : Char} (h : c ∈ furtherLetters) : 128 ≤ c.toNat := by
  simp only [furtherLetters, List.mem_cons, List.not_mem_nil, or_false] at h
  rcases h with rfl | rfl | rfl | rfl <;> decide

private theorem furtherLetters_toLower (c : Char) :
    c.toLower ∈ furtherLetters ↔ c ∈ furtherLetters := by
  rcases toLower_cases c with ⟨hl, hr, h⟩ | ⟨_, h⟩
  · constructor
    · intro hm
      have := furtherLetters_toNat hm
      omega
    · intro hm
      have := furtherLetters_toNat hm
      omega
  · rw [h]

/-- The tables of ASCII, `İ` and the sigmas. -/
def asciiCasing : Casing where
  alphanumeric c := c.isAlphanum || decide (c ∈ furtherLetters)
  lower := asciiLower
  finalSigma before after :=
    let skipped (c : Char) := c = '\'' || c = '.' || c = ':'
    let cased (c : Char) := c.isAlpha || furtherLetters.contains c
    (before.reverse.dropWhile skipped).head?.any cased &&
      !(after.dropWhile skipped).head?.any cased
  alphanumeric_lower := by
    intro c
    rcases asciiLower_cases c with ⟨rfl, h⟩ | ⟨rfl, h⟩ | ⟨_, _, h⟩
    · decide
    · decide
    · rw [h, isAlphanum_toLower, decide_eq_decide.mpr (furtherLetters_toLower c)]
  lower_lower := by
    intro c
    rcases asciiLower_cases c with ⟨rfl, h⟩ | ⟨rfl, h⟩ | ⟨hs, hi, h⟩
    · decide
    · decide
    · rcases asciiLower_cases c.toLower with ⟨h', _⟩ | ⟨h', _⟩ | ⟨_, _, h'⟩
      · exact absurd h' (toLower_ne (by decide) hs)
      · exact absurd h' (toLower_ne (by decide) hi)
      · rw [h, h', toLower_toLower]
  lower_plain := by
    intro c
    rcases asciiLower_cases c with ⟨rfl, h⟩ | ⟨rfl, h⟩ | ⟨hs, hi, h⟩
    · decide
    · decide
    · rw [h]
      exact ⟨toLower_ne (by decide) hs, toLower_ne (by decide) hi⟩
  alphanumeric_ascii := by
    intro c hc
    have hf : c ∉ furtherLetters := fun h => absurd (furtherLetters_toNat h) (by omega)
    rw [decide_eq_false hf, Bool.or_false]
  lower_ascii := by
    intro c hc
    rcases asciiLower_cases c with ⟨rfl, _⟩ | ⟨rfl, _⟩ | ⟨_, _, h⟩
    · exact absurd hc (by decide)
    · exact absurd hc (by decide)
    · exact h
  not_alphanumeric := by
    intro c hc
    rw [Bool.or_eq_false_iff, decide_eq_false_iff_not, ← Bool.not_eq_true, isAlphanum_iff]
    simp only [isWhitespace, Bool.or_eq_true, Bool.and_eq_true, decide_eq_true_eq] at hc
    constructor
    · rcases hc with hc | rfl
      · omega
      · decide
    · intro hf
      simp only [furtherLetters, List.mem_cons, List.not_mem_nil, or_false] at hf
      rcases hf with rfl | rfl | rfl | rfl <;> exact absurd hc (by decide)

/-- The words of an ASCII text do not depend on the tables. -/
theorem words_ascii {text : Chars} (hall : (text.all fun c => c.toNat < 128) = true) :
    words T text = words asciiCasing text := by
  have hplain {w : Chars} (hw : ∀ c ∈ w, c.toNat < 128) : Plain w := by
    intro c hc
    constructor
    · rintro rfl
      exact absurd (hw _ hc) (by decide)
    · rintro rfl
      exact absurd (hw _ hc) (by decide)
  have hlow {w : Chars} (hw : ∀ c ∈ w, c.toNat < 128) : w.map T.lower = w.map asciiCasing.lower :=
    List.map_congr_left fun c hc => by
      rw [T.lower_ascii c (hw c hc), asciiCasing.lower_ascii c (hw c hc)]
  have hal {c : Char} (hc : c.toNat < 128) : T.alphanumeric c = asciiCasing.alphanumeric c := by
    rw [T.alphanumeric_ascii c hc, asciiCasing.alphanumeric_ascii c hc]
  have hword {w : Chars} (hw : ∀ c ∈ w, T.alphanumeric c = true) (ha : ∀ c ∈ w, c.toNat < 128) :
      words T w = words asciiCasing w := by
    rcases eq_or_ne w [] with rfl | hne
    · rfl
    · rw [words_word hne hw, words_word hne fun c hc => by rw [← hal (ha c hc), hw c hc],
        toLowercase_plain (hplain ha), toLowercase_plain (hplain ha), hlow ha]
  have h : ∀ c ∈ text, c.toNat < 128 := by simpa using hall
  clear hall
  induction text using words_induction T with
  | skip c text hc ih =>
    obtain ⟨hcl, hrest⟩ := List.forall_mem_cons.mp h
    rw [words_cons hc, words_cons (by rw [← hal hcl, hc]), ih hrest]
  | word w hw => exact hword hw h
  | first w c text _ hw hc ih =>
    obtain ⟨hwa, hca⟩ := List.forall_mem_append.mp h
    obtain ⟨hcl, hrest⟩ := List.forall_mem_cons.mp hca
    rw [words_append hc, words_append (by rw [← hal hcl, hc]), hword hw hwa, ih hrest]

end PulseNull.Text
