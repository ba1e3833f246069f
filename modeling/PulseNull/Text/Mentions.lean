import PulseNull.Text.Slices

/-! Where a part is first mentioned in a text, in capitals or not: the place of the part in the lower
case of the text, told by the text itself. -/
namespace PulseNull.Text

/-- The part is first found after `x`. -/
theorem find_eq_some {part s : Chars} {n : Nat} : find part s = some n ↔
    ∃ x y, s = x ++ (part ++ y) ∧ size x = n ∧
      ∀ x' y', s = x' ++ (part ++ y') → x.length ≤ x'.length := by
  induction s generalizing n with
  | nil =>
    unfold find
    split
    · next hp =>
      subst hp
      rw [Option.some.injEq]
      constructor
      · rintro rfl
        exact ⟨[], [], rfl, rfl, fun _ _ _ => Nat.zero_le _⟩
      · rintro ⟨x, y, h, hn, -⟩
        rw [(List.append_eq_nil_iff.mp h.symm).1] at hn
        exact hn
    · next hp =>
      constructor
      · intro h
        cases h
      · rintro ⟨x, y, h, -⟩
        exact absurd (List.append_eq_nil_iff.mp (List.append_eq_nil_iff.mp h.symm).2).1 hp
  | cons c s ih =>
    unfold find
    split
    · next hp =>
      rw [Option.some.injEq]
      obtain ⟨y, hy⟩ := List.isPrefixOf_iff_prefix.mp hp
      constructor
      · rintro rfl
        exact ⟨[], y, hy.symm, rfl, fun _ _ _ => Nat.zero_le _⟩
      · rintro ⟨x, -, -, hn, hleast⟩
        have hx := hleast [] y hy.symm
        rw [List.length_nil, Nat.le_zero, List.length_eq_zero_iff] at hx
        rw [hx] at hn
        exact hn
    · next hp =>
      have hno (y : Chars) : c :: s ≠ [] ++ (part ++ y) := fun h =>
        hp (List.isPrefixOf_iff_prefix.mpr ⟨y, h.symm⟩)
      rw [Option.map_eq_some_iff]
      constructor
      · rintro ⟨k, hk, rfl⟩
        obtain ⟨x, y, rfl, rfl, hleast⟩ := ih.mp hk
        refine ⟨c :: x, y, rfl, size_cons c x, fun x' y' h => ?_⟩
        cases x' with
        | nil => exact absurd h (hno y')
        | cons d x' => exact Nat.succ_le_succ (hleast x' y' (List.cons.inj h).2)
      · rintro ⟨x, y, h, rfl, hleast⟩
        cases x with
        | nil => exact absurd h (hno y)
        | cons d x =>
          obtain ⟨rfl, rfl⟩ := List.cons.inj h
          refine ⟨size x, ih.mpr ⟨x, y, rfl, rfl, fun x' y' h' => ?_⟩, (size_cons c x).symm⟩
          have hle := hleast (c :: x') y' (by rw [h', List.cons_append])
          exact Nat.le_of_succ_le_succ hle

/-! Characters replaced by one or two. -/

section
variable {g : Char → Chars} {part : Chars} {l : Char}

/-- Each character becomes one, or two of which the first is not `l`. -/
def Pieces (g : Char → Chars) (l : Char) : Prop := ∀ c, (∃ d, g c = [d]) ∨ ∃ d e, g c = [d, e] ∧ d ≠ l

/-- The first mention of a part ends where `a` does. -/
def EndsFirst (g : Char → Chars) (part a : Chars) : Prop :=
  part <:+ a.flatMap g ∧ ∀ a', a' <+: a → a' ≠ a → ¬ part <:+ a'.flatMap g

theorem Pieces.pos (hg : Pieces g l) (c : Char) : 0 < (g c).length := by
  rcases hg c with ⟨d, h⟩ | ⟨d, e, h, -⟩ <;> rw [h] <;> exact Nat.succ_pos _

/-- A cut after `l` falls between the pieces. -/
theorem Pieces.cut (hg : Pieces g l) {text e y : Chars} (h : text.flatMap g = e ++ y)
    (hl : e.getLast? = some l) : ∃ a b, text = a ++ b ∧ a.flatMap g = e := by
  induction text generalizing e with
  | nil =>
    rw [(List.append_eq_nil_iff.mp h.symm).1] at hl
    cases hl
  | cons c text ih =>
    have hrest {e' : Chars} (he : text.flatMap g = e' ++ y) (hl' : e' ≠ [] → e'.getLast? = some l) :
        ∃ a b, c :: text = a ++ b ∧ a.flatMap g = g c ++ e' := by
      rcases eq_or_ne e' [] with rfl | hne
      · exact ⟨[c], text, rfl, by simp⟩
      · obtain ⟨a, b, rfl, rfl⟩ := ih he (hl' hne)
        exact ⟨c :: a, b, rfl, by simp⟩
    rw [List.flatMap_cons] at h
    cases e with
    | nil => cases hl
    | cons d e =>
      rcases hg c with ⟨d', hd⟩ | ⟨d', d₂, hd, hne⟩
      · rw [hd, List.cons_append, List.nil_append, List.cons_append] at h
        obtain ⟨rfl, he⟩ := List.cons.inj h
        obtain ⟨a, b, hab, ha⟩ := hrest he fun hne => by
          rwa [List.getLast?_cons_of_ne_nil hne] at hl
        exact ⟨a, b, hab, by rw [ha, hd]; rfl⟩
      · rw [hd, List.cons_append, List.cons_append, List.nil_append, List.cons_append] at h
        cases e with
        | nil =>
          obtain rfl : d = l := Option.some.inj hl
          exact absurd (List.cons.inj h).1 hne
        | cons d₃ e =>
          obtain ⟨rfl, htail⟩ := List.cons.inj h
          rw [List.cons_append] at htail
          obtain ⟨rfl, he⟩ := List.cons.inj htail
          obtain ⟨a, b, hab, ha⟩ := hrest he fun hne => by
            rwa [List.getLast?_cons_of_ne_nil (by simp), List.getLast?_cons_of_ne_nil hne] at hl
          exact ⟨a, b, hab, by rw [ha, hd]; rfl⟩

theorem Pieces.length_lt (hg : Pieces g l) {a b : Chars} (h : a <+: b) (hne : a ≠ b) :
    (a.flatMap g).length < (b.flatMap g).length := by
  obtain ⟨t, rfl⟩ := h
  cases t with
  | nil => exact absurd (List.append_nil a).symm hne
  | cons c t =>
    have := hg.pos c
    rw [List.flatMap_append, List.flatMap_cons]
    simp only [List.length_append]
    omega

/-- Where the part is found in the replaced text. -/
theorem Pieces.find_iff (hg : Pieces g l) (hl : part.getLast? = some l) {text : Chars} {n : Nat} :
    find part (text.flatMap g) = some n ↔
      ∃ a b, text = a ++ b ∧ EndsFirst g part a ∧ n + size part = size (a.flatMap g) := by
  have hlast (x : Chars) : (x ++ part).getLast? = some l := by
    rw [List.getLast?_append, hl]
    rfl
  rw [find_eq_some]
  constructor
  · rintro ⟨x, y, h, rfl, hleast⟩
    rw [← List.append_assoc] at h
    obtain ⟨a, b, rfl, ha⟩ := hg.cut h (hlast x)
    refine ⟨a, b, rfl, ⟨⟨x, ha.symm⟩, ?_⟩, by rw [ha, size_append]⟩
    rintro a' hpre hne ⟨x', hx'⟩
    have hlt := hg.length_lt hpre hne
    obtain ⟨t, rfl⟩ := hpre
    have hle := hleast x' (t.flatMap g ++ b.flatMap g) (by
      rw [List.flatMap_append, List.flatMap_append, ← hx']
      simp only [List.append_assoc])
    rw [ha, ← hx', List.length_append, List.length_append] at hlt
    omega
  · rintro ⟨a, b, rfl, ⟨⟨x, hx⟩, hfirst⟩, hn⟩
    refine ⟨x, b.flatMap g, ?_, ?_, fun x' y' h' => ?_⟩
    · rw [List.flatMap_append, ← hx, List.append_assoc]
    · rw [← hx, size_append] at hn
      omega
    · by_contra hlt
      rw [← List.append_assoc] at h'
      obtain ⟨a', b', hab, ha'⟩ := hg.cut h' (hlast x')
      have hlen : (a'.flatMap g).length < (a.flatMap g).length := by
        rw [ha', ← hx, List.length_append, List.length_append]
        omega
      rcases List.prefix_or_prefix_of_prefix ⟨b, rfl⟩ ⟨b', hab.symm⟩ with hpre | hpre
      · rcases eq_or_ne a a' with rfl | hne
        · exact absurd hlen (lt_irrefl _)
        · exact absurd (hg.length_lt hpre hne) hlen.asymm
      · exact hfirst a' hpre (fun h => absurd hlen (by rw [h]; exact lt_irrefl _)) ⟨x', ha'.symm⟩

end

/-! Lower case. -/

private def joinSigma (c : Char) : Char := if c = 'ς' then 'σ' else c

private theorem joinSigma_size (c : Char) : (joinSigma c).utf8Size = c.utf8Size := by
  unfold joinSigma
  split
  · next h =>
    subst h
    decide
  · rfl

private theorem size_joinSigma (text : Chars) : size (text.map joinSigma) = size text := by
  induction text with
  | nil => rfl
  | cons c text ih => rw [List.map_cons, size_cons, size_cons, joinSigma_size, ih]

private theorem joinSigma_eq {c d : Char} (h : d ≠ 'σ' ∧ d ≠ 'ς') : joinSigma c = d ↔ c = d := by
  unfold joinSigma
  split
  · next hc =>
    subst hc
    exact iff_of_false h.1.symm h.2.symm
  · rfl

/-- No sigma in small letters, the one letter whose lower case depends on its place. -/
def NoSigma (part : Chars) : Prop := ∀ c ∈ part, c ≠ 'σ' ∧ c ≠ 'ς'

private theorem map_joinSigma_eq {part text : Chars} (h : NoSigma part) :
    text.map joinSigma = part ↔ text = part := by
  induction text generalizing part with
  | nil => rfl
  | cons c text ih =>
    cases part with
    | nil => simp
    | cons d part =>
      obtain ⟨hd, hpart⟩ := List.forall_mem_cons.mp h
      rw [List.map_cons, List.cons.injEq, List.cons.injEq, joinSigma_eq hd, ih hpart]

private theorem isPrefix_joinSigma {part text : Chars} (h : NoSigma part) :
    part <+: text.map joinSigma ↔ part <+: text := by
  constructor
  · rintro ⟨t, ht⟩
    obtain ⟨a, b, rfl, ha, -⟩ := List.map_eq_append_iff.mp ht.symm
    rw [map_joinSigma_eq h] at ha
    exact ⟨b, by rw [ha]⟩
  · rintro ⟨t, rfl⟩
    refine ⟨t.map joinSigma, ?_⟩
    rw [List.map_append, (map_joinSigma_eq h).mpr rfl]

private theorem isSuffix_joinSigma {part text : Chars} (h : NoSigma part) :
    part <:+ text.map joinSigma ↔ part <:+ text := by
  constructor
  · rintro ⟨t, ht⟩
    obtain ⟨a, b, rfl, -, hb⟩ := List.map_eq_append_iff.mp ht.symm
    rw [map_joinSigma_eq h] at hb
    exact ⟨a, by rw [hb]⟩
  · rintro ⟨t, rfl⟩
    refine ⟨t.map joinSigma, ?_⟩
    rw [List.map_append, (map_joinSigma_eq h).mpr rfl]

private theorem find_joinSigma {part : Chars} (h : NoSigma part) (text : Chars) :
    find part (text.map joinSigma) = find part text := by
  induction text with
  | nil => rfl
  | cons c text ih =>
    have hiff : part <+: (c :: text).map joinSigma ↔ part <+: c :: text := isPrefix_joinSigma h
    rw [← List.isPrefixOf_iff_prefix, ← List.isPrefixOf_iff_prefix, ← Bool.eq_iff_iff,
      List.map_cons] at hiff
    rw [List.map_cons, find, find, hiff, ih, joinSigma_size]

variable {T : Casing}

private def lowerPieces (T : Casing) (c : Char) : Chars :=
  if c = 'Σ' then ['σ'] else if c = 'İ' then ['i', '\u0307'] else [joinSigma (T.lower c)]

private theorem lowercaseFrom_pieces (before text : Chars) :
    (lowercaseFrom T before text).map joinSigma = text.flatMap (lowerPieces T) := by
  induction text generalizing before with
  | nil => rfl
  | cons c text ih =>
    rw [lowercaseFrom, List.map_append, ih, List.flatMap_cons]
    congr 1
    unfold lowerPieces
    split
    · split <;> rfl
    · split <;> rfl

private theorem pieces_lowerPieces (T : Casing) {l : Char} (hl : l ≠ 'i') :
    Pieces (lowerPieces T) l := by
  intro c
  unfold lowerPieces
  split
  · exact .inl ⟨_, rfl⟩
  · split
    · exact .inr ⟨'i', '\u0307', rfl, hl.symm⟩
    · exact .inl ⟨_, rfl⟩

/-- The first mention of a part, in capitals or not, ends where `a` does. -/
structure Mentions (T : Casing) (part a : Chars) : Prop where
  ends : part <:+ toLowercase T a
  first : ∀ a', a' <+: a → a' ≠ a → ¬ part <:+ toLowercase T a'

private theorem suffix_lowercase {part : Chars} (h : NoSigma part) (a : Chars) :
    part <:+ toLowercase T a ↔ part <:+ a.flatMap (lowerPieces T) := by
  rw [← lowercaseFrom_pieces (T := T) [] a, isSuffix_joinSigma h]
  rfl

private theorem size_lowercase (a : Chars) : size (a.flatMap (lowerPieces T)) = size (toLowercase T a) := by
  rw [← lowercaseFrom_pieces (T := T) [] a, size_joinSigma]
  rfl

/-- The place of a part in the lower case of a text is the length of the lower case up to it. -/
theorem find_lowercase {part : Chars} {l : Char} (hpart : NoSigma part) (hlast : part.getLast? = some l)
    (hl : l ≠ 'i') {text : Chars} {n : Nat} : find part (toLowercase T text) = some n ↔
      ∃ a b, text = a ++ b ∧ Mentions T part a ∧ n + size part = size (toLowercase T a) := by
  have hends (a : Chars) : EndsFirst (lowerPieces T) part a ↔ Mentions T part a := by
    unfold EndsFirst
    simp only [← suffix_lowercase hpart]
    exact ⟨fun h => ⟨h.1, h.2⟩, fun h => ⟨h.1, h.2⟩⟩
  rw [← find_joinSigma hpart, toLowercase, lowercaseFrom_pieces,
    (pieces_lowerPieces T hl).find_iff hlast]
  simp only [hends, size_lowercase]

theorem Mentions.size_le {part a : Chars} (h : Mentions T part a) :
    size part ≤ size (toLowercase T a) := by
  obtain ⟨t, ht⟩ := h.ends
  rw [← ht, size_append]
  exact Nat.le_add_left _ _

/-- A text has one first mention. -/
theorem Mentions.unique {part a a' text : Chars} (h : Mentions T part a) (h' : Mentions T part a')
    (ha : a <+: text) (ha' : a' <+: text) : a = a' := by
  by_contra hne
  rcases List.prefix_or_prefix_of_prefix ha ha' with hpre | hpre
  · exact h'.first a hpre hne h.ends
  · exact h.first a' hpre (Ne.symm hne) h'.ends

theorem toLowercase_ascii {text : Chars} (h : (text.all fun c => c.toNat < 128) = true) :
    toLowercase T text = text.map Char.toLower := by
  have hascii (c : Char) (hc : c ∈ text) : c.toNat < 128 :=
    of_decide_eq_true (List.all_eq_true.mp h c hc)
  rw [toLowercase_plain]
  · exact List.map_congr_left fun c hc => T.lower_ascii c (hascii c hc)
  · intro c hc
    constructor
    · rintro rfl
      exact absurd (hascii _ hc) (by decide)
    · rintro rfl
      exact absurd (hascii _ hc) (by decide)

end PulseNull.Text
