import PulseNull.Json.Extend

/-! Compact text reads back as the value it was printed from. -/
namespace PulseNull.Json
open Text (ascii decimal isDigit digitsValue)
variable {inRange : Bytes → Bool}

/-- What follows a number without being read as part of it. -/
def Stop (rest : Bytes) : Prop :=
  ∀ c ∈ rest.head?, isDigit c = false ∧ c ≠ 46 ∧ c ≠ 101 ∧ c ≠ 69

theorem stop_nil : Stop [] := by simp [Stop]

private theorem stop_comma (rest : Bytes) : Stop (comma :: rest) := by
  simp only [Stop, List.head?_cons, Option.mem_some_iff, forall_eq']
  decide

private theorem stop_closeBracket (rest : Bytes) : Stop (closeBracket :: rest) := by
  simp only [Stop, List.head?_cons, Option.mem_some_iff, forall_eq']
  decide

private theorem stop_closeBrace (rest : Bytes) : Stop (closeBrace :: rest) := by
  simp only [Stop, List.head?_cons, Option.mem_some_iff, forall_eq']
  decide

/-! Strings. -/

private theorem control_escape : ∀ n < 32,
    parseEscape (117 :: 48 :: 48 :: Text.hex [UInt8.ofNat n]) = some ([UInt8.ofNat n], []) := by
  decide +kernel

private theorem parseString_escape (c : UInt8) {f : Nat} {inp s rest : Bytes}
    (h : parseString f inp = some (s, rest)) :
    parseString (f + 1) (escape c ++ inp) = some (c :: s, rest) := by
  have two {a : UInt8} (ha : parseEscape [a] = some ([c], [])) :
      parseString (f + 1) ([backslash, a] ++ inp) = some (c :: s, rest) := by
    have hx := parseEscape_append ha inp
    simp only [List.cons_append, List.nil_append] at hx ⊢
    rw [parseString, if_neg (by decide), if_pos rfl, hx]
    simp [h]
  unfold escape
  split
  · next hc => exact hc ▸ two (hc ▸ by decide)
  split
  · next hc => exact hc ▸ two (hc ▸ by decide)
  iterate 5
    split
    · next hc =>
      refine two ?_
      rw [hc]
      decide
  split
  · next hlt =>
    have hn : c.toNat < 32 := UInt8.lt_iff_toNat_lt.mp hlt
    have hx := parseEscape_append (control_escape c.toNat hn) inp
    rw [UInt8.ofNat_toNat] at hx
    simp only [List.cons_append, List.nil_append] at hx ⊢
    rw [parseString, if_neg (by decide), if_pos rfl, hx]
    simp [h]
  · next hq hb _ _ _ _ _ hlt =>
    rw [List.singleton_append, parseString, if_neg hq, if_neg hb, if_neg hlt, h]
    rfl

private theorem parseString_text (s rest : Bytes) :
    parseString (s.length + 1) (s.flatMap escape ++ quoteMark :: rest) = some (s, rest) := by
  induction s with
  | nil => rfl
  | cons c s ih =>
    rw [List.flatMap_cons, List.append_assoc, List.length_cons]
    exact parseString_escape c ih

private theorem length_flatMap_escape (s : Bytes) : s.length ≤ (s.flatMap escape).length := by
  induction s with
  | nil => simp
  | cons c s ih =>
    have hc : 0 < (escape c).length := by
      unfold escape
      repeat' split
      all_goals simp
    rw [List.flatMap_cons, List.length_append, List.length_cons]
    omega

/-- A quoted string after its opening quote. -/
theorem parseString_quote (s rest : Bytes) {f : Nat}
    (hf : (s.flatMap escape ++ quoteMark :: rest).length ≤ f) :
    parseString f (s.flatMap escape ++ quoteMark :: rest) = some (s, rest) := by
  have hl := length_flatMap_escape s
  rw [List.length_append, List.length_cons] at hf
  have := parseString_append (parseString_text s rest) (show s.length + 1 ≤ f by omega) []
  simpa using this

/-! Numbers. -/

private theorem takeWhile_digits {ds rest : Bytes} (hd : ∀ c ∈ ds, isDigit c = true)
    (hs : Stop rest) :
    (ds ++ rest).takeWhile isDigit = ds ∧ (ds ++ rest).dropWhile isDigit = rest := by
  have ht : rest.takeWhile isDigit = [] ∧ rest.dropWhile isDigit = rest := by
    cases rest with
    | nil => simp
    | cons c cs => simp [(hs c (by simp)).1]
  rw [List.takeWhile_append_of_pos hd, List.dropWhile_append_of_pos hd, ht.1, ht.2]
  simp

private theorem parseInt_decimal (n : Nat) {rest : Bytes} (hs : Stop rest) :
    parseInt (decimal n ++ rest) = some (decimal n, rest) := by
  cases hd : decimal n with
  | nil => exact absurd hd (Text.decimal_ne_nil n)
  | cons c cs =>
    have hall := Text.decimal_digits n
    rw [hd] at hall
    rw [List.cons_append, parseInt]
    split
    · next hc =>
      obtain ⟨_, rfl⟩ := Text.decimal_head hd hc
      have hn : rest.head?.any isDigit = false := by
        cases rest with
        | nil => rfl
        | cons x xs => simpa using (hs x (by simp)).1
      simp [hn]
    · obtain ⟨h1, h2⟩ := takeWhile_digits (fun x (hx : x ∈ cs) => hall x (by simp [hx])) hs
      rw [if_pos (hall c (by simp)), h1, h2]

private theorem parseFrac_stop {rest : Bytes} (hs : Stop rest) :
    parseFrac rest = some ([], rest) := by
  cases rest with
  | nil => rfl
  | cons c cs => rw [parseFrac, if_neg (hs c (by simp)).2.1]

private theorem parseExp_stop {rest : Bytes} (hs : Stop rest) :
    parseExp rest = some ([], rest) := by
  cases rest with
  | nil => rfl
  | cons c cs =>
    have := (hs c (by simp)).2.2
    rw [parseExp, if_neg (by simpa using this)]

private theorem parseUnsigned_decimal {negative : Bool} {n : Nat} {m : Num} {rest : Bytes}
    (hm : integer negative n = m) (hf : m ≠ .float) (hs : Stop rest) :
    parseUnsigned inRange negative (decimal n ++ rest) = some (m, rest) := by
  have hn : numeral inRange negative (decimal n) [] [] = some m := by
    rw [numeral, if_pos ⟨rfl, rfl⟩, Text.digitsValue_decimal, hm]
    split
    · next h => exact absurd rfl hf
    · rfl
  simp [parseUnsigned, parseInt_decimal n hs, parseFrac_stop hs, parseExp_stop hs, hn]

private theorem parseNumber_pos (n : Fin (2^64)) {rest : Bytes} (hs : Stop rest) :
    parseNumber inRange (decimal n.val ++ rest) = some (.pos n, rest) := by
  have hi : integer false n.val = .pos n := by simp [integer]
  have hp : parseUnsigned inRange false (decimal n.val ++ rest) = some (.pos n, rest) :=
    parseUnsigned_decimal hi (by simp) hs
  cases hd : decimal n.val with
  | nil => exact absurd hd (Text.decimal_ne_nil _)
  | cons c cs =>
    have hc := Text.decimal_digits n.val c (by simp [hd])
    have hne : c ≠ minus := by
      rintro rfl
      exact absurd hc (by decide)
    rw [hd] at hp
    rw [List.cons_append, parseNumber, if_neg hne, ← List.cons_append, hp]

private theorem parseNumber_neg (n : Fin (2^63)) {rest : Bytes} (hs : Stop rest) :
    parseNumber inRange (minus :: (decimal (n.val + 1) ++ rest)) = some (.neg n, rest) := by
  have hi : integer true (n.val + 1) = .neg n := by
    simp [integer]
  rw [parseNumber, if_pos rfl]
  exact parseUnsigned_decimal hi (by simp) hs

/-! Values. -/

/-- The first byte of a text starts a value. -/
private def Opens (t : Bytes) : Prop :=
  ∃ c cs, t = c :: cs ∧ isSpace c = false ∧ c ≠ closeBracket ∧ c ≠ closeBrace

private theorem digit_opens {c : UInt8} (h : isDigit c = true) :
    isSpace c = false ∧ c ≠ closeBracket ∧ c ≠ closeBrace := by
  refine ⟨?_, ?_, ?_⟩
  · simp only [isSpace, Bool.or_eq_false_iff, decide_eq_false_iff_not]
    refine ⟨⟨⟨?_, ?_⟩, ?_⟩, ?_⟩ <;> rintro rfl <;> exact absurd h (by decide)
  all_goals
    rintro rfl
    exact absurd h (by decide)

private theorem print_opens {v : Json} {t : Bytes} (h : print v = some t) : Opens t := by
  have mk {c : UInt8} {cs : Bytes} (he : t = c :: cs)
      (hc : isSpace c = false ∧ c ≠ closeBracket ∧ c ≠ closeBrace) : Opens t :=
    ⟨c, cs, he, hc⟩
  match v, h with
  | .null, h | .bool true, h | .bool false, h =>
    simp only [print, Option.some.injEq] at h
    exact mk h.symm (by decide +kernel)
  | .num (.pos n), h =>
    simp only [print, printNum, Option.some.injEq] at h
    cases hd : decimal n.val with
    | nil => exact absurd hd (Text.decimal_ne_nil _)
    | cons c cs => exact mk (h.symm.trans hd) (digit_opens (Text.decimal_digits n.val c (by simp [hd])))
  | .num (.neg n), h =>
    simp only [print, printNum, Option.some.injEq] at h
    exact mk h.symm (by decide)
  | .num .float, h => simp [print, printNum] at h
  | .str s, h =>
    simp only [print, Option.some.injEq] at h
    exact mk h.symm (by decide)
  | .arr items, h =>
    simp only [print, Option.map_eq_some_iff] at h
    obtain ⟨ts, _, h⟩ := h
    exact mk h.symm (by decide)
  | .obj members, h =>
    simp only [print, Option.map_eq_some_iff] at h
    obtain ⟨ms, _, h⟩ := h
    exact mk h.symm (by decide)

private theorem skipWs_cons {c : UInt8} (h : isSpace c = false) (cs : Bytes) :
    skipWs (c :: cs) = c :: cs := by simp [skipWs, h]

private theorem parseValue_number {f d : Nat} {c : UInt8} {cs : Bytes}
    (hc : isDigit c = true ∨ c = minus) :
    parseValue inRange (f + 1) d (c :: cs) =
      (parseNumber inRange (c :: cs)).map fun p => (.num p.1, p.2) := by
  have hne (k : UInt8) (hk : isDigit k = false) (hk' : k ≠ minus) : c ≠ k := by
    rintro rfl
    rcases hc with h | h
    · simp [hk] at h
    · exact hk' h
  have hsp : isSpace c = false := by
    rcases hc with h | rfl
    · exact (digit_opens h).1
    · decide
  rw [parseValue, skipWs_cons hsp]
  simp only [if_neg (hne 110 (by decide) (by decide)), if_neg (hne 116 (by decide) (by decide)),
    if_neg (hne 102 (by decide) (by decide)), if_neg (hne quoteMark (by decide) (by decide)),
    if_neg (hne openBracket (by decide) (by decide)), if_neg (hne openBrace (by decide) (by decide))]

private theorem parseValue_word {f d : Nat} {v : Json} {w : Bytes} (rest : Bytes)
    (h : parseValue inRange 1 d w = some (v, [])) (hv : ∀ n, v ≠ .num n) :
    parseValue inRange (f + 1) d (w ++ rest) = some (v, rest) := by
  simpa using parseValue_append h (.inr hv) (by omega) rest

private theorem join_opens {t : Bytes} (ts : List Bytes) (h : Opens t) (rest : Bytes) :
    ∃ c cs, join (t :: ts) ++ rest = c :: cs ∧ isSpace c = false ∧ c ≠ closeBracket := by
  obtain ⟨c, cs, rfl, hs, hb, _⟩ := h
  cases ts with
  | nil => exact ⟨c, cs ++ rest, by simp [join], hs, hb⟩
  | cons u us => exact ⟨c, cs ++ comma :: join (u :: us) ++ rest, by simp [join], hs, hb⟩

private theorem printMember_opens (m : Bytes × Bytes) (rest : Bytes) :
    printMember m ++ rest = quoteMark :: (m.1.flatMap escape ++ quoteMark :: (colon :: (m.2 ++ rest))) := by
  simp [printMember, quote]

private theorem length_printMember (m : Bytes × Bytes) : m.2.length < (printMember m).length := by
  simp only [printMember, List.length_append, List.length_cons]
  omega

mutual
/-- Printing then reading gives the value back, whatever follows that is no number. -/
theorem parseValue_print : ∀ {v : Json} {t : Bytes} {f d : Nat} {rest : Bytes},
    print v = some t → depth v ≤ d → t.length ≤ f → Stop rest →
      parseValue inRange f d (t ++ rest) = some (v, rest)
  | v, t, 0, d, rest, h, _, hf, _ => by
    obtain ⟨c, cs, rfl, _⟩ := print_opens h
    simp at hf
  | .null, _, f + 1, d, rest, h, _, _, _ => by
    simp only [print, Option.some.injEq] at h
    exact h ▸ parseValue_word rest rfl (by simp)
  | .bool true, _, f + 1, d, rest, h, _, _, _ => by
    simp only [print, Option.some.injEq] at h
    exact h ▸ parseValue_word rest rfl (by simp)
  | .bool false, _, f + 1, d, rest, h, _, _, _ => by
    simp only [print, Option.some.injEq] at h
    exact h ▸ parseValue_word rest rfl (by simp)
  | .num (.pos n), _, f + 1, d, rest, h, _, _, hs => by
    simp only [print, printNum, Option.some.injEq] at h
    subst h
    have hp : parseNumber inRange (decimal n.val ++ rest) = some (.pos n, rest) :=
      parseNumber_pos n hs
    cases hd : decimal n.val with
    | nil => exact absurd hd (Text.decimal_ne_nil _)
    | cons c cs =>
      have hc := Text.decimal_digits n.val c (by simp [hd])
      rw [hd] at hp
      rw [List.cons_append, parseValue_number (.inl hc), ← List.cons_append, hp, Option.map_some]
  | .num (.neg n), _, f + 1, d, rest, h, _, _, hs => by
    simp only [print, printNum, Option.some.injEq] at h
    subst h
    rw [List.cons_append, parseValue_number (.inr rfl), parseNumber_neg n hs, Option.map_some]
  | .num .float, _, f + 1, d, rest, h, _, _, _ => by simp [print, printNum] at h
  | .str s, _, f + 1, d, rest, h, _, _, _ => by
    simp only [print, Option.some.injEq] at h
    subst h
    have hq : quote s ++ rest = quoteMark :: (s.flatMap escape ++ quoteMark :: rest) := by
      simp [quote]
    rw [hq, parseValue, skipWs_cons (by decide)]
    simp only [if_neg (show quoteMark ≠ 110 by decide), if_neg (show quoteMark ≠ 116 by decide),
      if_neg (show quoteMark ≠ 102 by decide), if_true, parseString_quote s rest le_rfl,
      Option.map_some]
  | .arr items, _, f + 1, d, rest, h, hd, hf, hs => by
    rw [print, Option.map_eq_some_iff] at h
    obtain ⟨ts, hts, rfl⟩ := h
    rw [depth] at hd
    obtain ⟨d, rfl⟩ : ∃ e, d = e + 1 := ⟨d - 1, by omega⟩
    have hb : bracket ts ++ rest = openBracket :: (join ts ++ closeBracket :: rest) := by
      simp [bracket]
    have hl : (join ts).length + 1 ≤ f := by
      simp only [bracket, List.length_cons, List.length_append, List.length_nil] at hf
      omega
    rw [hb, parseValue, skipWs_cons (by decide)]
    simp only [if_neg (show openBracket ≠ 110 by decide), if_neg (show openBracket ≠ 116 by decide),
      if_neg (show openBracket ≠ 102 by decide), if_neg (show openBracket ≠ quoteMark by decide),
      if_true]
    cases items with
    | nil =>
      simp only [printItems, Option.some.injEq] at hts
      subst hts
      rw [show join [] ++ closeBracket :: rest = closeBracket :: rest from rfl,
        skipWs_cons (by decide)]
      simp
    | cons v vs =>
      have hi := parseItems_print hts (show depthItems (v :: vs) ≤ d by omega) hl rest (by simp)
      rw [printItems] at hts
      simp only [Option.bind_eq_bind, Option.bind_eq_some_iff, Option.pure_def,
        Option.some.injEq] at hts
      obtain ⟨t, ht, us, _, rfl⟩ := hts
      obtain ⟨c, cs, hc, hsp, hne⟩ := join_opens us (print_opens ht) (closeBracket :: rest)
      rw [hc] at hi ⊢
      rw [skipWs_cons hsp]
      simp only [if_neg hne, hi, Option.map_some]
  | .obj members, _, f + 1, d, rest, h, hd, hf, hs => by
    rw [print, Option.map_eq_some_iff] at h
    obtain ⟨ps, hps, rfl⟩ := h
    rw [depth] at hd
    obtain ⟨d, rfl⟩ : ∃ e, d = e + 1 := ⟨d - 1, by omega⟩
    have hb : brace ps ++ rest =
        openBrace :: (join (ps.map printMember) ++ closeBrace :: rest) := by
      simp [brace]
    have hl : (join (ps.map printMember)).length + 1 ≤ f := by
      simp only [brace, List.length_cons, List.length_append, List.length_nil] at hf
      omega
    rw [hb, parseValue, skipWs_cons (by decide)]
    simp only [if_neg (show openBrace ≠ 110 by decide), if_neg (show openBrace ≠ 116 by decide),
      if_neg (show openBrace ≠ 102 by decide), if_neg (show openBrace ≠ quoteMark by decide),
      if_neg (show openBrace ≠ openBracket by decide), if_true]
    cases members with
    | nil =>
      simp only [printMembers, Option.some.injEq] at hps
      subst hps
      rw [show join (List.map printMember []) ++ closeBrace :: rest = closeBrace :: rest from rfl,
        skipWs_cons (by decide)]
      simp
    | cons m ms =>
      have hi := parseMembers_print hps (show depthMembers (m :: ms) ≤ d by omega) hl rest (by simp)
      obtain ⟨k, v⟩ := m
      rw [printMembers] at hps
      simp only [Option.bind_eq_bind, Option.bind_eq_some_iff, Option.pure_def,
        Option.some.injEq] at hps
      obtain ⟨t, ht, qs, _, rfl⟩ := hps
      have ho : Opens (printMember (k, t)) :=
        ⟨quoteMark, _, (List.append_nil _).symm.trans (printMember_opens (k, t) []), by decide⟩
      obtain ⟨c, cs, hc, hsp, _⟩ :=
        join_opens (qs.map printMember) ho (closeBrace :: rest)
      have hne : c ≠ closeBrace := by
        obtain ⟨c', cs', hc', _, _, hne⟩ := ho
        cases qs <;> simp [join, hc'] at hc <;> exact hc.1 ▸ hne
      rw [List.map_cons, hc] at hi ⊢
      rw [skipWs_cons hsp]
      simp only [if_neg hne, hi, Option.map_some]
theorem parseItems_print : ∀ {vs : List Json} {ts : List Bytes} {f d : Nat},
    printItems vs = some ts → depthItems vs ≤ d → (join ts).length + 1 ≤ f → ∀ rest, vs ≠ [] →
      parseItems inRange f d (join ts ++ closeBracket :: rest) = some (vs, rest)
  | [], _, _, _, _, _, _, _, hne => absurd rfl hne
  | v :: vs, _, 0, _, _, _, hf, _, _ => by simp at hf
  | v :: vs, _, f + 1, d, h, hd, hf, rest, _ => by
    rw [printItems] at h
    simp only [Option.bind_eq_bind, Option.bind_eq_some_iff, Option.pure_def,
      Option.some.injEq] at h
    obtain ⟨t, ht, ts, hts, rfl⟩ := h
    rw [depthItems] at hd
    have hdv : depth v ≤ d := by omega
    rw [parseItems]
    cases vs with
    | nil =>
      simp only [printItems, Option.some.injEq] at hts
      subst hts
      have := parseValue_print ht hdv (by simp [join] at hf; omega)
        (stop_closeBracket rest) (f := f)
      simp only [join, Option.bind_eq_bind, this, Option.bind_some, skipWs_cons (c := closeBracket)
        (by decide), if_true]
    | cons w ws =>
      cases hs : ts with
      | nil =>
        subst hs
        simp [printItems, Option.bind_eq_some_iff] at hts
      | cons u us =>
        rw [hs] at hf hts
        simp only [join, List.length_append, List.length_cons] at hf
        have hv := parseValue_print ht hdv (by omega)
          (stop_comma (join (u :: us) ++ closeBracket :: rest)) (f := f)
        have hi := parseItems_print hts (by omega) (by omega) rest (by simp)
          (f := f) (d := d)
        have hj : join (t :: u :: us) ++ closeBracket :: rest =
            t ++ comma :: (join (u :: us) ++ closeBracket :: rest) := by simp [join]
        simp only [hj, Option.bind_eq_bind, hv, Option.bind_some,
          skipWs_cons (c := comma) (by decide), if_neg (show comma ≠ closeBracket by decide),
          if_true, hi, Option.map_some]
theorem parseMembers_print : ∀ {ms : List (Bytes × Json)} {ps : List (Bytes × Bytes)} {f d : Nat},
    printMembers ms = some ps → depthMembers ms ≤ d →
      (join (ps.map printMember)).length + 1 ≤ f → ∀ rest, ms ≠ [] →
      parseMembers inRange f d (join (ps.map printMember) ++ closeBrace :: rest) = some (ms, rest)
  | [], _, _, _, _, _, _, _, hne => absurd rfl hne
  | m :: ms, _, 0, _, _, _, hf, _, _ => by simp at hf
  | (k, v) :: ms, _, f + 1, d, h, hd, hf, rest, _ => by
    rw [printMembers] at h
    simp only [Option.bind_eq_bind, Option.bind_eq_some_iff, Option.pure_def,
      Option.some.injEq] at h
    obtain ⟨t, ht, ps, hps, rfl⟩ := h
    rw [depthMembers] at hd
    have hdv : depth v ≤ d := by omega
    have hlm : t.length < (printMember (k, t)).length := length_printMember (k, t)
    -- the key and the colon, whatever comes after the member
    have head (after : Bytes) :
        expect [quoteMark] (skipWs (printMember (k, t) ++ after)) =
          some (k.flatMap escape ++ quoteMark :: (colon :: (t ++ after))) := by
      rw [printMember_opens, skipWs_cons (by decide)]
      rfl
    have col (after : Bytes) : expect [colon] (skipWs (colon :: (t ++ after))) = some (t ++ after) := by
      rw [skipWs_cons (by decide)]
      rfl
    rw [parseMembers]
    cases ms with
    | nil =>
      simp only [printMembers, Option.some.injEq] at hps
      subst hps
      simp only [List.map_cons, List.map_nil, join] at hf ⊢
      have := parseValue_print ht hdv (by omega)
        (stop_closeBrace rest) (f := f)
      simp only [Option.bind_eq_bind, head, Option.bind_some, parseString_quote k _ le_rfl, col,
        this, skipWs_cons (c := closeBrace) (by decide), if_true]
    | cons n ns =>
      cases hs : ps with
      | nil =>
        subst hs
        simp [printMembers, Option.bind_eq_some_iff] at hps
      | cons q qs =>
        rw [hs] at hf hps
        simp only [List.map_cons, join, List.length_append, List.length_cons] at hf
        have hv := parseValue_print ht hdv (by omega)
          (stop_comma (join ((q :: qs).map printMember) ++ closeBrace :: rest)) (f := f)
        have hi := parseMembers_print hps (by omega)
          (by simp only [List.map_cons]; omega) rest (by simp) (f := f) (d := d)
        have hj : join (((k, t) :: q :: qs).map printMember) ++ closeBrace :: rest =
            printMember (k, t) ++ comma :: (join ((q :: qs).map printMember) ++ closeBrace :: rest) := by
          simp [join]
        simp only [hj, Option.bind_eq_bind, head, Option.bind_some, parseString_quote k _ le_rfl,
          col, hv, skipWs_cons (c := comma) (by decide), if_neg (show comma ≠ closeBrace by decide),
          if_true, hi, Option.map_some]
end

/-- A printed value of allowed depth is a document that reads as that value. -/
theorem parse_print {v : Json} {t : Bytes} (h : print v = some t) (hd : depth v ≤ maxDepth) :
    parse inRange t = some v := by
  have : parseValue inRange (t.length + 1) maxDepth (t ++ []) = some (v, []) :=
    parseValue_print h hd (Nat.le_succ t.length) stop_nil
  rw [List.append_nil] at this
  simp [parse, this, skipWs]

/-- The text of a map value is a document of that value and of no other. -/
theorem parse_canonical {v w : Json} {t : Bytes} (hp : print v = some t)
    (hw : parse inRange t = some w) (hn : w.normalize = v) : w = v := by
  have hd : v.depth ≤ maxDepth := hn ▸ (depth_normalize_le w).trans (parse_depth hw)
  exact Option.some.inj (hw.symm.trans (parse_print hp hd))

end PulseNull.Json
