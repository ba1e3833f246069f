import PulseNull.Json.Parse

/-! The reader never looks past what it consumed, a number at the very end
apart. So the text of a container has no proper prefix that is a document. -/
namespace PulseNull.Json
open Text (isDigit)
variable {inRange : Bytes → Bool}

theorem skipWs_append {inp r : Bytes} {c : UInt8} (h : skipWs inp = c :: r) (s : Bytes) :
    skipWs (inp ++ s) = c :: (r ++ s) := by
  simp [skipWs] at h ⊢
  rw [List.dropWhile_append, h]
  simp

theorem expect_append {ps inp r : Bytes} (h : expect ps inp = some r) (s : Bytes) :
    expect ps (inp ++ s) = some (r ++ s) := by
  induction ps generalizing inp with
  | nil =>
    simp only [expect, Option.some.injEq] at h ⊢
    rw [h]
  | cons p ps ih =>
    cases inp with
    | nil => simp [expect] at h
    | cons c cs =>
      simp only [expect, List.cons_append] at h ⊢
      split at h
      · next hc => rw [if_pos hc, ih h]
      · simp at h

private theorem hex4_append {inp r : Bytes} {n : Nat} (h : hex4 inp = some (n, r)) (s : Bytes) :
    hex4 (inp ++ s) = some (n, r ++ s) := by
  match inp, h with
  | a :: b :: c :: d :: rest, h =>
    simp only [hex4, List.cons_append, Option.bind_eq_bind, Option.bind_eq_some_iff,
      Option.pure_def, Option.some.injEq, Prod.mk.injEq] at h ⊢
    obtain ⟨x, hx, y, hy, z, hz, w, hw, he, rfl⟩ := h
    exact ⟨x, hx, y, hy, z, hz, w, hw, he, rfl⟩

private theorem parseUnicode_append {inp r bs : Bytes} (h : parseUnicode inp = some (bs, r))
    (s : Bytes) : parseUnicode (inp ++ s) = some (bs, r ++ s) := by
  simp only [parseUnicode, Option.bind_eq_bind, Option.bind_eq_some_iff, Prod.exists] at h ⊢
  obtain ⟨n, rest, hn, h⟩ := h
  refine ⟨n, rest ++ s, hex4_append hn s, ?_⟩
  split at h
  · simp at h
  next h1 =>
  rw [if_neg h1]
  split at h
  · next h2 =>
    rw [if_pos h2]
    simp only [Option.bind_eq_some_iff, Prod.exists] at h ⊢
    obtain ⟨rest', he, m, rest'', hm, h⟩ := h
    refine ⟨rest' ++ s, expect_append he s, m, rest'' ++ s, hex4_append hm s, ?_⟩
    split at h
    · next h3 =>
      simp only [Option.some.injEq, Prod.mk.injEq] at h
      rw [if_pos h3, h.1, h.2]
    · simp at h
  · next h2 =>
    simp only [Option.some.injEq, Prod.mk.injEq] at h
    rw [if_neg h2, h.1, h.2]

theorem parseEscape_append {inp r bs : Bytes} (h : parseEscape inp = some (bs, r))
    (s : Bytes) : parseEscape (inp ++ s) = some (bs, r ++ s) := by
  cases inp with
  | nil => simp [parseEscape] at h
  | cons c rest =>
    -- every branch but `\u` takes one byte and leaves the rest alone
    have one {a : Bytes} (h : some (a, rest) = some (bs, r)) :
        some (a, rest ++ s) = some (bs, r ++ s) := by
      simp only [Option.some.injEq, Prod.mk.injEq] at h
      rw [h.1, h.2]
    simp only [parseEscape, List.cons_append] at h ⊢
    iterate 6
      split at h
      · next hc =>
        rw [if_pos hc]
        exact one h
      rename_i hc
      rw [if_neg hc]
    split at h
    · next hc =>
      rw [if_pos hc]
      exact parseUnicode_append h s
    · simp at h

theorem parseString_append {fuel fuel' : Nat} {inp r str : Bytes}
    (h : parseString fuel inp = some (str, r)) (hf : fuel ≤ fuel') (s : Bytes) :
    parseString fuel' (inp ++ s) = some (str, r ++ s) := by
  induction fuel generalizing fuel' inp r str with
  | zero => simp [parseString] at h
  | succ fuel ih =>
    obtain ⟨f, rfl⟩ : ∃ f, fuel' = f + 1 := ⟨fuel' - 1, by omega⟩
    cases inp with
    | nil => simp [parseString] at h
    | cons c rest =>
      simp only [parseString, List.cons_append] at h ⊢
      split at h
      · next hc =>
        simp only [Option.some.injEq, Prod.mk.injEq] at h
        rw [if_pos hc, h.1, h.2]
      next hc =>
      rw [if_neg hc]
      split at h
      · next hb =>
        rw [if_pos hb]
        simp only [Option.bind_eq_bind, Option.bind_eq_some_iff, Prod.exists, Option.pure_def,
          Option.some.injEq, Prod.mk.injEq] at h ⊢
        obtain ⟨bs, r1, he, t, r2, ht, rfl, rfl⟩ := h
        exact ⟨bs, r1 ++ s, parseEscape_append he s, t, r2 ++ s, ih ht (by omega), rfl, rfl⟩
      next hb =>
      rw [if_neg hb]
      split at h
      · simp at h
      next hlt =>
      rw [if_neg hlt]
      simp only [Option.bind_eq_bind, Option.bind_eq_some_iff, Prod.exists, Option.pure_def,
        Option.some.injEq, Prod.mk.injEq] at h ⊢
      obtain ⟨t, r2, ht, rfl, rfl⟩ := h
      exact ⟨t, r2 ++ s, ih ht (by omega), rfl, rfl⟩

/-! Numbers: the reader stops at the first byte that cannot continue one. -/

private theorem digits_append {inp : Bytes} (h : inp.dropWhile isDigit ≠ []) (s : Bytes) :
    (inp ++ s).takeWhile isDigit = inp.takeWhile isDigit ∧
      (inp ++ s).dropWhile isDigit = inp.dropWhile isDigit ++ s := by
  induction inp with
  | nil => exact absurd rfl h
  | cons c cs ih =>
    by_cases hc : isDigit c = true
    · rw [List.dropWhile_cons_of_pos hc] at h
      obtain ⟨h1, h2⟩ := ih h
      simp only [List.cons_append, List.takeWhile_cons, List.dropWhile_cons, hc, if_true, h1, h2,
        and_self]
    · simp [hc]

private theorem parseInt_append {inp r ds : Bytes} (h : parseInt inp = some (ds, r)) (hr : r ≠ [])
    (s : Bytes) : parseInt (inp ++ s) = some (ds, r ++ s) := by
  cases inp with
  | nil => simp [parseInt] at h
  | cons c rest =>
    simp only [parseInt, List.cons_append] at h ⊢
    split at h
    · next hc =>
      rw [if_pos hc]
      split at h
      · simp at h
      · next hd =>
        simp only [Option.some.injEq, Prod.mk.injEq] at h
        obtain ⟨rfl, rfl⟩ := h
        have hh : (rest ++ s).head? = rest.head? := by
          rw [List.head?_append_of_ne_nil rest hr]
        rw [hh, if_neg hd]
    next hc =>
    rw [if_neg hc]
    split at h
    · next hd =>
      simp only [Option.some.injEq, Prod.mk.injEq] at h
      obtain ⟨rfl, rfl⟩ := h
      obtain ⟨h1, h2⟩ := digits_append hr s
      rw [if_pos hd, h1, h2]
    · simp at h

private theorem parseDigits_append {inp r ds : Bytes} (h : parseDigits inp = some (ds, r))
    (hr : r ≠ []) (s : Bytes) : parseDigits (inp ++ s) = some (ds, r ++ s) := by
  unfold parseDigits at h ⊢
  split at h
  · next hd =>
    simp only [Option.some.injEq, Prod.mk.injEq] at h
    obtain ⟨rfl, rfl⟩ := h
    have hne : inp ≠ [] := by
      rintro rfl
      exact hr rfl
    obtain ⟨h1, h2⟩ := digits_append hr s
    rw [List.head?_append_of_ne_nil inp hne, if_pos hd, h1, h2]
  · simp at h

private theorem parseFrac_append {inp r ds : Bytes} (h : parseFrac inp = some (ds, r))
    (hr : r ≠ []) (s : Bytes) : parseFrac (inp ++ s) = some (ds, r ++ s) := by
  cases inp with
  | nil =>
    simp only [parseFrac, Option.some.injEq, Prod.mk.injEq] at h
    exact absurd h.2.symm hr
  | cons c rest =>
    simp only [parseFrac, List.cons_append] at h ⊢
    split at h
    · next hc =>
      rw [if_pos hc]
      simp only [Option.map_eq_some_iff, Prod.mk.injEq, Prod.exists] at h ⊢
      obtain ⟨ds, r', hd, he, rfl⟩ := h
      exact ⟨ds, r' ++ s, parseDigits_append hd hr s, he, rfl⟩
    · next hc =>
      simp only [Option.some.injEq, Prod.mk.injEq] at h
      rw [if_neg hc, ← h.1, ← h.2, List.cons_append]

private theorem parseSign_append {inp : Bytes} (h : (parseSign inp).2 ≠ []) (s : Bytes) :
    parseSign (inp ++ s) = ((parseSign inp).1, (parseSign inp).2 ++ s) := by
  cases inp with
  | nil => exact absurd rfl h
  | cons c rest =>
    simp only [parseSign, List.cons_append]
    split <;> rfl

private theorem parseExp_append {inp r ds : Bytes} (h : parseExp inp = some (ds, r))
    (hr : r ≠ []) (s : Bytes) : parseExp (inp ++ s) = some (ds, r ++ s) := by
  cases inp with
  | nil =>
    simp only [parseExp, Option.some.injEq, Prod.mk.injEq] at h
    exact absurd h.2.symm hr
  | cons c rest =>
    simp only [parseExp, List.cons_append] at h ⊢
    split at h
    · next hc =>
      rw [if_pos hc]
      simp only [Option.map_eq_some_iff, Prod.mk.injEq, Prod.exists] at h
      obtain ⟨es, r', hd, he, rfl⟩ := h
      have hne : (parseSign rest).2 ≠ [] := by
        intro h0
        rw [h0] at hd
        simp [parseDigits] at hd
      rw [parseSign_append hne, parseDigits_append hd hr s]
      simp [← he]
    · next hc =>
      simp only [Option.some.injEq, Prod.mk.injEq] at h
      rw [if_neg hc, ← h.1, ← h.2, List.cons_append]

private theorem parseUnsigned_append {neg : Bool} {inp r : Bytes} {n : Num}
    (h : parseUnsigned inRange neg inp = some (n, r)) (hr : r ≠ []) (s : Bytes) :
    parseUnsigned inRange neg (inp ++ s) = some (n, r ++ s) := by
  simp only [parseUnsigned, Option.bind_eq_bind, Option.bind_eq_some_iff, Prod.exists] at h ⊢
  simp only [Option.map_eq_some_iff, Prod.mk.injEq] at h ⊢
  obtain ⟨ds, r1, h1, frac, r2, h2, exp, r3, h3, n, hn, rfl, rfl⟩ := h
  have hr2 : r2 ≠ [] := by
    rintro rfl
    simp only [parseExp, Option.some.injEq, Prod.mk.injEq] at h3
    exact hr h3.2.symm
  have hr1 : r1 ≠ [] := by
    rintro rfl
    simp only [parseFrac, Option.some.injEq, Prod.mk.injEq] at h2
    exact hr2 h2.2.symm
  exact ⟨ds, r1 ++ s, parseInt_append h1 hr1 s, frac, r2 ++ s, parseFrac_append h2 hr2 s,
    exp, r3 ++ s, parseExp_append h3 hr s, n, hn, rfl, rfl⟩

private theorem parseNumber_append {inp r : Bytes} {n : Num}
    (h : parseNumber inRange inp = some (n, r)) (hr : r ≠ []) (s : Bytes) :
    parseNumber inRange (inp ++ s) = some (n, r ++ s) := by
  cases inp with
  | nil => simp [parseNumber] at h
  | cons c rest =>
    simp only [parseNumber, List.cons_append] at h ⊢
    split at h
    · next hc =>
      rw [if_pos hc]
      exact parseUnsigned_append h hr s
    · next hc =>
      rw [if_neg hc, ← List.cons_append]
      exact parseUnsigned_append h hr s

private theorem skipWs_nil_append {inp : Bytes} {c : UInt8} {r : Bytes}
    (h : skipWs inp = c :: r) : inp ≠ [] := by
  rintro rfl
  simp [skipWs] at h

mutual
/-- More input and more fuel change nothing, except that a number may go on. -/
theorem parseValue_append : ∀ {f f' d : Nat} {inp r : Bytes} {v : Json},
    parseValue inRange f d inp = some (v, r) → (r ≠ [] ∨ ∀ n, v ≠ .num n) → f ≤ f' →
      ∀ s, parseValue inRange f' d (inp ++ s) = some (v, r ++ s)
  | 0, _, _, _, _, _, h, _, _, _ => by simp [parseValue] at h
  | f + 1, f', d, inp, r, v, h, hv, hf, s => by
    obtain ⟨g, rfl⟩ : ∃ g, f' = g + 1 := ⟨f' - 1, by omega⟩
    have hg : f ≤ g := by omega
    rw [parseValue] at h ⊢
    cases hw : skipWs inp with
    | nil => simp [hw] at h
    | cons c rest =>
      rw [skipWs_append hw]
      simp only [hw] at h ⊢
      iterate 3
        split at h
        · next hc =>
          rw [if_pos hc]
          simp only [Option.map_eq_some_iff, Prod.mk.injEq] at h ⊢
          obtain ⟨r', he, hv', rfl⟩ := h
          exact ⟨r' ++ s, expect_append he s, hv', rfl⟩
        rename_i hc
        rw [if_neg hc]
      split at h
      · next hc =>
        rw [if_pos hc]
        simp only [Option.map_eq_some_iff, Prod.mk.injEq, Prod.exists] at h ⊢
        obtain ⟨str, r', hs, hv', rfl⟩ := h
        exact ⟨str, r' ++ s, parseString_append hs (by simp) s, hv', rfl⟩
      next hc =>
      rw [if_neg hc]
      split at h
      · next hc =>
        rw [if_pos hc]
        cases d with
        | zero => simp at h
        | succ d =>
          cases hm : skipWs rest with
          | nil => simp [hm] at h
          | cons e more =>
            rw [skipWs_append hm]
            simp only [hm] at h ⊢
            split at h
            · next he =>
              simp only [Option.some.injEq, Prod.mk.injEq] at h
              rw [if_pos he, h.1, h.2]
            · next he =>
              simp only [Option.map_eq_some_iff, Prod.mk.injEq, Prod.exists] at h
              obtain ⟨vs, r', hi, rfl, rfl⟩ := h
              have := parseItems_append hi hg s
              rw [List.cons_append] at this
              rw [if_neg he, this, Option.map_some]
      next hc =>
      rw [if_neg hc]
      split at h
      · next hc =>
        rw [if_pos hc]
        cases d with
        | zero => simp at h
        | succ d =>
          cases hm : skipWs rest with
          | nil => simp [hm] at h
          | cons e more =>
            rw [skipWs_append hm]
            simp only [hm] at h ⊢
            split at h
            · next he =>
              simp only [Option.some.injEq, Prod.mk.injEq] at h
              rw [if_pos he, h.1, h.2]
            · next he =>
              simp only [Option.map_eq_some_iff, Prod.mk.injEq, Prod.exists] at h
              obtain ⟨ms, r', hi, rfl, rfl⟩ := h
              have := parseMembers_append hi hg s
              rw [List.cons_append] at this
              rw [if_neg he, this, Option.map_some]
      next hc =>
      rw [if_neg hc]
      simp only [Option.map_eq_some_iff, Prod.mk.injEq, Prod.exists] at h
      obtain ⟨n, r', hn, rfl, rfl⟩ := h
      have hr : r' ≠ [] := hv.resolve_right fun h => h n rfl
      have := parseNumber_append hn hr s
      rw [List.cons_append] at this
      rw [this, Option.map_some]
theorem parseItems_append : ∀ {f f' d : Nat} {inp r : Bytes} {vs : List Json},
    parseItems inRange f d inp = some (vs, r) → f ≤ f' →
      ∀ s, parseItems inRange f' d (inp ++ s) = some (vs, r ++ s)
  | 0, _, _, _, _, _, h, _, _ => by simp [parseItems] at h
  | f + 1, f', d, inp, r, vs, h, hf, s => by
    obtain ⟨g, rfl⟩ : ∃ g, f' = g + 1 := ⟨f' - 1, by omega⟩
    have hg : f ≤ g := by omega
    rw [parseItems] at h ⊢
    simp only [Option.bind_eq_bind, Option.bind_eq_some_iff, Prod.exists] at h ⊢
    obtain ⟨v, rest, hp, h⟩ := h
    cases hw : skipWs rest with
    | nil => simp [hw] at h
    | cons c more =>
      refine ⟨v, rest ++ s, parseValue_append hp (.inl (skipWs_nil_append hw)) hg s, ?_⟩
      rw [skipWs_append hw]
      simp only [hw] at h ⊢
      split at h
      · next hc =>
        simp only [Option.some.injEq, Prod.mk.injEq] at h
        rw [if_pos hc, h.1, h.2]
      next hc =>
      rw [if_neg hc]
      split at h
      · next hk =>
        simp only [Option.map_eq_some_iff, Prod.mk.injEq, Prod.exists] at h
        obtain ⟨ws, r', hi, rfl, rfl⟩ := h
        rw [if_pos hk, parseItems_append hi hg s, Option.map_some]
      · simp at h
theorem parseMembers_append : ∀ {f f' d : Nat} {inp r : Bytes} {ms : List (Bytes × Json)},
    parseMembers inRange f d inp = some (ms, r) → f ≤ f' →
      ∀ s, parseMembers inRange f' d (inp ++ s) = some (ms, r ++ s)
  | 0, _, _, _, _, _, h, _, _ => by simp [parseMembers] at h
  | f + 1, f', d, inp, r, ms, h, hf, s => by
    obtain ⟨g, rfl⟩ : ∃ g, f' = g + 1 := ⟨f' - 1, by omega⟩
    have hg : f ≤ g := by omega
    rw [parseMembers] at h ⊢
    simp only [Option.bind_eq_bind, Option.bind_eq_some_iff, Prod.exists] at h ⊢
    obtain ⟨inp', hq, k, rest, hk, rest', hcol, v, rest'', hp, h⟩ := h
    have hq' : expect [quoteMark] (skipWs (inp ++ s)) = some (inp' ++ s) := by
      cases hi : skipWs inp with
      | nil => simp [hi, expect] at hq
      | cons c cs =>
        rw [skipWs_append hi, ← List.cons_append, ← hi]
        exact expect_append hq s
    have hcol' : expect [colon] (skipWs (rest ++ s)) = some (rest' ++ s) := by
      cases hi : skipWs rest with
      | nil => simp [hi, expect] at hcol
      | cons c cs =>
        rw [skipWs_append hi, ← List.cons_append, ← hi]
        exact expect_append hcol s
    cases hw : skipWs rest'' with
    | nil => simp [hw] at h
    | cons c more =>
      refine ⟨inp' ++ s, hq', k, rest ++ s, parseString_append hk (by simp) s, rest' ++ s, hcol',
        v, rest'' ++ s, parseValue_append hp (.inl (skipWs_nil_append hw)) hg s, ?_⟩
      rw [skipWs_append hw]
      simp only [hw] at h ⊢
      split at h
      · next hc =>
        simp only [Option.some.injEq, Prod.mk.injEq] at h
        rw [if_pos hc, h.1, h.2]
      next hc =>
      rw [if_neg hc]
      split at h
      · next hk =>
        simp only [Option.map_eq_some_iff, Prod.mk.injEq, Prod.exists] at h
        obtain ⟨ns, r', hi, rfl, rfl⟩ := h
        rw [if_pos hk, parseMembers_append hi hg s, Option.map_some]
      · simp at h
end

mutual
/-- A value that was read nests no deeper than was allowed. -/
theorem parseValue_depth : ∀ {f d : Nat} {inp r : Bytes} {v : Json},
    parseValue inRange f d inp = some (v, r) → v.depth ≤ d
  | 0, _, _, _, _, h => by simp [parseValue] at h
  | f + 1, d, inp, r, v, h => by
    rw [parseValue] at h
    cases hw : skipWs inp with
    | nil => simp [hw] at h
    | cons c rest =>
      simp only [hw] at h
      iterate 4
        split at h
        · simp only [Option.map_eq_some_iff, Prod.mk.injEq] at h
          obtain ⟨_, _, rfl, _⟩ := h
          simp [depth]
      split at h
      · cases d with
        | zero => simp at h
        | succ d =>
          cases hm : skipWs rest with
          | nil => simp [hm] at h
          | cons e more =>
            simp only [hm] at h
            split at h
            · simp only [Option.some.injEq, Prod.mk.injEq] at h
              simp [← h.1, depth, depthItems]
            · simp only [Option.map_eq_some_iff, Prod.mk.injEq] at h
              obtain ⟨p, hp, rfl, _⟩ := h
              exact Nat.succ_le_succ (parseItems_depth hp)
      split at h
      · cases d with
        | zero => simp at h
        | succ d =>
          cases hm : skipWs rest with
          | nil => simp [hm] at h
          | cons e more =>
            simp only [hm] at h
            split at h
            · simp only [Option.some.injEq, Prod.mk.injEq] at h
              simp [← h.1, depth, depthMembers]
            · simp only [Option.map_eq_some_iff, Prod.mk.injEq] at h
              obtain ⟨p, hp, rfl, _⟩ := h
              exact Nat.succ_le_succ (parseMembers_depth hp)
      simp only [Option.map_eq_some_iff, Prod.mk.injEq] at h
      obtain ⟨_, _, rfl, _⟩ := h
      simp [depth]
theorem parseItems_depth : ∀ {f d : Nat} {inp r : Bytes} {vs : List Json},
    parseItems inRange f d inp = some (vs, r) → depthItems vs ≤ d
  | 0, _, _, _, _, h => by simp [parseItems] at h
  | f + 1, d, inp, r, vs, h => by
    rw [parseItems] at h
    simp only [Option.bind_eq_bind, Option.bind_eq_some_iff, Prod.exists] at h
    obtain ⟨v, rest, hp, h⟩ := h
    have hv := parseValue_depth hp
    split at h
    · simp at h
    split at h
    · simp only [Option.some.injEq, Prod.mk.injEq] at h
      simpa [← h.1, depthItems] using hv
    split at h
    · simp only [Option.map_eq_some_iff, Prod.mk.injEq] at h
      obtain ⟨p, hi, rfl, _⟩ := h
      exact max_le hv (parseItems_depth hi)
    · simp at h
theorem parseMembers_depth : ∀ {f d : Nat} {inp r : Bytes} {ms : List (Bytes × Json)},
    parseMembers inRange f d inp = some (ms, r) → depthMembers ms ≤ d
  | 0, _, _, _, _, h => by simp [parseMembers] at h
  | f + 1, d, inp, r, ms, h => by
    rw [parseMembers] at h
    simp only [Option.bind_eq_bind, Option.bind_eq_some_iff, Prod.exists] at h
    obtain ⟨_, _, k, _, _, _, _, v, rest, hp, h⟩ := h
    have hv := parseValue_depth hp
    split at h
    · simp at h
    split at h
    · simp only [Option.some.injEq, Prod.mk.injEq] at h
      simpa [← h.1, depthMembers] using hv
    split at h
    · simp only [Option.map_eq_some_iff, Prod.mk.injEq] at h
      obtain ⟨p, hi, rfl, _⟩ := h
      exact max_le hv (parseMembers_depth hi)
    · simp at h
end

theorem parse_depth {inp : Bytes} {v : Json} (h : parse inRange inp = some v) :
    v.depth ≤ maxDepth := by
  simp only [parse, Option.bind_eq_bind, Option.bind_eq_some_iff, Prod.exists] at h
  obtain ⟨w, r, hp, h⟩ := h
  split at h
  · exact Option.some.inj h ▸ parseValue_depth hp
  · simp at h

private theorem parseValue_brace {f d : Nat} {rest r : Bytes} {v : Json}
    (h : parseValue inRange f d (openBrace :: rest) = some (v, r)) : ∃ ms, v = .obj ms := by
  cases f with
  | zero => simp [parseValue] at h
  | succ f =>
    rw [parseValue] at h
    have hw : skipWs (openBrace :: rest) = openBrace :: rest := rfl
    simp only [hw, show (openBrace = 110) = False by decide +kernel,
      show (openBrace = 116) = False by decide +kernel,
      show (openBrace = 102) = False by decide +kernel,
      show (openBrace = quoteMark) = False by decide +kernel,
      show (openBrace = openBracket) = False by decide +kernel, if_false, if_true] at h
    split at h
    · simp at h
    · simp at h
    · split at h
      · simp only [Option.some.injEq, Prod.mk.injEq] at h
        exact ⟨[], h.1.symm⟩
      · simp only [Option.map_eq_some_iff, Prod.mk.injEq] at h
        obtain ⟨p, _, rfl, _⟩ := h
        exact ⟨p.1, rfl⟩

private theorem skipWs_ne_nil {inp : Bytes} {c : UInt8} (hc : isSpace c = false) (h : c ∈ inp) :
    skipWs inp ≠ [] := by
  intro h0
  have := List.dropWhile_eq_nil_iff.mp h0 c h
  simp [hc] at this

/-- A proper prefix of an object's text is no document. -/
theorem parse_prefix {rest s : Bytes} {c : UInt8} {v : Json} (hs : isSpace c = false) (hm : c ∈ s)
    (h : parse inRange (openBrace :: rest ++ s) = some v) :
    parse inRange (openBrace :: rest) = none := by
  rw [Option.eq_none_iff_forall_ne_some]
  intro w hw
  simp only [parse, Option.bind_eq_bind, Option.bind_eq_some_iff, Prod.exists] at h hw
  obtain ⟨v, r, hv, h⟩ := h
  obtain ⟨w, r', hp, _⟩ := hw
  obtain ⟨ms, rfl⟩ := parseValue_brace hp
  have hf : (openBrace :: rest).length + 1 ≤ (openBrace :: rest ++ s).length + 1 := by simp
  have hx := parseValue_append hp (.inr (by simp)) hf s
  rw [hx, Option.some.injEq, Prod.mk.injEq] at hv
  have hne : skipWs r ≠ [] := hv.2 ▸ skipWs_ne_nil hs (by simp [hm])
  rw [if_neg hne] at h
  simp at h

end PulseNull.Json
