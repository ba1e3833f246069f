import PulseNull.Json.Print

/-! The text of a value whose strings are UTF-8 is UTF-8. -/
namespace PulseNull.Json
open Text (utf8Valid utf8Valid_append utf8Valid_cons_ascii utf8Valid_ascii isCont ascii)

mutual
/-- All strings and keys are UTF-8. -/
def Utf8 : Json → Prop
  | .null | .bool _ | .num _ => True
  | .str s => utf8Valid s = true
  | .arr items => Utf8Items items
  | .obj members => Utf8Members members
def Utf8Items : List Json → Prop
  | [] => True
  | v :: vs => Utf8 v ∧ Utf8Items vs
def Utf8Members : List (Bytes × Json) → Prop
  | [] => True
  | (k, v) :: ms => utf8Valid k = true ∧ Utf8 v ∧ Utf8Members ms
end

private theorem escape_high {c : UInt8} (h : 128 ≤ c) : escape c = [c] := by
  have hne : ∀ k : UInt8, k < 128 → ¬ c = k := fun k hk hc => UInt8.not_le.mpr hk (hc ▸ h)
  have hlt : ¬ c < 32 := fun hc => UInt8.not_le.mpr (UInt8.lt_trans hc (by decide)) h
  unfold escape
  rw [if_neg (hne _ (by decide)), if_neg (hne _ (by decide)), if_neg (hne _ (by decide)), if_neg (hne _ (by decide)),
    if_neg (hne _ (by decide)), if_neg (hne _ (by decide)), if_neg (hne _ (by decide)), if_neg hlt]

private theorem escape_low {c : UInt8} (h : c < 128) : ∀ x ∈ escape c, x < 128 := by
  have pair : ∀ k : UInt8, k < 128 → ∀ x ∈ [backslash, k], x < 128 := fun k hk =>
    List.forall_mem_cons.mpr ⟨by decide, List.forall_mem_singleton.mpr hk⟩
  unfold escape
  split_ifs
  iterate 7 exact pair _ (by decide)
  · have hex : ∀ x ∈ Text.hex [c], x < 128 := fun x hx => Text.isLowerHex_lt (Text.hex_lower _ x hx)
    intro x hx
    simp only [List.mem_cons] at hx
    rcases hx with rfl | rfl | rfl | rfl | hx
    iterate 4 decide
    exact hex x hx
  · exact List.forall_mem_singleton.mpr h

private theorem isCont_high {c : UInt8} (h : isCont c = true) : 128 ≤ c := by
  simp only [isCont, Bool.and_eq_true, decide_eq_true_eq] at h
  exact h.1

/-- A character of several bytes at the front of a text. -/
structure Character (p rest : Bytes) : Prop where
  valid : utf8Valid p = true
  high : ∀ c ∈ p, 128 ≤ c
  rest : utf8Valid rest = true

private theorem character {a : UInt8} {more : Bytes} (ha : ¬ a < 128) (h : utf8Valid (a :: more) = true) :
    ∃ p rest, more = p ++ rest ∧ Character (a :: p) rest := by
  have hhigh : 128 ≤ a := UInt8.not_lt.mp ha
  rw [Text.utf8Valid.eq_def] at h
  simp only [ha, if_false] at h
  cases more with
  | nil => simp at h
  | cons b bs =>
  dsimp only at h
  split at h
  · next h194 =>
    rw [Bool.and_eq_true] at h
    refine ⟨[b], bs, rfl, ?_, by simp [hhigh, isCont_high h.1], h.2⟩
    simp [utf8Valid, ha, h194, h.1]
  next h194 =>
  cases bs with
  | nil => simp at h
  | cons c cs =>
  dsimp only at h
  have three (hb : 128 ≤ b) (hc : isCont c = true) : ∀ x ∈ [a, b, c], 128 ≤ x := by
    simp [hhigh, hb, isCont_high hc]
  split at h
  · next h224 =>
    simp only [Bool.and_eq_true, decide_eq_true_eq] at h
    refine ⟨[b, c], cs, rfl, ?_, three (UInt8.le_trans (by decide) h.1.1.1) h.1.2, h.2⟩
    subst h224
    simp [utf8Valid, h]
  split at h
  · next h237 =>
    simp only [Bool.and_eq_true, decide_eq_true_eq] at h
    refine ⟨[b, c], cs, rfl, ?_, three h.1.1.1 h.1.2, h.2⟩
    subst h237
    simp [utf8Valid, h]
  split at h
  · next h224 h237 h225 =>
    simp only [Bool.and_eq_true] at h
    refine ⟨[b, c], cs, rfl, ?_, three (isCont_high h.1.1) h.1.2, h.2⟩
    simp [utf8Valid, ha, h194, h224, h237, h225, h]
  next h224 h237 h225 =>
  cases cs with
  | nil => simp at h
  | cons d ds =>
  dsimp only at h
  have four (hb : 128 ≤ b) (hc : isCont c = true) (hd : isCont d = true) : ∀ x ∈ [a, b, c, d], 128 ≤ x := by
    simp [hhigh, hb, isCont_high hc, isCont_high hd]
  split at h
  · next h240 =>
    simp only [Bool.and_eq_true, decide_eq_true_eq] at h
    refine ⟨[b, c, d], ds, rfl, ?_, four (UInt8.le_trans (by decide) h.1.1.1.1) h.1.1.2 h.1.2, h.2⟩
    subst h240
    simp [utf8Valid, h]
  split at h
  · next h244 =>
    simp only [Bool.and_eq_true, decide_eq_true_eq] at h
    refine ⟨[b, c, d], ds, rfl, ?_, four h.1.1.1.1 h.1.1.2 h.1.2, h.2⟩
    subst h244
    simp [utf8Valid, h]
  split at h
  · next h240 h244 h241 =>
    simp only [Bool.and_eq_true] at h
    refine ⟨[b, c, d], ds, rfl, ?_, four (isCont_high h.1.1.1) h.1.1.2 h.1.2, h.2⟩
    simp [utf8Valid, ha, h194, h224, h237, h225, h240, h244, h241, h]
  · simp at h

private theorem escape_utf8 {s : Bytes} (h : utf8Valid s = true) : utf8Valid (s.flatMap escape) = true := by
  induction hlen : s.length using Nat.strong_induction_on generalizing s with
  | _ n ih =>
    cases s with
    | nil => rfl
    | cons a more =>
      by_cases ha : a < 128
      · rw [utf8Valid_cons_ascii ha] at h
        rw [List.flatMap_cons]
        exact utf8Valid_append (utf8Valid_ascii (escape_low ha)) (ih _ (by simp [← hlen]) h rfl)
      · obtain ⟨p, rest, rfl, hchar⟩ := character ha h
        have hsame : (a :: p).flatMap escape = a :: p := by
          rw [List.flatMap_congr fun c hc => escape_high (hchar.high c hc), List.flatMap_singleton']
        rw [← List.cons_append, List.flatMap_append, hsame]
        refine utf8Valid_append hchar.valid (ih rest.length ?_ hchar.rest rfl)
        rw [← hlen, List.length_cons, List.length_append]
        omega

private theorem quote_utf8 {s : Bytes} (h : utf8Valid s = true) : utf8Valid (quote s) = true := by
  rw [quote, utf8Valid_cons_ascii (by decide)]
  exact utf8Valid_append (escape_utf8 h) rfl

private theorem join_utf8 {ts : List Bytes} (h : ∀ t ∈ ts, utf8Valid t = true) : utf8Valid (join ts) = true := by
  induction ts with
  | nil => rfl
  | cons t ts ih =>
    have ht := h t List.mem_cons_self
    cases ts with
    | nil => exact ht
    | cons u us =>
      change utf8Valid (t ++ comma :: join (u :: us)) = true
      refine utf8Valid_append ht ?_
      rw [utf8Valid_cons_ascii (by decide)]
      exact ih fun t' h' => h t' (List.mem_cons_of_mem _ h')

private theorem brace_utf8 {ms : List (Bytes × Bytes)}
    (h : ∀ m ∈ ms, utf8Valid m.1 = true ∧ utf8Valid m.2 = true) : utf8Valid (brace ms) = true := by
  rw [brace, utf8Valid_cons_ascii (by decide)]
  refine utf8Valid_append (join_utf8 fun t ht => ?_) rfl
  obtain ⟨m, hm, rfl⟩ := List.mem_map.mp ht
  refine utf8Valid_append (quote_utf8 (h m hm).1) ?_
  rw [utf8Valid_cons_ascii (by decide)]
  exact (h m hm).2

private theorem decimal_utf8 (n : ℕ) : utf8Valid (Text.decimal n) = true :=
  utf8Valid_ascii fun c hc => Text.isDigit_lt (Text.decimal_digits n c hc)

mutual
theorem print_utf8 : ∀ {v : Json} {t : Bytes}, v.Utf8 → print v = some t → utf8Valid t = true
  | .null, _, _, h | .bool true, _, _, h | .bool false, _, _, h => by
    simp only [print, Option.some.injEq] at h
    subst h
    decide +kernel
  | .num (.pos n), _, _, h => by
    simp only [print, printNum, Option.some.injEq] at h
    exact h ▸ decimal_utf8 _
  | .num (.neg n), _, _, h => by
    simp only [print, printNum, Option.some.injEq] at h
    subst h
    rw [utf8Valid_cons_ascii (by decide)]
    exact decimal_utf8 _
  | .num .float, _, _, h => by simp [print, printNum] at h
  | .str s, _, hs, h => by
    simp only [print, Option.some.injEq] at h
    exact h ▸ quote_utf8 hs
  | .arr items, t, hs, h => by
    rw [print, Option.map_eq_some_iff] at h
    obtain ⟨ts, hts, rfl⟩ := h
    rw [bracket, utf8Valid_cons_ascii (by decide)]
    exact utf8Valid_append (join_utf8 (printItems_utf8 hs hts)) rfl
  | .obj members, t, hs, h => by
    rw [print, Option.map_eq_some_iff] at h
    obtain ⟨ms, hms, rfl⟩ := h
    exact brace_utf8 (printMembers_utf8 hs hms)
theorem printItems_utf8 : ∀ {vs : List Json} {ts : List Bytes}, Utf8Items vs → printItems vs = some ts →
    ∀ t ∈ ts, utf8Valid t = true
  | [], _, _, h => by
    simp only [printItems, Option.some.injEq] at h
    simp [← h]
  | v :: vs, _, hs, h => by
    simp only [printItems, Option.bind_eq_bind, Option.bind_eq_some_iff, Option.pure_def,
      Option.some.injEq] at h
    obtain ⟨t, ht, ts, hts, rfl⟩ := h
    exact List.forall_mem_cons.mpr ⟨print_utf8 hs.1 ht, printItems_utf8 hs.2 hts⟩
theorem printMembers_utf8 : ∀ {ms : List (Bytes × Json)} {ps : List (Bytes × Bytes)}, Utf8Members ms →
    printMembers ms = some ps → ∀ p ∈ ps, utf8Valid p.1 = true ∧ utf8Valid p.2 = true
  | [], _, _, h => by
    simp only [printMembers, Option.some.injEq] at h
    simp [← h]
  | (k, v) :: ms, _, hs, h => by
    simp only [printMembers, Option.bind_eq_bind, Option.bind_eq_some_iff, Option.pure_def,
      Option.some.injEq] at h
    obtain ⟨t, ht, ps, hps, rfl⟩ := h
    exact List.forall_mem_cons.mpr ⟨⟨hs.1, print_utf8 hs.2.1 ht⟩, printMembers_utf8 hs.2.2 hps⟩
end

end PulseNull.Json
