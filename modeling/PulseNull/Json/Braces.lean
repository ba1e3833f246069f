import PulseNull.Json.Extend

/-! Counting braces: the text of an object ends where the braces outside its strings balance. -/
namespace PulseNull.Json
open Text (ascii isDigit)
variable {inRange : Bytes → Bool} {k : Nat}

/-- How many braces are open, and whether the text is inside a string and after a backslash. -/
structure Braces where
  depth : Nat
  inString : Bool
  escaped : Bool
  deriving DecidableEq

namespace Braces

def next (b : Braces) (c : UInt8) : Braces :=
  if b.inString then
    if b.escaped then { b with escaped := false }
    else if c = backslash then { b with escaped := true }
    else if c = quoteMark then { b with inString := false }
    else b
  else if c = quoteMark then { b with inString := true }
  else if c = openBrace then { b with depth := b.depth + 1 }
  else if c = closeBrace then { b with depth := b.depth - 1 }
  else b

def outside (k : Nat) : Braces := ⟨k, false, false⟩
def inside (k : Nat) : Braces := ⟨k, true, false⟩
def afterBackslash (k : Nat) : Braces := ⟨k, true, true⟩

end Braces
open Braces (outside inside afterBackslash)

/-- The text through the brace that closes the last open one, and what follows it. -/
def balanced (b : Braces) : Bytes → Option (Bytes × Bytes)
  | [] => none
  | c :: rest =>
    if !b.inString && c = closeBrace && (b.next c).depth = 0 then some ([c], rest)
    else (balanced (b.next c) rest).map fun p => (c :: p.1, p.2)

/-- Over this part the count goes from one state to the other, and does not end. -/
def Moves (b b' : Braces) (part : Bytes) : Prop :=
  ∀ tail, balanced b (part ++ tail) = (balanced b' tail).map fun p => (part ++ p.1, p.2)

theorem Moves.nil (b : Braces) : Moves b b [] := by
  intro tail
  cases h : balanced b tail <;> simp [h]

theorem Moves.trans {a b c : Braces} {x y : Bytes} (hx : Moves a b x) (hy : Moves b c y) :
    Moves a c (x ++ y) := by
  intro tail
  rw [List.append_assoc, hx, hy, Option.map_map]
  simp [Function.comp_def]

theorem Moves.one {b : Braces} {c : UInt8}
    (h : b.inString = true ∨ c ≠ closeBrace ∨ (b.next c).depth ≠ 0) : Moves b (b.next c) [c] := by
  intro tail
  have hgo : ¬(!b.inString && c = closeBrace && (b.next c).depth = 0) = true := by
    rcases h with h | h | h <;> simp [h]
  rw [List.singleton_append, balanced, if_neg hgo]
  rfl

/-- A byte that leaves the count alone outside strings. -/
def isPlain (c : UInt8) : Bool := c ≠ quoteMark && c ≠ openBrace && c ≠ closeBrace

theorem Moves.plain {part : Bytes} (h : ∀ c ∈ part, isPlain c = true) :
    Moves (outside k) (outside k) part := by
  induction part with
  | nil => exact .nil _
  | cons c part ih =>
    obtain ⟨hc, hpart⟩ := List.forall_mem_cons.mp h
    simp only [isPlain, ne_eq, decide_not, Bool.and_eq_true, Bool.not_eq_eq_eq_not, Bool.not_true,
      decide_eq_false_iff_not] at hc
    have hnext : (outside k).next c = outside k := by simp [Braces.next, outside, hc]
    have hone : Moves (outside k) ((outside k).next c) [c] := .one (.inr (.inl hc.2))
    rw [hnext] at hone
    exact hone.trans (ih hpart)

theorem Moves.plainByte {c : UInt8} (h : isPlain c = true) : Moves (outside k) (outside k) [c] :=
  .plain (List.forall_mem_singleton.mpr h)

/-- A byte of a string that neither ends it nor escapes the next. -/
theorem Moves.character {c : UInt8} (hq : c ≠ quoteMark) (hb : c ≠ backslash) :
    Moves (inside k) (inside k) [c] := by
  have hnext : (inside k).next c = inside k := by simp [Braces.next, inside, hq, hb]
  have hone : Moves (inside k) ((inside k).next c) [c] := .one (.inl rfl)
  rwa [hnext] at hone

theorem Moves.characters {part : Bytes} (h : ∀ c ∈ part, c ≠ quoteMark ∧ c ≠ backslash) :
    Moves (inside k) (inside k) part := by
  induction part with
  | nil => exact .nil _
  | cons c part ih =>
    obtain ⟨hc, hpart⟩ := List.forall_mem_cons.mp h
    exact (Moves.character hc.1 hc.2).trans (ih hpart)

theorem Moves.startString : Moves (outside k) (inside k) [quoteMark] := .one (.inr (.inl (by decide)))

theorem Moves.endString : Moves (inside k) (outside k) [quoteMark] := .one (.inl rfl)

theorem Moves.startEscape : Moves (inside k) (afterBackslash k) [backslash] := .one (.inl rfl)

theorem Moves.endEscape (c : UInt8) : Moves (afterBackslash k) (inside k) [c] := .one (.inl rfl)

theorem Moves.opened : Moves (outside k) (outside (k + 1)) [openBrace] :=
  .one (.inr (.inl (by decide)))

theorem Moves.closed : Moves (outside (k + 2)) (outside (k + 1)) [closeBrace] :=
  .one (.inr (.inr (Nat.succ_ne_zero k)))

/-- What was read of the text moves the count from one state to the other. -/
def Spans (b b' : Braces) (inp rest : Bytes) : Prop := ∃ part, inp = part ++ rest ∧ Moves b b' part

theorem Spans.refl (b : Braces) (inp : Bytes) : Spans b b inp inp := ⟨[], rfl, .nil b⟩

theorem Spans.trans {a b c : Braces} {x y z : Bytes} (hx : Spans a b x y) (hy : Spans b c y z) :
    Spans a c x z := by
  obtain ⟨p, rfl, hp⟩ := hx
  obtain ⟨q, rfl, hq⟩ := hy
  exact ⟨p ++ q, (List.append_assoc ..).symm, hp.trans hq⟩

theorem Spans.cons {a b d : Braces} {c : UInt8} {x y : Bytes} (hc : Moves a b [c])
    (h : Spans b d x y) : Spans a d (c :: x) y :=
  Spans.trans ⟨[c], rfl, hc⟩ h

/-! What the reader reads. -/

private theorem digit_plain {c : UInt8} (h : isDigit c = true) : isPlain c = true := by
  rw [Text.isDigit_iff] at h
  simp only [isPlain, ne_eq, decide_not, Bool.and_eq_true, Bool.not_eq_eq_eq_not, Bool.not_true,
    decide_eq_false_iff_not]
  refine ⟨⟨?_, ?_⟩, ?_⟩ <;> (rintro rfl; revert h; decide)

private theorem spans_digits (inp : Bytes) :
    Spans (outside k) (outside k) inp (inp.dropWhile isDigit) :=
  ⟨inp.takeWhile isDigit, List.takeWhile_append_dropWhile.symm,
    .plain fun _ hc => digit_plain (List.mem_takeWhile_imp hc)⟩

theorem spans_skipWs (inp : Bytes) : Spans (outside k) (outside k) inp (skipWs inp) := by
  refine ⟨inp.takeWhile isSpace, List.takeWhile_append_dropWhile.symm, .plain fun c hc => ?_⟩
  have hspace := List.mem_takeWhile_imp hc
  simp only [isSpace, Bool.or_eq_true, decide_eq_true_eq] at hspace
  rcases hspace with ((rfl | rfl) | rfl) | rfl <;> decide

private theorem expect_eq {ps inp rest : Bytes} (h : expect ps inp = some rest) : inp = ps ++ rest := by
  induction ps generalizing inp with
  | nil => simpa [expect] using h
  | cons p ps ih =>
    cases inp with
    | nil => simp [expect] at h
    | cons c cs =>
      rw [expect] at h
      split at h
      · next hc => rw [ih h, hc, List.cons_append]
      · exact nomatch h

theorem spans_expect {ps inp rest : Bytes} (hp : ps.all isPlain = true)
    (h : expect ps inp = some rest) : Spans (outside k) (outside k) inp rest :=
  ⟨ps, expect_eq h, .plain (List.all_eq_true.mp hp)⟩

private theorem spans_parseInt {inp ds rest : Bytes} (h : parseInt inp = some (ds, rest)) :
    Spans (outside k) (outside k) inp rest := by
  cases inp with
  | nil => simp [parseInt] at h
  | cons c cs =>
    rw [parseInt] at h
    split at h
    · next hc =>
      split at h
      · cases h
      obtain ⟨-, rfl⟩ := Prod.mk.inj (Option.some.inj h)
      exact .cons (.plainByte (hc ▸ by decide)) (.refl _ _)
    split at h
    · next hd =>
      obtain ⟨-, rfl⟩ := Prod.mk.inj (Option.some.inj h)
      exact .cons (.plainByte (digit_plain hd)) (spans_digits cs)
    · cases h

private theorem spans_parseDigits {inp ds rest : Bytes} (h : parseDigits inp = some (ds, rest)) :
    Spans (outside k) (outside k) inp rest := by
  unfold parseDigits at h
  split at h
  · obtain ⟨-, rfl⟩ := Prod.mk.inj (Option.some.inj h)
    exact spans_digits inp
  · exact nomatch h

private theorem spans_parseFrac {inp ds rest : Bytes} (h : parseFrac inp = some (ds, rest)) :
    Spans (outside k) (outside k) inp rest := by
  cases inp with
  | nil =>
    obtain ⟨-, rfl⟩ := Prod.mk.inj (Option.some.inj h)
    exact .refl _ _
  | cons c cs =>
    rw [parseFrac] at h
    split at h
    · next hc =>
      obtain ⟨⟨es, r⟩, hd, he⟩ := Option.map_eq_some_iff.mp h
      obtain ⟨-, rfl⟩ := Prod.mk.inj he
      exact .cons (.plainByte (hc ▸ by decide)) (spans_parseDigits hd)
    · obtain ⟨-, rfl⟩ := Prod.mk.inj (Option.some.inj h)
      exact .refl _ _

private theorem spans_parseSign (inp : Bytes) :
    Spans (outside k) (outside k) inp (parseSign inp).2 := by
  cases inp with
  | nil => exact .refl _ _
  | cons c cs =>
    rw [parseSign]
    split
    · next hc =>
      simp only [Bool.or_eq_true, decide_eq_true_eq] at hc
      refine .cons (.plainByte ?_) (.refl _ _)
      rcases hc with rfl | rfl <;> decide
    · exact .refl _ _

private theorem spans_parseExp {inp ds rest : Bytes} (h : parseExp inp = some (ds, rest)) :
    Spans (outside k) (outside k) inp rest := by
  cases inp with
  | nil =>
    obtain ⟨-, rfl⟩ := Prod.mk.inj (Option.some.inj h)
    exact .refl _ _
  | cons c cs =>
    rw [parseExp] at h
    split at h
    · next hc =>
      obtain ⟨⟨es, r⟩, hd, he⟩ := Option.map_eq_some_iff.mp h
      obtain ⟨-, rfl⟩ := Prod.mk.inj he
      simp only [Bool.or_eq_true, decide_eq_true_eq] at hc
      refine .cons (.plainByte ?_) ((spans_parseSign cs).trans (spans_parseDigits hd))
      rcases hc with rfl | rfl <;> decide
    · obtain ⟨-, rfl⟩ := Prod.mk.inj (Option.some.inj h)
      exact .refl _ _

private theorem spans_parseUnsigned {negative : Bool} {inp rest : Bytes} {n : Num}
    (h : parseUnsigned inRange negative inp = some (n, rest)) :
    Spans (outside k) (outside k) inp rest := by
  simp only [parseUnsigned, Option.bind_eq_bind, Option.bind_eq_some_iff, Prod.exists,
    Option.map_eq_some_iff, Prod.mk.injEq] at h
  obtain ⟨ds, r1, hi, fs, r2, hf, es, r3, he, _, _, _, rfl⟩ := h
  exact (spans_parseInt hi).trans ((spans_parseFrac hf).trans (spans_parseExp he))

theorem spans_parseNumber {inp rest : Bytes} {n : Num} (h : parseNumber inRange inp = some (n, rest)) :
    Spans (outside k) (outside k) inp rest := by
  cases inp with
  | nil => exact nomatch h
  | cons c cs =>
    rw [parseNumber] at h
    split at h
    · next hc => exact .cons (.plainByte (hc ▸ by decide)) (spans_parseUnsigned h)
    · exact spans_parseUnsigned h

private theorem hexValue_some {c : UInt8} {n : Nat} (h : hexValue c = some n) :
    c ≠ quoteMark ∧ c ≠ backslash := by
  have hquote : hexValue quoteMark = none := by decide
  have hback : hexValue backslash = none := by decide
  constructor
  · rintro rfl
    rw [hquote] at h
    exact nomatch h
  · rintro rfl
    rw [hback] at h
    exact nomatch h

private theorem spans_hex4 {inp rest : Bytes} {n : Nat} (h : hex4 inp = some (n, rest)) :
    Spans (inside k) (inside k) inp rest := by
  match inp, h with
  | a :: b :: c :: d :: _, h =>
    simp only [hex4, Option.bind_eq_bind, Option.bind_eq_some_iff, Option.pure_def,
      Option.some.injEq, Prod.mk.injEq] at h
    obtain ⟨_, ha, _, hb, _, hc, _, hd, _, rfl⟩ := h
    refine ⟨[a, b, c, d], rfl, .characters ?_⟩
    simp [hexValue_some ha, hexValue_some hb, hexValue_some hc, hexValue_some hd]

private theorem spans_parseUnicode {inp rest bs : Bytes} (h : parseUnicode inp = some (bs, rest)) :
    Spans (inside k) (inside k) inp rest := by
  simp only [parseUnicode, Option.bind_eq_bind, Option.bind_eq_some_iff, Prod.exists] at h
  obtain ⟨n, r1, hn, h⟩ := h
  refine (spans_hex4 hn).trans ?_
  split at h
  · cases h
  split at h
  · simp only [Option.bind_eq_some_iff, Prod.exists] at h
    obtain ⟨r2, he, m, r3, hm, h⟩ := h
    split at h
    · obtain ⟨-, rfl⟩ := Prod.mk.inj (Option.some.inj h)
      rw [expect_eq he]
      exact .cons .startEscape (.cons (.endEscape _) (spans_hex4 hm))
    · cases h
  · obtain ⟨-, rfl⟩ := Prod.mk.inj (Option.some.inj h)
    exact .refl _ _

private theorem spans_parseEscape {inp rest bs : Bytes} (h : parseEscape inp = some (bs, rest)) :
    Spans (afterBackslash k) (inside k) inp rest := by
  cases inp with
  | nil => cases h
  | cons c cs =>
    refine .cons (.endEscape c) ?_
    rw [parseEscape] at h
    iterate 6
      split at h
      · obtain ⟨-, rfl⟩ := Prod.mk.inj (Option.some.inj h)
        exact .refl _ _
    split at h
    · exact spans_parseUnicode h
    · cases h

theorem spans_parseString {fuel : Nat} {inp rest s : Bytes} (h : parseString fuel inp = some (s, rest)) :
    Spans (inside k) (outside k) inp rest := by
  induction fuel generalizing inp s with
  | zero => simp [parseString] at h
  | succ fuel ih =>
    cases inp with
    | nil => simp [parseString] at h
    | cons c cs =>
      rw [parseString] at h
      split at h
      · next hc =>
        obtain ⟨-, rfl⟩ := Prod.mk.inj (Option.some.inj h)
        subst hc
        exact .cons .endString (.refl _ _)
      next hq =>
      split at h
      · next hb =>
        simp only [Option.bind_eq_bind, Option.bind_eq_some_iff, Prod.exists, Option.pure_def,
          Option.some.injEq, Prod.mk.injEq] at h
        obtain ⟨_, r1, he, _, r2, ht, _, rfl⟩ := h
        subst hb
        exact .cons .startEscape ((spans_parseEscape he).trans (ih ht))
      next hb =>
      split at h
      · cases h
      simp only [Option.bind_eq_bind, Option.bind_eq_some_iff, Prod.exists, Option.pure_def,
        Option.some.injEq, Prod.mk.injEq] at h
      obtain ⟨_, r2, ht, _, rfl⟩ := h
      exact .cons (.character hq hb) (ih ht)

private theorem skipWs_eq {inp rest : Bytes} (h : skipWs inp = rest) :
    Spans (outside k) (outside k) inp rest := h ▸ spans_skipWs inp

mutual
/-- A value leaves the count where it was. -/
theorem spans_parseValue : ∀ {k f d : Nat} {inp rest : Bytes} {v : Json},
    parseValue inRange f d inp = some (v, rest) → Spans (outside (k + 1)) (outside (k + 1)) inp rest
  | _, 0, _, _, _, _, h => by simp [parseValue] at h
  | k, f + 1, d, inp, rest, v, h => by
    rw [parseValue] at h
    cases hw : skipWs inp with
    | nil => simp [hw] at h
    | cons c cs =>
      refine (skipWs_eq hw).trans ?_
      simp only [hw] at h
      iterate 3
        split at h
        · next hc =>
          obtain ⟨r, he, hr⟩ := Option.map_eq_some_iff.mp h
          obtain ⟨-, rfl⟩ := Prod.mk.inj hr
          exact .cons (.plainByte (hc ▸ by decide)) (spans_expect (by decide +kernel) he)
      split at h
      · next hc =>
        obtain ⟨p, hp, hr⟩ := Option.map_eq_some_iff.mp h
        obtain ⟨-, rfl⟩ := Prod.mk.inj hr
        exact hc ▸ .cons .startString (spans_parseString hp)
      split at h
      · next hc =>
        cases d with
        | zero => simp at h
        | succ d =>
          refine .cons (.plainByte (hc ▸ by decide)) ?_
          cases hm : skipWs cs with
          | nil => simp [hm] at h
          | cons e more =>
            refine (skipWs_eq hm).trans ?_
            simp only [hm] at h
            split at h
            · next he =>
              obtain ⟨-, rfl⟩ := Prod.mk.inj (Option.some.inj h)
              exact .cons (.plainByte (he ▸ by decide)) (.refl _ _)
            · obtain ⟨p, hp, hr⟩ := Option.map_eq_some_iff.mp h
              obtain ⟨-, rfl⟩ := Prod.mk.inj hr
              exact spans_parseItems hp
      split at h
      · next hc =>
        cases d with
        | zero => simp at h
        | succ d =>
          rw [hc]
          refine .cons .opened ?_
          cases hm : skipWs cs with
          | nil => simp [hm] at h
          | cons e more =>
            refine (skipWs_eq hm).trans ?_
            simp only [hm] at h
            split at h
            · next he =>
              obtain ⟨-, rfl⟩ := Prod.mk.inj (Option.some.inj h)
              exact he ▸ .cons .closed (.refl _ _)
            · obtain ⟨p, hp, hr⟩ := Option.map_eq_some_iff.mp h
              obtain ⟨-, rfl⟩ := Prod.mk.inj hr
              exact (spans_parseMembers (k := k + 1) hp).trans (.cons .closed (.refl _ _))
      obtain ⟨p, hp, hr⟩ := Option.map_eq_some_iff.mp h
      obtain ⟨-, rfl⟩ := Prod.mk.inj hr
      exact spans_parseNumber hp
/-- Items leave the count where it was. -/
theorem spans_parseItems : ∀ {k f d : Nat} {inp rest : Bytes} {vs : List Json},
    parseItems inRange f d inp = some (vs, rest) → Spans (outside (k + 1)) (outside (k + 1)) inp rest
  | _, 0, _, _, _, _, h => by simp [parseItems] at h
  | k, f + 1, d, inp, rest, vs, h => by
    rw [parseItems] at h
    simp only [Option.bind_eq_bind, Option.bind_eq_some_iff, Prod.exists] at h
    obtain ⟨v, r, hp, h⟩ := h
    refine (spans_parseValue hp).trans ?_
    cases hw : skipWs r with
    | nil => simp [hw] at h
    | cons c more =>
      refine (skipWs_eq hw).trans ?_
      simp only [hw] at h
      split at h
      · next hc =>
        obtain ⟨-, rfl⟩ := Prod.mk.inj (Option.some.inj h)
        exact .cons (.plainByte (hc ▸ by decide)) (.refl _ _)
      split at h
      · next hc =>
        obtain ⟨p, hi, hr⟩ := Option.map_eq_some_iff.mp h
        obtain ⟨-, rfl⟩ := Prod.mk.inj hr
        exact .cons (.plainByte (hc ▸ by decide)) (spans_parseItems hi)
      · exact nomatch h
/-- Members leave the count where it was, up to the brace that closes the object. -/
theorem spans_parseMembers : ∀ {k f d : Nat} {inp rest : Bytes} {ms : List (Bytes × Json)},
    parseMembers inRange f d inp = some (ms, rest) →
      Spans (outside (k + 1)) (outside (k + 1)) inp (closeBrace :: rest)
  | _, 0, _, _, _, _, h => by simp [parseMembers] at h
  | k, f + 1, d, inp, rest, ms, h => by
    rw [parseMembers] at h
    simp only [Option.bind_eq_bind, Option.bind_eq_some_iff, Prod.exists] at h
    obtain ⟨r1, hq, name, r2, hk, r3, hcolon, v, r4, hp, h⟩ := h
    refine (spans_skipWs inp).trans ?_
    rw [expect_eq hq]
    refine .cons .startString ((spans_parseString hk).trans ((spans_skipWs r2).trans ?_))
    refine (spans_expect (by decide +kernel) hcolon).trans ((spans_parseValue hp).trans ?_)
    cases hw : skipWs r4 with
    | nil => simp [hw] at h
    | cons c more =>
      refine (skipWs_eq hw).trans ?_
      simp only [hw] at h
      split at h
      · next hc =>
        obtain ⟨-, rfl⟩ := Prod.mk.inj (Option.some.inj h)
        subst hc
        exact .refl _ _
      split at h
      · next hc =>
        obtain ⟨p, hi, hr⟩ := Option.map_eq_some_iff.mp h
        obtain ⟨-, rfl⟩ := Prod.mk.inj hr
        exact .cons (.plainByte (hc ▸ by decide)) (spans_parseMembers hi)
      · exact nomatch h
end

theorem spans_object {f d : Nat} {inp rest : Bytes} {v : Json}
    (h : parseValue inRange f d (openBrace :: inp) = some (v, rest)) :
    Spans (outside 1) (outside 1) inp (closeBrace :: rest) := by
  cases f with
  | zero => simp [parseValue] at h
  | succ f =>
    rw [parseValue] at h
    have hw : skipWs (openBrace :: inp) = openBrace :: inp := rfl
    have hnot : openBrace ≠ 110 ∧ openBrace ≠ 116 ∧ openBrace ≠ 102 ∧ openBrace ≠ quoteMark ∧
        openBrace ≠ openBracket := by
      decide
    simp only [hw, hnot, if_false, if_true] at h
    cases d with
    | zero => simp at h
    | succ d =>
      cases hm : skipWs inp with
      | nil => simp [hm] at h
      | cons e more =>
        refine (skipWs_eq hm).trans ?_
        simp only [hm] at h
        split at h
        · next he =>
          obtain ⟨-, rfl⟩ := Prod.mk.inj (Option.some.inj h)
          exact he ▸ .refl _ _
        · obtain ⟨p, hp, hr⟩ := Option.map_eq_some_iff.mp h
          obtain ⟨-, rfl⟩ := Prod.mk.inj hr
          exact spans_parseMembers hp

/-- A document between two braces. -/
structure IsObject (inRange : Bytes → Bool) (p : Bytes) : Prop where
  opens : p.head? = some openBrace
  closes : p.getLast? = some closeBrace
  reads : (parse inRange p).isSome = true

/-- The count ends exactly at the end of an object, whatever follows. -/
theorem IsObject.balanced {p : Bytes} (h : IsObject inRange p) (tail : Bytes) :
    balanced (outside 0) (p ++ tail) = some (p, tail) := by
  obtain ⟨hopen, hclose, hreads⟩ := h
  obtain ⟨inner, rfl⟩ : ∃ inner, p = openBrace :: inner := by
    cases p with
    | nil => cases hopen
    | cons c inner => exact ⟨inner, congrArg (· :: inner) (Option.some.inj hopen)⟩
  obtain ⟨v, hv⟩ := Option.isSome_iff_exists.mp hreads
  simp only [parse, Option.bind_eq_bind, Option.bind_eq_some_iff, Prod.exists] at hv
  obtain ⟨w, rest, hw, hrest⟩ := hv
  obtain ⟨part, hinner, hmoves⟩ := spans_object hw
  -- only whitespace may follow the object, and the text ends with a brace
  have hnil : rest = [] := by
    by_contra hne
    have hlast : rest.getLast? = some closeBrace := by
      rw [hinner, ← List.cons_append, List.getLast?_append_cons, List.getLast?_cons_of_ne_nil hne]
        at hclose
      exact hclose
    have hmem := List.mem_of_getLast? hlast
    split at hrest
    · next hskip =>
      have hspace := List.dropWhile_eq_nil_iff.mp hskip closeBrace hmem
      exact absurd hspace (by decide)
    · cases hrest
  subst hnil hinner
  have hend : Json.balanced (outside 1) (closeBrace :: tail) = some ([closeBrace], tail) := rfl
  rw [List.cons_append, ← List.singleton_append, Moves.opened, List.append_assoc, hmoves,
    List.singleton_append, hend]
  simp

end PulseNull.Json
