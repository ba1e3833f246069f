import PulseNull.Text.Pattern

/-! The matches of several patterns cut out of a text, one pattern after the other. What is left has
a match only where a cut was closed. -/
namespace PulseNull.Text

/-- A byte that is left, and whether something was cut out right before it. -/
structure Kept where
  byte : UInt8
  cut : Bool

def bytesOf (l : List Kept) : Bytes := l.map Kept.byte

def whole (text : Bytes) : List Kept := text.map (⟨·, false⟩)

/-- Nothing was cut out within. -/
def Uncut (w : List Kept) : Prop := ∀ k ∈ w.tail, k.cut = false

def markFirst : List Kept → List Kept
  | [] => []
  | k :: rest => { k with cut := true } :: rest

namespace Pattern
variable (m : Pattern)

/-- Whether a match stands somewhere is up to the bytes of the match. -/
def Local : Prop := ∀ text part after, m.start text = some (part, after) →
  ∃ w, text = w ++ after ∧ ∀ rest, m.start (w ++ rest) = some (part, rest)

def cutFrom : Nat → List Kept → List Kept
  | 0, l => l
  | _ + 1, [] => []
  | n + 1, k :: rest =>
    match m.start (bytesOf (k :: rest)) with
    | some (_, after) => markFirst (cutFrom n ((k :: rest).drop (rest.length + 1 - after.length)))
    | none => k :: cutFrom n rest

def cut (l : List Kept) : List Kept := m.cutFrom l.length l

variable {m}

theorem Local.match_alone {w more part after : Bytes} (hm : m.Local)
    (h : m.start w = some (part, after)) : m.start (w ++ more) = some (part, after ++ more) := by
  obtain ⟨v, rfl, hv⟩ := hm _ _ _ h
  rw [List.append_assoc, hv]

@[simp] theorem bytesOf_markFirst (l : List Kept) : bytesOf (markFirst l) = bytesOf l := by
  cases l <;> rfl

theorem bytesOf_cutFrom (hm : m.Local) : ∀ (n : Nat) (l : List Kept),
    bytesOf (m.cutFrom n l) = (m.scanFrom n (bytesOf l)).2
  | 0, _ => rfl
  | _ + 1, [] => rfl
  | n + 1, k :: rest => by
    have hcons : bytesOf (k :: rest) = k.byte :: bytesOf rest := rfl
    unfold cutFrom
    rw [hcons]
    unfold scanFrom
    cases hs : m.start (k.byte :: bytesOf rest) with
    | none => exact congrArg (k.byte :: ·) (bytesOf_cutFrom hm n rest)
    | some r =>
      obtain ⟨part, after⟩ := r
      obtain ⟨w, hw, _⟩ := hm _ _ _ hs
      have hafter : bytesOf ((k :: rest).drop (rest.length + 1 - after.length)) = after := by
        have hlen := congrArg List.length hw
        simp only [List.length_cons, List.length_append, bytesOf, List.length_map] at hlen
        rw [bytesOf, List.map_drop, ← bytesOf, hcons, hw, hlen, Nat.add_sub_cancel, List.drop_left]
      simp only [bytesOf_markFirst]
      rw [bytesOf_cutFrom hm n, hafter]

theorem bytesOf_cut (hm : m.Local) (l : List Kept) : bytesOf (m.cut l) = (m.scan (bytesOf l)).2 := by
  rw [cut, bytesOf_cutFrom hm, scan, bytesOf, List.length_map]

/-- An uncut start of what is left was there before. -/
theorem cutFrom_prefix {n : Nat} {l w : List Kept} (hw : ∀ k ∈ w, k.cut = false)
    (h : w <+: m.cutFrom n l) : w <+: l := by
  induction n generalizing l w with
  | zero => exact h
  | succ n ih =>
    cases l with
    | nil => exact h
    | cons k rest =>
      unfold cutFrom at h
      split at h
      · cases w with
        | nil => exact List.nil_prefix
        | cons x w =>
          generalize m.cutFrom n _ = r at h
          cases r with
          | nil => exact absurd (List.prefix_nil.mp h) (List.cons_ne_nil x w)
          | cons y r =>
            have hx := hw x List.mem_cons_self
            rw [(List.cons_prefix_cons.mp h).1] at hx
            exact nomatch hx
      · cases w with
        | nil => exact List.nil_prefix
        | cons x w =>
          obtain ⟨rfl, hrest⟩ := List.cons_prefix_cons.mp h
          exact List.cons_prefix_cons.mpr
            ⟨rfl, ih (fun k hk => hw k (List.mem_cons_of_mem _ hk)) hrest⟩

/-- The same bytes, cut at the same places but for the first. -/
def Same (w w' : List Kept) : Prop := bytesOf w = bytesOf w' ∧ w.tail = w'.tail

theorem markFirst_infix {w l : List Kept} (h : w <:+: markFirst l) : ∃ w', w' <:+: l ∧ Same w w' := by
  cases l with
  | nil => exact ⟨w, h, rfl, rfl⟩
  | cons k rest =>
    rcases List.infix_cons_iff.mp h with hpre | hin
    · cases w with
      | nil => exact ⟨[], List.nil_infix, rfl, rfl⟩
      | cons x w =>
        obtain ⟨rfl, hrest⟩ := List.cons_prefix_cons.mp hpre
        exact ⟨k :: w, (List.cons_prefix_cons.mpr ⟨rfl, hrest⟩).isInfix, rfl, rfl⟩
    · exact ⟨w, hin.trans (List.suffix_cons k rest).isInfix, rfl, rfl⟩

/-- What is left uncut was there before, and is no match. -/
theorem cutFrom_infix (hm : m.Local) {n : Nat} {l w : List Kept} (hn : l.length ≤ n) (hw : Uncut w)
    (h : w <:+: m.cutFrom n l) :
    (∃ w', w' <:+: l ∧ Same w w') ∧ ∀ part, m.start (bytesOf w) ≠ some (part, []) := by
  have hnil : ∀ part, m.start [] ≠ some (part, []) := fun part hs =>
    absurd (m.shrinks hs) (lt_irrefl _)
  induction n generalizing l w with
  | zero =>
    obtain rfl := List.length_eq_zero_iff.mp (Nat.le_zero.mp hn)
    obtain rfl := List.infix_nil.mp h
    exact ⟨⟨[], h, rfl, rfl⟩, hnil⟩
  | succ n ih =>
    cases l with
    | nil =>
      obtain rfl := List.infix_nil.mp h
      exact ⟨⟨[], h, rfl, rfl⟩, hnil⟩
    | cons k rest =>
      rw [List.length_cons] at hn
      unfold cutFrom at h
      split at h
      · next part after hs =>
        have hshort := m.shrinks hs
        simp only [bytesOf, List.length_map, List.length_cons] at hshort
        obtain ⟨w', hin, hsame⟩ := markFirst_infix h
        have hw' : Uncut w' := fun x hx => hw x (hsame.2 ▸ hx)
        obtain ⟨⟨v, hv, hvsame⟩, hno⟩ := ih (by rw [List.length_drop, List.length_cons]; omega) hw' hin
        refine ⟨⟨v, hv.trans (List.drop_suffix _ _).isInfix, hsame.1.trans hvsame.1,
          hsame.2.trans hvsame.2⟩, ?_⟩
        rw [hsame.1]
        exact hno
      · next hs =>
        rcases List.infix_cons_iff.mp h with hpre | hin
        · have hold : w <+: k :: rest := by
            cases w with
            | nil => exact List.nil_prefix
            | cons x w =>
              obtain ⟨rfl, hrest⟩ := List.cons_prefix_cons.mp hpre
              exact List.cons_prefix_cons.mpr ⟨rfl, cutFrom_prefix hw hrest⟩
          refine ⟨⟨w, hold.isInfix, rfl, rfl⟩, fun part hpart => ?_⟩
          obtain ⟨more, hmore⟩ := hold
          rw [← hmore, bytesOf, List.map_append] at hs
          rw [show m.start (w.map Kept.byte ++ more.map Kept.byte) = _ from
            hm.match_alone hpart] at hs
          exact nomatch hs
        · obtain ⟨⟨v, hv, hsame⟩, hno⟩ := ih (by omega) hw hin
          exact ⟨⟨v, hv.trans (List.suffix_cons k rest).isInfix, hsame⟩, hno⟩

/-- A match found in a text is a part of it that matches as it stands. -/
theorem mem_scan (hm : m.Local) {text part : Bytes} (h : part ∈ (m.scan text).1) :
    ∃ w, w <:+: text ∧ m.start w = some (part, []) := by
  generalize hn : text.length = n
  induction n using Nat.strong_induction_on generalizing text with
  | _ n ih =>
    cases text with
    | nil => exact absurd h List.not_mem_nil
    | cons c rest =>
      cases hs : m.start (c :: rest) with
      | none =>
        rw [scan_skip hs] at h
        obtain ⟨w, hw, hmatch⟩ := ih _ (by rw [← hn, List.length_cons]; omega) h rfl
        exact ⟨w, hw.trans (List.suffix_cons c rest).isInfix, hmatch⟩
      | some r =>
        obtain ⟨first, after⟩ := r
        have hshort := m.shrinks hs
        obtain ⟨w, hw, hspan⟩ := hm _ _ _ hs
        rw [scan_match hs] at h
        rcases List.mem_cons.mp h with rfl | h
        · have := hspan []
          rw [List.append_nil] at this
          exact ⟨w, hw ▸ (List.prefix_append w after).isInfix, this⟩
        · obtain ⟨v, hv, hmatch⟩ := ih _ (hn ▸ hshort) h rfl
          exact ⟨v, hv.trans (hw ▸ (List.suffix_append w after).isInfix), hmatch⟩

theorem scan_alone {w part : Bytes} (h : m.start w = some (part, [])) : (m.scan w).1 = [part] := by
  rw [scan_match h]
  rfl

end Pattern
open Pattern

/-! Several patterns. -/

/-- A pattern with the captures it takes. -/
structure Parser where
  pattern : Pattern
  accepts : Bytes → Bool

def cutAll : List Parser → List Kept → List Kept
  | [], l => l
  | p :: parsers, l => cutAll parsers (p.pattern.cut l)

/-- The text without the matches. -/
def stripAll : List Parser → Bytes → Bytes
  | [], text => text
  | p :: parsers, text => stripAll parsers (p.pattern.scan text).2

/-- Some part of the text is taken by one of the parsers. -/
def Live (parsers : List Parser) (text : Bytes) : Prop :=
  ∃ p ∈ parsers, ∃ s, s <:+: text ∧ ∃ part ∈ (p.pattern.scan s).1, p.accepts part = true

/-- Where matches were cut out, what stood around them reads as a match. -/
def Joined (parsers : List Parser) (text : Bytes) : Prop :=
  ∃ p ∈ parsers, ∃ w, w <:+: cutAll parsers (whole text) ∧ (∃ k ∈ w.tail, k.cut = true) ∧
    ∃ part, p.pattern.start (bytesOf w) = some (part, []) ∧ p.accepts part = true

section
variable {parsers : List Parser}

theorem bytesOf_cutAll (h : ∀ p ∈ parsers, p.pattern.Local) (l : List Kept) :
    bytesOf (cutAll parsers l) = stripAll parsers (bytesOf l) := by
  induction parsers generalizing l with
  | nil => rfl
  | cons p parsers ih =>
    obtain ⟨hp, hrest⟩ := List.forall_mem_cons.mp h
    rw [cutAll, stripAll, ih hrest, bytesOf_cut hp]

theorem bytesOf_whole (text : Bytes) : bytesOf (whole text) = text := by
  simp [bytesOf, whole, Function.comp_def]

/-- What is left uncut by all the patterns was there before, and none of them matches it. -/
theorem cutAll_isInfix (h : ∀ p ∈ parsers, p.pattern.Local) {l w : List Kept} (hw : Uncut w)
    (hin : w <:+: cutAll parsers l) : (∃ w', w' <:+: l ∧ Same w w') ∧
      ∀ p ∈ parsers, ∀ part, p.pattern.start (bytesOf w) ≠ some (part, []) := by
  induction parsers generalizing l with
  | nil => exact ⟨⟨w, hin, rfl, rfl⟩, fun _ hp => nomatch hp⟩
  | cons p parsers ih =>
    obtain ⟨hp, hrest⟩ := List.forall_mem_cons.mp h
    obtain ⟨⟨w', hin', hsame⟩, hno⟩ := ih hrest hin
    have hw' : Uncut w' := fun k hk => hw k (hsame.2 ▸ hk)
    obtain ⟨⟨v, hv, hvsame⟩, hown⟩ := cutFrom_infix hp le_rfl hw' hin'
    refine ⟨⟨v, hv, hsame.1.trans hvsame.1, hsame.2.trans hvsame.2⟩,
      List.forall_mem_cons.mpr ⟨?_, hno⟩⟩
    rw [hsame.1]
    exact hown

theorem live_iff (h : ∀ p ∈ parsers, p.pattern.Local) {ps : List Parser} (hps : ps ⊆ parsers)
    (text : Bytes) : Live ps text ↔ ∃ p ∈ ps, ∃ w, w <:+: text ∧
      ∃ part, p.pattern.start w = some (part, []) ∧ p.accepts part = true := by
  constructor
  · rintro ⟨p, hp, s, hs, part, hpart, hacc⟩
    obtain ⟨w, hw, hmatch⟩ := mem_scan (h p (hps hp)) hpart
    exact ⟨p, hp, w, hw.trans hs, part, hmatch, hacc⟩
  · rintro ⟨p, hp, w, hw, part, hmatch, hacc⟩
    exact ⟨p, hp, w, hw, part, by rw [scan_alone hmatch]; exact List.mem_cons_self, hacc⟩

/-- A match left in the text was put together by a cut. -/
theorem live_strip_iff (h : ∀ p ∈ parsers, p.pattern.Local) (text : Bytes) :
    Live parsers (stripAll parsers text) ↔ Joined parsers text := by
  rw [live_iff h (List.Subset.refl _), ← bytesOf_whole text, ← bytesOf_cutAll h, bytesOf_whole]
  constructor
  · rintro ⟨p, hp, w, ⟨pre, post, heq⟩, part, hmatch, hacc⟩
    obtain ⟨front, l, hfront, hpre, hpost⟩ := List.map_eq_append_iff.mp heq.symm
    obtain ⟨lpre, lw, rfl, rfl, rfl⟩ := List.map_eq_append_iff.mp hpre
    refine ⟨p, hp, lw, ⟨lpre, l, hfront.symm⟩, ?_, part, hmatch, hacc⟩
    by_contra hno
    have huncut : Uncut lw := fun k hk => by
      by_contra hk'
      exact hno ⟨k, hk, by simpa using hk'⟩
    exact (cutAll_isInfix h huncut ⟨lpre, l, hfront.symm⟩).2 p hp part hmatch
  · rintro ⟨p, hp, w, hw, -, part, hmatch, hacc⟩
    exact ⟨p, hp, bytesOf w, hw.map _, part, hmatch, hacc⟩

/-- A text nothing is taken from is left as it is. -/
theorem stripAll_of_dead (hacc : ∀ p ∈ parsers, ∀ part,
    p.accepts part = true) {text : Bytes} (hdead : ¬Live parsers text) : stripAll parsers text = text := by
  have hall : ∀ p ∈ parsers, (p.pattern.scan text).2 = text := by
    intro p hp
    have hnone : (p.pattern.scan text).1 = [] := by
      by_contra hne
      obtain ⟨part, hpart⟩ := List.exists_mem_of_ne_nil _ hne
      exact hdead ⟨p, hp, text, List.infix_refl _, part, hpart, hacc p hp part⟩
    rw [scan_none (quiet_of_scan hnone)]
  clear hacc hdead
  induction parsers with
  | nil => rfl
  | cons p parsers ih =>
    obtain ⟨hp, hrest⟩ := List.forall_mem_cons.mp hall
    rw [stripAll, hp, ih hrest]

end
end PulseNull.Text
