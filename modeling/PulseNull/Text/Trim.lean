import PulseNull.Text.Chars

/-! Whitespace at the end of a text. A blank text is whitespace characters one after the other, and
a prefix that ends in none of them stays when the text that goes on from it is trimmed. -/
namespace PulseNull.Text

/-- The bytes are one whitespace character. -/
def IsBlankChar (c : Bytes) : Prop := stripBlank c = some []

theorem stripBlank_eq_some {text rest : Bytes} (h : stripBlank text = some rest) :
    ∃ c, IsBlankChar c ∧ text = c ++ rest := by
  unfold stripBlank at h
  split at h
  · next c tail =>
    split_ifs at h with hc
    obtain rfl := Option.some.inj h
    exact ⟨[194, c], by simp [IsBlankChar, stripBlank, hc], rfl⟩
  · next tail =>
    obtain rfl := Option.some.inj h
    exact ⟨[225, 154, 128], rfl, rfl⟩
  · next c tail =>
    split_ifs at h with hc
    obtain rfl := Option.some.inj h
    exact ⟨[226, 128, c], by simp [IsBlankChar, stripBlank, hc], rfl⟩
  · next tail =>
    obtain rfl := Option.some.inj h
    exact ⟨[226, 129, 159], rfl, rfl⟩
  · next tail =>
    obtain rfl := Option.some.inj h
    exact ⟨[227, 128, 128], rfl, rfl⟩
  · next c tail _ _ _ _ _ =>
    split_ifs at h with hc
    obtain rfl := Option.some.inj h
    exact ⟨[c], by simp [IsBlankChar, stripBlank, hc], rfl⟩
  · exact nomatch h

/-- A whitespace character is one ASCII byte, or a lead byte and continuation bytes. -/
theorem IsBlankChar.shape {c : Bytes} (h : IsBlankChar c) :
    (∃ b, c = [b] ∧ ((9 ≤ b ∧ b ≤ 13) ∨ b = 32)) ∨
      ∃ b cs, c = b :: cs ∧ isCont b = false ∧ 128 ≤ b ∧ (cs.length = 1 ∨ cs.length = 2) ∧
        ∀ x ∈ cs, isCont x = true := by
  have cont {x : UInt8} (hl : 128 ≤ x) (hr : x ≤ 191) : isCont x = true := by simp [isCont, hl, hr]
  unfold IsBlankChar stripBlank at h
  split at h
  · next x tail =>
    split_ifs at h with hc
    obtain rfl := Option.some.inj h
    refine .inr ⟨194, [x], rfl, rfl, by decide, .inl rfl, fun y hy => ?_⟩
    rw [List.mem_singleton.mp hy]
    simp only [Bool.or_eq_true, decide_eq_true_eq] at hc
    rcases hc with rfl | rfl <;> rfl
  · next tail =>
    obtain rfl := Option.some.inj h
    exact .inr ⟨225, [154, 128], rfl, rfl, by decide, .inr rfl, by simp [isCont]⟩
  · next x tail =>
    split_ifs at h with hc
    obtain rfl := Option.some.inj h
    refine .inr ⟨226, [128, x], rfl, rfl, by decide, .inr rfl, fun y hy => ?_⟩
    have hx : isCont x = true := by
      simp only [Bool.or_eq_true, Bool.and_eq_true, decide_eq_true_eq] at hc
      rcases hc with ((⟨hl, hr⟩ | rfl) | rfl) | rfl
      · exact cont hl (UInt8.le_trans hr (by decide))
      · rfl
      · rfl
      · rfl
    rcases List.mem_cons.mp hy with rfl | hy
    · rfl
    · rwa [List.mem_singleton.mp hy]
  · next tail =>
    obtain rfl := Option.some.inj h
    exact .inr ⟨226, [129, 159], rfl, rfl, by decide, .inr rfl, by simp [isCont]⟩
  · next tail =>
    obtain rfl := Option.some.inj h
    exact .inr ⟨227, [128, 128], rfl, rfl, by decide, .inr rfl, by simp [isCont]⟩
  · next x tail _ _ _ _ _ =>
    split_ifs at h with hc
    obtain rfl := Option.some.inj h
    exact .inl ⟨x, rfl, by simpa using hc⟩
  · exact nomatch h

theorem IsBlankChar.ne_nil {c : Bytes} (h : IsBlankChar c) : c ≠ [] := by
  rintro rfl
  exact nomatch h

/-- A whitespace character does not start within another character. -/
theorem IsBlankChar.head {c : Bytes} (h : IsBlankChar c) : ∃ b cs, c = b :: cs ∧ isCont b = false := by
  rcases h.shape with ⟨b, rfl, hb⟩ | ⟨b, cs, rfl, hb, _⟩
  · refine ⟨b, [], rfl, ?_⟩
    have hlt : b < 128 := by
      rcases hb with ⟨_, hb⟩ | rfl
      · exact UInt8.lt_of_le_of_lt hb (by decide)
      · decide
    simp [isCont, hlt]
  · exact ⟨b, cs, rfl, hb⟩

theorem stripBlank_append {c : Bytes} (h : IsBlankChar c) (rest : Bytes) :
    stripBlank (c ++ rest) = some rest := by
  unfold IsBlankChar stripBlank at h
  split at h
  · next x tail =>
    split_ifs at h with hc
    obtain rfl := Option.some.inj h
    simp [stripBlank, hc]
  · next tail =>
    obtain rfl := Option.some.inj h
    rfl
  · next x tail =>
    split_ifs at h with hc
    obtain rfl := Option.some.inj h
    simp [stripBlank, hc]
  · next tail =>
    obtain rfl := Option.some.inj h
    rfl
  · next tail =>
    obtain rfl := Option.some.inj h
    rfl
  · next x tail h1 h2 h3 h4 h5 =>
    split_ifs at h with hc
    obtain rfl := Option.some.inj h
    have hlt : x < 128 := by
      simp only [Bool.or_eq_true, Bool.and_eq_true, decide_eq_true_eq] at hc
      rcases hc with ⟨_, hx⟩ | rfl
      · exact UInt8.lt_of_le_of_lt hx (by decide)
      · decide
    have hne (n : UInt8) (hn : 128 ≤ n) : x ≠ n := fun he => UInt8.not_lt.mpr hn (he ▸ hlt)
    rw [List.singleton_append]
    unfold stripBlank
    split
    · next heq => exact absurd (List.cons.inj heq).1 (hne 194 (by decide))
    · next heq => exact absurd (List.cons.inj heq).1 (hne 225 (by decide))
    · next heq => exact absurd (List.cons.inj heq).1 (hne 226 (by decide))
    · next heq => exact absurd (List.cons.inj heq).1 (hne 226 (by decide))
    · next heq => exact absurd (List.cons.inj heq).1 (hne 227 (by decide))
    · next heq =>
      obtain ⟨rfl, rfl⟩ := List.cons.inj heq
      rw [if_pos hc]
    · next heq => exact nomatch heq
  · exact nomatch h

private theorem blankFrom_eq_true {n : Nat} {text : Bytes} (h : blankFrom n text = true) :
    ∃ cs : List Bytes, (∀ c ∈ cs, IsBlankChar c) ∧ text = cs.flatten := by
  induction n generalizing text with
  | zero =>
    cases text with
    | nil => exact ⟨[], by simp, rfl⟩
    | cons b bs => exact nomatch h
  | succ n ih =>
    cases text with
    | nil => exact ⟨[], by simp, rfl⟩
    | cons b bs =>
      unfold blankFrom at h
      cases hs : stripBlank (b :: bs) with
      | none => simp [hs] at h
      | some rest =>
        simp only [hs] at h
        obtain ⟨c, hc, heq⟩ := stripBlank_eq_some hs
        obtain ⟨cs, hcs, rfl⟩ := ih h
        exact ⟨c :: cs, List.forall_mem_cons.mpr ⟨hc, hcs⟩, heq⟩

private theorem blankFrom_flatten {cs : List Bytes} (h : ∀ c ∈ cs, IsBlankChar c) {n : Nat}
    (hn : cs.flatten.length ≤ n) : blankFrom n cs.flatten = true := by
  induction cs generalizing n with
  | nil => cases n <;> rfl
  | cons c cs ih =>
    obtain ⟨hc, hcs⟩ := List.forall_mem_cons.mp h
    have hpos := List.length_pos_of_ne_nil hc.ne_nil
    rw [List.flatten_cons, List.length_append] at hn
    obtain ⟨n, rfl⟩ : ∃ k, n = k + 1 := ⟨n - 1, by omega⟩
    obtain ⟨b, bs, hb⟩ := List.exists_cons_of_ne_nil hc.ne_nil
    rw [List.flatten_cons]
    have hs := stripBlank_append hc cs.flatten
    rw [hb] at hs ⊢
    rw [List.cons_append] at hs ⊢
    unfold blankFrom
    simp only [hs]
    exact ih hcs (by omega)

/-- A blank text is whitespace characters one after the other. -/
theorem blank_iff {text : Bytes} : blank text = true ↔
    ∃ cs : List Bytes, (∀ c ∈ cs, IsBlankChar c) ∧ text = cs.flatten := by
  constructor
  · exact blankFrom_eq_true
  · rintro ⟨cs, h, rfl⟩
    exact blankFrom_flatten h le_rfl

/-- The part of a blank text before a character of it is blank. -/
theorem blank_isPrefix {p q : Bytes} (h : blank (p ++ q) = true)
    (hq : ∀ b bs, q = b :: bs → isCont b = false) : blank p = true := by
  obtain ⟨cs, hcs, heq⟩ := blank_iff.mp h
  rw [blank_iff]
  clear h
  induction cs generalizing p with
  | nil =>
    obtain ⟨rfl, _⟩ := List.append_eq_nil_iff.mp heq
    exact ⟨[], by simp, rfl⟩
  | cons c cs ih =>
    obtain ⟨hc, hcs⟩ := List.forall_mem_cons.mp hcs
    rw [List.flatten_cons] at heq
    rcases List.append_eq_append_iff.mp heq with ⟨d, rfl, rfl⟩ | ⟨d, rfl, hd⟩
    · -- `p` ends within the first character
      cases p with
      | nil => exact ⟨[], by simp, rfl⟩
      | cons b p =>
        cases d with
        | nil => exact ⟨[b :: p], by simpa using hc, by simp⟩
        | cons x d =>
          have hx := hq x (d ++ cs.flatten) rfl
          rcases hc.shape with ⟨y, hy, _⟩ | ⟨y, ys, hy, _, _, _, hcont⟩
          · simp at hy
          · rw [List.cons_append, List.cons.injEq] at hy
            have := hcont x (hy.2 ▸ by simp)
            simp [hx] at this
    · obtain ⟨ds, hds, rfl⟩ := ih hcs hd.symm
      exact ⟨c :: ds, List.forall_mem_cons.mpr ⟨hc, hds⟩, rfl⟩

/-- The ASCII bytes of a blank text are whitespace. -/
theorem blank_ascii {text : Bytes} (h : blank text = true) {b : UInt8} (hb : b ∈ text)
    (hlt : b < 128) : (9 ≤ b ∧ b ≤ 13) ∨ b = 32 := by
  obtain ⟨cs, hcs, rfl⟩ := blank_iff.mp h
  obtain ⟨c, hc, hbc⟩ := List.mem_flatten.mp hb
  rcases (hcs c hc).shape with ⟨y, rfl, hy⟩ | ⟨y, ys, rfl, _, hy, _, hcont⟩
  · rw [List.mem_singleton.mp hbc]
    exact hy
  · rcases List.mem_cons.mp hbc with rfl | hm
    · exact absurd hlt (UInt8.not_lt.mpr hy)
    · have := hcont b hm
      simp only [isCont, Bool.and_eq_true, decide_eq_true_eq] at this
      exact absurd hlt (UInt8.not_lt.mpr this.1)

/-! The last character. -/

/-- The text without its last character, when that is whitespace. -/
def stripBlankEnd (text : Bytes) : Option Bytes :=
  ([1, 2, 3].find? fun k => k ≤ text.length && stripBlank (text.drop (text.length - k)) = some []).map
    fun k => text.take (text.length - k)

theorem stripBlankEnd_eq_some {text rest : Bytes} (h : stripBlankEnd text = some rest) :
    ∃ c, IsBlankChar c ∧ text = rest ++ c := by
  obtain ⟨k, hk, rfl⟩ := Option.map_eq_some_iff.mp h
  have hk := List.find?_some hk
  simp only [Bool.and_eq_true, decide_eq_true_eq] at hk
  exact ⟨_, hk.2, (List.take_append_drop _ _).symm⟩

theorem stripBlankEnd_append {c : Bytes} (h : IsBlankChar c) (text : Bytes) :
    stripBlankEnd (text ++ c) ≠ none := by
  intro hn
  rw [stripBlankEnd, Option.map_eq_none_iff, List.find?_eq_none] at hn
  have hk : c.length ∈ [1, 2, 3] := by
    rcases h.shape with ⟨b, rfl, _⟩ | ⟨b, cs, rfl, _, _, hl | hl, _⟩ <;> simp_all
  have := hn c.length hk
  simp [IsBlankChar] at this h
  exact this h

/-- No whitespace character ends the text. -/
def Solid (text : Bytes) : Prop := ∀ s, s ≠ [] → s <:+ text → blank s = false

theorem solid_of_stripBlankEnd {text : Bytes} (h : stripBlankEnd text = none) : Solid text := by
  rintro s hs ⟨pre, rfl⟩
  by_contra hb
  rw [Bool.not_eq_false] at hb
  obtain ⟨cs, hcs, rfl⟩ := blank_iff.mp hb
  obtain ⟨init, last, rfl⟩ := List.eq_nil_or_concat cs |>.resolve_left (by rintro rfl; exact hs rfl)
  have hlast := hcs last (by simp)
  refine stripBlankEnd_append hlast (pre ++ init.flatten) ?_
  simpa [List.concat_eq_append] using h

theorem solid_of_last {text : Bytes} {b : UInt8} (hlt : b < 128)
    (hb : ¬ ((9 ≤ b ∧ b ≤ 13) ∨ b = 32)) : Solid (text ++ [b]) := by
  rintro s hs ⟨pre, heq⟩
  by_contra hbl
  rw [Bool.not_eq_false] at hbl
  refine hb (blank_ascii hbl ?_ hlt)
  obtain ⟨init, last, rfl⟩ := List.eq_nil_or_concat s |>.resolve_left hs
  rw [List.concat_eq_append, ← List.append_assoc] at heq
  have := (List.append_inj' heq rfl).2
  simp_all [List.concat_eq_append]

/-! Trimming. -/

theorem trimEnd_append (text : Bytes) : ∃ ws, blank ws = true ∧ text = trimEnd text ++ ws := by
  induction text with
  | nil => exact ⟨[], rfl, rfl⟩
  | cons c cs ih =>
    obtain ⟨ws, hws, heq⟩ := ih
    unfold trimEnd
    split
    · next h => exact ⟨c :: cs, h, rfl⟩
    · exact ⟨ws, hws, congrArg (c :: ·) heq⟩

/-- A prefix that ends in no whitespace, and at the end of a character, survives trimming. -/
theorem Solid.prefix_trimEnd {p q : Bytes} (h : Solid p)
    (hq : ∀ b bs, q = b :: bs → isCont b = false) : p <+: trimEnd (p ++ q) := by
  obtain ⟨ws, hws, heq⟩ := trimEnd_append (p ++ q)
  rcases List.append_eq_append_iff.mp heq with ⟨d, hd, _⟩ | ⟨d, hp, hq'⟩
  · exact ⟨d, hd.symm⟩
  · cases d with
    | nil => exact ⟨[], by simpa using hp⟩
    | cons b d =>
      have hb := h (b :: d) (by simp) ⟨_, hp.symm⟩
      rw [hq'] at hws
      simp [blank_isPrefix hws hq] at hb

theorem Solid.trimEnd_eq {p : Bytes} (h : Solid p) : trimEnd p = p := by
  obtain ⟨ws, _, heq⟩ := trimEnd_append p
  have := h.prefix_trimEnd (q := []) (fun _ _ he => nomatch he)
  rw [List.append_nil] at this
  have hlen := this.length_le
  have := congrArg List.length heq
  rw [List.length_append] at this
  obtain rfl : ws = [] := List.length_eq_zero_iff.mp (by omega)
  simpa using heq.symm

/-! The start. -/

private theorem trimStartFrom_spec {n : Nat} {text : Bytes} (h : text.length ≤ n) :
    ∃ cs : List Bytes, (∀ c ∈ cs, IsBlankChar c) ∧ text = cs.flatten ++ trimStartFrom n text ∧
      stripBlank (trimStartFrom n text) = none := by
  induction n generalizing text with
  | zero =>
    obtain rfl := List.length_eq_zero_iff.mp (Nat.le_zero.mp h)
    exact ⟨[], by simp, rfl, rfl⟩
  | succ n ih =>
    unfold trimStartFrom
    cases hs : stripBlank text with
    | none => exact ⟨[], by simp, rfl, hs⟩
    | some rest =>
      obtain ⟨c, hc, rfl⟩ := stripBlank_eq_some hs
      have hpos := List.length_pos_of_ne_nil hc.ne_nil
      rw [List.length_append] at h
      obtain ⟨cs, hcs, heq, hend⟩ := ih (show rest.length ≤ n by omega)
      refine ⟨c :: cs, List.forall_mem_cons.mpr ⟨hc, hcs⟩, ?_, hend⟩
      rw [List.flatten_cons, List.append_assoc, ← heq]

theorem trimStart_spec (text : Bytes) : ∃ cs : List Bytes, (∀ c ∈ cs, IsBlankChar c) ∧
    text = cs.flatten ++ trimStart text ∧ stripBlank (trimStart text) = none :=
  trimStartFrom_spec le_rfl

private theorem trimStartFrom_flatten {cs : List Bytes} (h : ∀ c ∈ cs, IsBlankChar c) {u : Bytes}
    (hu : stripBlank u = none) {n : Nat} (hn : cs.flatten.length ≤ n) :
    trimStartFrom n (cs.flatten ++ u) = u := by
  induction cs generalizing n with
  | nil =>
    cases n with
    | zero => rfl
    | succ n => simp [trimStartFrom, hu]
  | cons c cs ih =>
    obtain ⟨hc, hcs⟩ := List.forall_mem_cons.mp h
    have hpos := List.length_pos_of_ne_nil hc.ne_nil
    rw [List.flatten_cons, List.length_append] at hn
    obtain ⟨n, rfl⟩ : ∃ k, n = k + 1 := ⟨n - 1, by omega⟩
    rw [List.flatten_cons, List.append_assoc, trimStartFrom, stripBlank_append hc]
    exact ih hcs (by omega)

theorem trimStart_flatten {cs : List Bytes} (h : ∀ c ∈ cs, IsBlankChar c) {u : Bytes}
    (hu : stripBlank u = none) : trimStart (cs.flatten ++ u) = u :=
  trimStartFrom_flatten h hu (by simp)

/-- An ASCII byte that is no whitespace. -/
def IsInk (b : UInt8) : Prop := b < 128 ∧ ¬((9 ≤ b ∧ b ≤ 13) ∨ b = 32)

theorem IsInk.not_mem {b : UInt8} (hb : IsInk b) {cs : List Bytes} (h : ∀ c ∈ cs, IsBlankChar c) :
    b ∉ cs.flatten := fun hm => hb.2 (blank_ascii (blank_iff.mpr ⟨cs, h, rfl⟩) hm hb.1)

private theorem stripBlank_ink {a x y : Bytes} {b : UInt8} (hb : IsInk b)
    (h : stripBlank (a ++ b :: x) = none) : stripBlank (a ++ b :: y) = none := by
  by_contra hne
  obtain ⟨r, hr⟩ := Option.ne_none_iff_exists'.mp hne
  obtain ⟨c, hc, heq⟩ := stripBlank_eq_some hr
  have hbc : b ∉ c := by
    simpa using hb.not_mem (List.forall_mem_singleton.mpr hc)
  rcases List.append_eq_append_iff.mp heq with ⟨d, rfl, hd⟩ | ⟨d, rfl, -⟩
  · cases d with
    | nil =>
      rw [List.append_nil] at hc
      rw [stripBlank_append hc] at h
      exact nomatch h
    | cons e d =>
      obtain ⟨rfl, -⟩ := List.cons.inj hd
      exact hbc (by simp)
  · rw [List.append_assoc, stripBlank_append hc] at h
    exact nomatch h

/-- What is trimmed off does not depend on what follows the first such byte. -/
theorem trimStart_local {text u after : Bytes} {b : UInt8} (hb : IsInk b)
    (h : trimStart text = u ++ b :: after) : ∃ ws, b ∉ ws ∧ text = ws ++ (u ++ b :: after) ∧
      ∀ rest, trimStart (ws ++ (u ++ b :: rest)) = u ++ b :: rest := by
  obtain ⟨cs, hcs, htext, hend⟩ := trimStart_spec text
  rw [h] at htext hend
  exact ⟨cs.flatten, hb.not_mem hcs, htext, fun rest =>
    trimStart_flatten hcs (stripBlank_ink hb hend)⟩

theorem blank_append {a b : Bytes} (ha : blank a = true) (hb : blank b = true) :
    blank (a ++ b) = true := by
  obtain ⟨cs, hcs, rfl⟩ := blank_iff.mp ha
  obtain ⟨ds, hds, rfl⟩ := blank_iff.mp hb
  exact blank_iff.mpr ⟨cs ++ ds, List.forall_mem_append.mpr ⟨hcs, hds⟩, by simp⟩

theorem trimEnd_solid (text : Bytes) : Solid (trimEnd text) := by
  induction text with
  | nil => exact fun s hne hs => absurd (List.suffix_nil.mp hs) hne
  | cons c cs ih =>
    obtain ⟨ws, hws, htext⟩ := trimEnd_append (c :: cs)
    unfold trimEnd at htext ⊢
    split
    · exact fun s hne hs => absurd (List.suffix_nil.mp hs) hne
    · next h =>
      rw [if_neg h] at htext
      intro s hne hs
      rcases List.suffix_cons_iff.mp hs with rfl | hs
      · by_contra hb
        rw [htext, blank_append (by simpa using hb) hws] at h
        exact h rfl
      · exact ih s hne hs

theorem trim_trim (text : Bytes) : trim (trim text) = trim text := by
  obtain ⟨_, _, _, hend⟩ := trimStart_spec text
  have hstart : stripBlank (trimEnd (trimStart text)) = none := by
    by_contra hne
    obtain ⟨r, hr⟩ := Option.ne_none_iff_exists'.mp hne
    obtain ⟨c, hc, heq⟩ := stripBlank_eq_some hr
    obtain ⟨ws, _, htext⟩ := trimEnd_append (trimStart text)
    rw [htext, heq, List.append_assoc, stripBlank_append hc] at hend
    exact nomatch hend
  have htrim : trimStart (trimEnd (trimStart text)) = trimEnd (trimStart text) :=
    @trimStart_flatten [] (by simp) _ hstart
  rw [trim, trim, htrim, (trimEnd_solid _).trimEnd_eq]

/-- A part between two bytes that are no whitespace is not trimmed. -/
theorem infix_trim {b e : UInt8} (hb : IsInk b) (he : IsInk e) {w text : Bytes}
    (h : b :: (w ++ [e]) <:+: text) : b :: (w ++ [e]) <:+: trim text := by
  obtain ⟨cs, hcs, htext, _⟩ := trimStart_spec text
  obtain ⟨ws, hws, htrim⟩ := trimEnd_append (trimStart text)
  obtain ⟨pre, post, heq⟩ := h
  obtain ⟨pre, rfl⟩ : ∃ p, pre = cs.flatten ++ p := by
    rw [htext, List.append_assoc, List.append_eq_append_iff] at heq
    rcases heq with ⟨d, hd, hrest⟩ | ⟨d, hd, -⟩
    · cases d with
      | nil => exact ⟨[], by simpa using hd.symm⟩
      | cons x d =>
        obtain ⟨rfl, -⟩ := List.cons.inj hrest
        exact absurd (hd ▸ by simp) (hb.not_mem hcs)
    · exact ⟨d, hd⟩
  have hmid : pre ++ (b :: (w ++ [e])) ++ post = trimStart text := by
    rw [htext, List.append_assoc, List.append_assoc, List.append_right_inj] at heq
    rw [← heq, List.append_assoc]
  rw [htrim] at hmid
  have hlast : e ∉ ws := fun hm => he.2 (blank_ascii hws hm he.1)
  rcases List.append_eq_append_iff.mp hmid with ⟨d, hd, -⟩ | ⟨d, hd, hrest⟩
  · exact ⟨pre, d, hd.symm⟩
  · rcases List.eq_nil_or_concat d with rfl | ⟨d, x, rfl⟩
    · rw [List.append_nil] at hd
      exact ⟨pre, [], by rw [List.append_nil, hd, trim]⟩
    · rw [List.concat_eq_append, ← List.cons_append, ← List.append_assoc, ← List.append_assoc] at hd
      obtain ⟨-, hx⟩ := List.append_inj' hd rfl
      obtain rfl := (List.cons.inj hx).1
      exact absurd (hrest ▸ by simp) hlast

end PulseNull.Text
