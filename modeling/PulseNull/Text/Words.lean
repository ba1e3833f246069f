import PulseNull.Text.Trim

/-! Words of a text, as `split_whitespace` finds them. -/
namespace PulseNull.Text

def endWord (word : Bytes) : List Bytes := if word = [] then [] else [word]

/-- The words of a text, the first of them begun already with `word`. -/
def wordsFrom : Nat → Bytes → Bytes → List Bytes
  | n + 1, word, c :: cs => match stripBlank (c :: cs) with
    | some rest => endWord word ++ wordsFrom n [] rest
    | none => wordsFrom n (word ++ [c]) cs
  | _, word, _ => endWord word

def splitWhitespace (text : Bytes) : List Bytes := wordsFrom text.length [] text

/-- ASCII without whitespace, and not empty. -/
def IsWord (w : Bytes) : Prop := w ≠ [] ∧ ∀ b ∈ w, IsInk b

theorem stripBlank_length {text rest : Bytes} (h : stripBlank text = some rest) :
    rest.length < text.length := by
  obtain ⟨c, hc, rfl⟩ := stripBlank_eq_some h
  have := List.length_pos_iff.mpr hc.ne_nil
  rw [List.length_append]
  omega

theorem IsInk.stripBlank {b : UInt8} (hb : IsInk b) (rest : Bytes) :
    stripBlank (b :: rest) = none := by
  by_contra hne
  obtain ⟨r, hr⟩ := Option.ne_none_iff_exists'.mp hne
  obtain ⟨c, hc, heq⟩ := stripBlank_eq_some hr
  obtain ⟨d, ds, rfl⟩ := List.exists_cons_of_ne_nil hc.ne_nil
  obtain ⟨rfl, -⟩ := List.cons.inj heq
  exact hb.not_mem (List.forall_mem_singleton.mpr hc) (by simp)

/-- ASCII at the end of a text makes no whitespace of what was none. -/
theorem stripBlank_snoc {text : Bytes} (hne : text ≠ []) {b : UInt8} (hb : b < 128) :
    stripBlank (text ++ [b]) = (stripBlank text).map (· ++ [b]) := by
  cases h : stripBlank text with
  | some rest =>
    obtain ⟨c, hc, rfl⟩ := stripBlank_eq_some h
    rw [List.append_assoc, stripBlank_append hc]
    rfl
  | none =>
    by_contra hsome
    obtain ⟨r, hr⟩ := Option.ne_none_iff_exists'.mp hsome
    obtain ⟨c, hc, heq⟩ := stripBlank_eq_some hr
    rcases List.append_eq_append_iff.mp heq with ⟨d, rfl, hd⟩ | ⟨d, rfl, -⟩
    · cases d with
      | nil =>
        rw [List.append_nil] at hc
        cases h.symm.trans hc
      | cons e d =>
        obtain ⟨rfl, hnil⟩ := List.cons.inj hd
        obtain ⟨rfl, -⟩ := List.append_eq_nil_iff.mp hnil.symm
        rcases hc.shape with ⟨x, hx, -⟩ | ⟨x, cs, hx, -, -, -, hcont⟩
        · have hlen := congrArg List.length hx
          have hpos := List.length_pos_iff.mpr hne
          simp only [List.length_append, List.length_singleton] at hlen
          omega
        · obtain ⟨y, ys, rfl⟩ := List.exists_cons_of_ne_nil hne
          obtain ⟨-, rfl⟩ := List.cons.inj hx
          have hc := hcont b (by simp)
          simp only [isCont, Bool.and_eq_true, decide_eq_true_eq] at hc
          exact absurd hc.1 (UInt8.not_le.mpr hb)
    · rw [stripBlank_append hc] at h
      cases h

theorem wordsFrom_fuel {n : Nat} : ∀ {m : Nat} {text : Bytes} (word : Bytes), text.length ≤ n →
    text.length ≤ m → wordsFrom n word text = wordsFrom m word text := by
  induction n with
  | zero =>
    intro m text word hn _
    obtain rfl := List.length_eq_zero_iff.mp (Nat.le_zero.mp hn)
    cases m <;> rfl
  | succ n ih =>
    intro m text word hn hm
    cases text with
    | nil => cases m <;> rfl
    | cons c cs =>
      obtain ⟨m, rfl⟩ := Nat.exists_eq_succ_of_ne_zero (Nat.ne_of_gt (Nat.lt_of_lt_of_le
        (by simp) hm))
      simp only [List.length_cons] at hn hm
      rw [wordsFrom, wordsFrom]
      cases h : stripBlank (c :: cs) with
      | none => exact ih _ (by omega) (by omega)
      | some rest =>
        have hlt := stripBlank_length h
        rw [List.length_cons] at hlt
        exact congrArg (endWord word ++ ·) (ih [] (by omega) (by omega))

private theorem wordsFrom_ink {w : Bytes} (hw : ∀ b ∈ w, IsInk b) (n : Nat) (word rest : Bytes) :
    wordsFrom (w.length + n) word (w ++ rest) = wordsFrom n (word ++ w) rest := by
  induction w generalizing word with
  | nil => simp
  | cons b w ih =>
    have hb := (hw b (by simp)).stripBlank (w ++ rest)
    rw [List.length_cons, Nat.add_right_comm, List.cons_append, wordsFrom, hb]
    simpa using ih (fun x hx => hw x (by simp [hx])) (word ++ [b])

theorem IsWord.splitWhitespace {w : Bytes} (hw : IsWord w) : splitWhitespace w = [w] := by
  have h := wordsFrom_ink hw.2 0 [] []
  rw [Nat.add_zero, List.append_nil] at h
  rw [Text.splitWhitespace, h]
  exact if_neg hw.1

theorem IsWord.splitWhitespace_cons {w : Bytes} (hw : IsWord w) (rest : Bytes) :
    Text.splitWhitespace (w ++ 32 :: rest) = w :: Text.splitWhitespace rest := by
  have h := wordsFrom_ink hw.2 (rest.length + 1) [] (32 :: rest)
  rw [Text.splitWhitespace, List.length_append, List.length_cons, h, wordsFrom]
  have hs : stripBlank (32 :: rest) = some rest := rfl
  rw [hs, List.nil_append, endWord, if_neg hw.1]
  rfl

private theorem wordsFrom_word {n : Nat} : ∀ {word text : Bytes}, (∀ b ∈ word, IsInk b) →
    (∀ b ∈ text, b < 128) → text.length ≤ n → ∀ w ∈ wordsFrom n word text, IsWord w := by
  have ends {word : Bytes} (hword : ∀ b ∈ word, IsInk b) : ∀ w ∈ endWord word, IsWord w := by
    intro w hw
    unfold endWord at hw
    split at hw
    · simp at hw
    · next hne =>
      obtain rfl := List.mem_singleton.mp hw
      exact ⟨hne, hword⟩
  induction n with
  | zero =>
    intro word text hword _ hlen w hw
    obtain rfl := List.length_eq_zero_iff.mp (Nat.le_zero.mp hlen)
    exact ends hword w hw
  | succ n ih =>
    intro word text hword htext hlen w hw
    cases text with
    | nil => exact ends hword w hw
    | cons c cs =>
      rw [List.forall_mem_cons] at htext
      rw [List.length_cons] at hlen
      rw [wordsFrom] at hw
      cases hs : stripBlank (c :: cs) with
      | some rest =>
        rw [hs] at hw
        have hlt := stripBlank_length hs
        rw [List.length_cons] at hlt
        obtain ⟨blank, _, hrest⟩ := stripBlank_eq_some hs
        obtain hw | hw := List.mem_append.mp hw
        · exact ends hword w hw
        · refine ih (by simp) (fun b hb => ?_) (by omega) w hw
          have hmem : b ∈ c :: cs := hrest ▸ List.mem_append_right _ hb
          obtain rfl | hmem := List.mem_cons.mp hmem
          · exact htext.1
          · exact htext.2 b hmem
      | none =>
        rw [hs] at hw
        have hink : IsInk c := by
          refine ⟨htext.1, fun hc => ?_⟩
          have hblank : IsBlankChar [c] := by simp [IsBlankChar, stripBlank, hc]
          have hstrip := stripBlank_append hblank cs
          rw [List.singleton_append, hs] at hstrip
          simp at hstrip
        refine ih (fun b hb => ?_) htext.2 (by omega) w hw
        obtain hb | hb := List.mem_append.mp hb
        · exact hword b hb
        · exact List.mem_singleton.mp hb ▸ hink

/-- The words of an ASCII text. -/
theorem splitWhitespace_word {text : Bytes} (h : ∀ b ∈ text, b < 128) :
    ∀ w ∈ splitWhitespace text, IsWord w :=
  wordsFrom_word (by simp) h le_rfl

/-- A carriage return at the end belongs to no word. -/
theorem splitWhitespace_return (text : Bytes) :
    splitWhitespace (text ++ [13]) = splitWhitespace text := by
  have from_ : ∀ n word text, List.length text ≤ n →
      wordsFrom (n + 1) word (text ++ [13]) = wordsFrom n word text := by
    intro n
    induction n with
    | zero =>
      intro word text hn
      obtain rfl := List.length_eq_zero_iff.mp (Nat.le_zero.mp hn)
      simp [wordsFrom, stripBlank, endWord]
    | succ n ih =>
      intro word text hn
      cases text with
      | nil => simp [wordsFrom, stripBlank, endWord]
      | cons c cs =>
        have hs := @stripBlank_snoc (c :: cs) (by simp) 13 (by decide)
        rw [List.cons_append] at hs ⊢
        rw [wordsFrom, hs, wordsFrom]
        rw [List.length_cons] at hn
        cases h : stripBlank (c :: cs) with
        | none => exact ih _ _ (by omega)
        | some rest =>
          have hlt := stripBlank_length h
          rw [List.length_cons] at hlt
          exact congrArg (endWord word ++ ·) (ih [] rest (by omega))
  rw [splitWhitespace, List.length_append, List.length_singleton]
  exact from_ text.length [] text le_rfl

end PulseNull.Text
