import PulseNull.Context.MicroCompact
import PulseNull.Text.JoinLines

/-! What a truncation keeps of a text, and the texts that the next one leaves as they are. -/
namespace PulseNull.Context
open Text (newline ascii lineTexts joinLines)

def truncationMarker (n : ℕ) : Bytes := ascii "[... " ++ Text.decimal n ++ ascii " lines truncated ...]"

/-- A text after one pass over it. -/
def cut (text : Bytes) : Bytes := (tryTruncateString text).getD text

/-- The first and the last lines of the original, and between them the number of the others. -/
def Marked (original content : Bytes) : Prop :=
  ∃ head dropped tail, lineTexts original = head ++ dropped ++ tail ∧ head.length = microCompactHeadLines ∧
    tail.length = microCompactTailLines ∧
    content = joinLines (head ++ [[], truncationMarker dropped.length, []] ++ tail)

/-- A text that no pass truncates: within the threshold, or without lines to drop. -/
def Whole (text : Bytes) : Prop :=
  text.length / charsPerToken ≤ microCompactMaxBlockTokens ∨
    (lineTexts text).length ≤ microCompactHeadLines + microCompactTailLines

/-- The lines of a truncated text, by those of the original. -/
def pieces (ls : List Bytes) : List Bytes :=
  ls.take microCompactHeadLines ++
    [[], truncationMarker (ls.length - (microCompactHeadLines + microCompactTailLines)), []] ++
    ls.drop (ls.length - microCompactTailLines)

/-- A text that a truncation gives back. -/
def Steady (text : Bytes) : Prop := Whole text ∨ joinLines (pieces (lineTexts text)) = text

instance wholeDecidable (text : Bytes) : Decidable (Whole text) := inferInstanceAs (Decidable (_ ∨ _))

/-- What stays of a text that a pass may truncate. -/
def kept (text : Bytes) : Bytes := if Whole text then text else joinLines (pieces (lineTexts text))

/-- The empty lines around the marker are dropped with it, and it gives their number: no line that is
kept loses a carriage return, and the empty line at the end, which is no line, is one of empty lines. -/
def Recut (ls : List Bytes) : Prop :=
  let tail := ls.drop (ls.length - microCompactTailLines)
  (∀ l ∈ ls.take microCompactHeadLines, l.getLast? ≠ some 13) ∧
    ((ls.length = 33 ∧ (∀ l ∈ tail.dropLast, l.getLast? ≠ some 13) ∧ tail.getLast? ≠ some []) ∨
      (ls.length = 32 ∧ ∀ l ∈ tail, l = []))

/-- A text that one truncation settles: it is whole, or what is kept of it is within the threshold, or
the next truncation drops the same number of lines. -/
def Lasting (text : Bytes) : Prop :=
  Whole text ∨
    (((pieces (lineTexts text)).map List.length).sum + 32) / charsPerToken ≤ microCompactMaxBlockTokens ∨
    Recut (lineTexts text)

section cut
variable {text : Bytes}

theorem newline_not_mem_marker (n : ℕ) : newline ∉ truncationMarker n := by
  have hd : newline ∉ Text.decimal n := fun h => absurd (Text.decimal_digits n newline h) (by decide)
  simp only [truncationMarker, List.mem_append, hd, or_false]
  decide

theorem getLast_marker (n : ℕ) : (truncationMarker n).getLast? = some 93 := by
  have hl : (ascii " lines truncated ...]").getLast? = some 93 := by decide
  rw [truncationMarker, List.getLast?_append, hl]
  rfl

theorem truncationMarker_injective {m n : ℕ} (h : truncationMarker m = truncationMarker n) : m = n := by
  have hd := List.append_cancel_left (List.append_cancel_right h)
  rw [← Text.digitsValue_decimal m, hd, Text.digitsValue_decimal]

theorem pieces_append {head mid tail : List Bytes} (hh : head.length = microCompactHeadLines)
    (ht : tail.length = microCompactTailLines) :
    pieces (head ++ mid ++ tail) = head ++ [[], truncationMarker mid.length, []] ++ tail := by
  have hn : (head ++ mid ++ tail).length - (microCompactHeadLines + microCompactTailLines) = mid.length := by
    simp only [List.length_append, hh, ht]
    omega
  have hd : (head ++ mid ++ tail).length - microCompactTailLines = (head ++ mid).length := by
    rw [List.length_append, ht, Nat.add_sub_cancel]
  rw [pieces, hn, hd, List.drop_left, List.append_assoc head, ← hh, List.take_left]

/-- The head, the lines that are dropped, and the tail. -/
theorem lines_parts {ls : List Bytes} (h : microCompactHeadLines + microCompactTailLines ≤ ls.length) :
    ∃ mid : List Bytes, ls = ls.take microCompactHeadLines ++ mid ++ ls.drop (ls.length - microCompactTailLines) ∧
      (ls.take microCompactHeadLines).length = microCompactHeadLines ∧
      (ls.drop (ls.length - microCompactTailLines)).length = microCompactTailLines := by
  simp only [microCompactHeadLines, microCompactTailLines] at h ⊢
  refine ⟨(ls.drop 20).take (ls.length - 30), ?_, ?_, ?_⟩
  · have hd : ls.drop (ls.length - 10) = (ls.drop 20).drop (ls.length - 30) := by
      rw [List.drop_drop]
      congr 1
      omega
    rw [hd, List.append_assoc, List.take_append_drop, List.take_append_drop]
  · rw [List.length_take]
    exact Nat.min_eq_left (by omega)
  · rw [List.length_drop]
    omega

theorem truncate_eq (h : microCompactHeadLines + microCompactTailLines < (lineTexts text).length) :
    truncatePreservingEnds text microCompactHeadLines microCompactTailLines =
      joinLines (pieces (lineTexts text)) := by
  obtain ⟨mid, -, hh, ht⟩ := lines_parts h.le
  have hlong : ¬ ((Text.lines text).map Text.Line.content).length ≤ microCompactHeadLines + microCompactTailLines :=
    Nat.not_le.mpr h
  have hhead : (lineTexts text).take microCompactHeadLines ≠ [] := fun he => by
    rw [he] at hh
    cases hh
  have htail : (lineTexts text).drop ((lineTexts text).length - microCompactTailLines) ≠ [] := fun he => by
    rw [he] at ht
    cases ht
  rw [pieces, Text.joinLines_append (by simp) htail, Text.joinLines_append hhead (by simp),
    Text.joinLines_cons [] (by simp), Text.joinLines_cons _ (by simp), Text.joinLines_singleton,
    truncatePreservingEnds, if_neg hlong, truncationMarker]
  have he : ascii "\n\n[... " = [newline, newline] ++ ascii "[... " := by decide
  have hn : ascii " lines truncated ...]\n\n" = ascii " lines truncated ...]" ++ [newline, newline] := by decide
  simp only [he, hn, joinLines, lineTexts, Nat.sub_add_eq, List.append_assoc, List.cons_append, List.nil_append]

theorem Whole.cut_eq (h : Whole text) : cut text = text := by
  unfold cut tryTruncateString
  obtain h | h := h
  · rw [if_neg (Nat.not_lt.mpr h), Option.getD_none]
  · split
    · exact if_pos h
    · rfl

theorem lines_of_not_whole (h : ¬ Whole text) :
    microCompactHeadLines + microCompactTailLines < (lineTexts text).length := Nat.not_le.mp (not_or.mp h).2

theorem cut_of_not_whole (h : ¬ Whole text) : cut text = joinLines (pieces (lineTexts text)) := by
  rw [cut, tryTruncateString, if_pos (Nat.not_le.mp (not_or.mp h).1), Option.getD_some,
    truncate_eq (lines_of_not_whole h)]

theorem cut_eq_kept (text : Bytes) : cut text = kept text := by
  unfold kept
  split
  · next h => exact h.cut_eq
  · next h => exact cut_of_not_whole h

theorem cut_eq_self_iff : cut text = text ↔ Steady text := by
  rw [cut_eq_kept, kept, Steady]
  split
  · next h => exact iff_of_true rfl (.inl h)
  · next h => exact (or_iff_right h).symm

/-- A truncated text says how many lines of the original it leaves out. -/
theorem cut_cases (text : Bytes) : cut text = text ∨ Marked text (cut text) := by
  by_cases h : Whole text
  · exact .inl h.cut_eq
  obtain ⟨mid, he, hh, ht⟩ := lines_parts (lines_of_not_whole h).le
  refine .inr ⟨_, mid, _, he, hh, ht, ?_⟩
  rw [cut_of_not_whole h, ← pieces_append hh ht, ← he]

/-- The lines of a truncated text. -/
private def around (head tail : List Bytes) (n : ℕ) : List Bytes := head ++ [[], truncationMarker n, []] ++ tail

private theorem around_inj {head head' tail tail' : List Bytes} {m n : ℕ} (hlen : head.length = head'.length) :
    around head tail m = around head' tail' n ↔ head = head' ∧ m = n ∧ tail = tail' := by
  constructor
  · intro h
    rw [around, around, List.append_assoc, List.append_assoc] at h
    obtain ⟨hh, hrest⟩ := List.append_inj h hlen
    simp only [List.cons_append, List.nil_append, List.cons.injEq, true_and] at hrest
    exact ⟨hh, truncationMarker_injective hrest.1, hrest.2⟩
  · rintro ⟨rfl, rfl, rfl⟩
    rfl

/-- Where an empty line moves from the end to the start of the tail, all of it is empty. -/
private theorem shifted_eq {ls : List Bytes} : [] :: ls.map Text.dropReturn = ls ++ [[]] ↔ ∀ l ∈ ls, l = [] := by
  induction ls with
  | nil => simp
  | cons l rest ih =>
    rw [List.map_cons, List.cons_append, List.cons.injEq, List.forall_mem_cons, ← ih]
    constructor
    · rintro ⟨rfl, h⟩
      exact ⟨rfl, h⟩
    · rintro ⟨rfl, h⟩
      exact ⟨rfl, h⟩

private theorem newline_not_mem_around {head tail : List Bytes} (hn : ∀ l ∈ head ++ tail, newline ∉ l) (n : ℕ) :
    ∀ l ∈ around head tail n, newline ∉ l := by
  intro l hl
  simp only [around, List.mem_append, List.mem_cons, List.not_mem_nil, or_false] at hl hn
  obtain (hl | rfl | rfl | rfl) | hl := hl
  · exact hn l (.inl hl)
  · exact List.not_mem_nil
  · exact newline_not_mem_marker n
  · exact List.not_mem_nil
  · exact hn l (.inr hl)

private theorem newline_not_mem_pieces {ls : List Bytes} (hn : ∀ l ∈ ls, newline ∉ l) :
    ∀ l ∈ pieces ls, newline ∉ l :=
  newline_not_mem_around (fun l hl => (List.mem_append.mp hl).elim (fun h => hn l (List.mem_of_mem_take h))
    fun h => hn l (List.mem_of_mem_drop h)) _

private theorem lineTexts_around {head init : List Bytes} {last : Bytes}
    (hn : ∀ l ∈ head ++ (init ++ [last]), newline ∉ l) (n : ℕ) :
    lineTexts (joinLines (around head (init ++ [last]) n)) =
      head.map Text.dropReturn ++ [[], truncationMarker n, []] ++ init.map Text.dropReturn ++
        if last = [] then [] else [last] := by
  have hmark : [[], truncationMarker n, []].map Text.dropReturn = [[], truncationMarker n, []] :=
    Text.map_dropReturn_eq.mpr (by simp [getLast_marker])
  have hls : ∀ l ∈ around head init n, newline ∉ l :=
    newline_not_mem_around (fun l hl => hn l (by simp only [List.mem_append] at hl ⊢; tauto)) n
  rw [around, ← List.append_assoc, ← around, Text.lineTexts_joinLines hls (hn last (by simp)), around,
    List.map_append, List.map_append, hmark]

/-- The pieces of the truncated text are those of the text exactly when the lines give the same number. -/
private theorem pieces_again {head mid tail : List Bytes} (hh : head.length = microCompactHeadLines)
    (ht : tail.length = microCompactTailLines) (hn : ∀ l ∈ head ++ tail, newline ∉ l) :
    32 ≤ (lineTexts (joinLines (around head tail mid.length))).length ∧
    (pieces (lineTexts (joinLines (around head tail mid.length))) = around head tail mid.length ↔
      (∀ l ∈ head, l.getLast? ≠ some 13) ∧
        ((mid.length = 3 ∧ (∀ l ∈ tail.dropLast, l.getLast? ≠ some 13) ∧ tail.getLast? ≠ some []) ∨
          (mid.length = 2 ∧ ∀ l ∈ tail, l = []))) := by
  obtain rfl | ⟨init, last, rfl⟩ := List.eq_nil_or_concat' tail
  · cases ht
  have hinit : init.length = 9 := by
    rw [List.length_append, List.length_singleton] at ht
    exact Nat.succ_injective ht
  have hhd : (head.map Text.dropReturn).length = microCompactHeadLines := by rw [List.length_map, hh]
  rw [lineTexts_around hn]
  constructor
  · simp only [List.length_append, List.length_map, hh, hinit, microCompactHeadLines, List.length_cons]
    omega
  by_cases hlast : last = []
  · subst hlast
    have hcut : head.map Text.dropReturn ++ [[], truncationMarker mid.length, []] ++ init.map Text.dropReturn ++ [] =
        head.map Text.dropReturn ++ [[], truncationMarker mid.length] ++ ([] :: init.map Text.dropReturn) := by simp
    have htl : ([] :: init.map Text.dropReturn).length = microCompactTailLines := by
      simp [hinit, microCompactTailLines]
    rw [if_pos rfl, hcut, pieces_append hhd htl]
    refine (around_inj (by rw [hhd, hh])).trans ?_
    rw [Text.map_dropReturn_eq, shifted_eq]
    simp [eq_comm (a := 2), or_imp]
  · have hcut : head.map Text.dropReturn ++ [[], truncationMarker mid.length, []] ++ init.map Text.dropReturn ++
        [last] = head.map Text.dropReturn ++ [[], truncationMarker mid.length, []] ++
          (init.map Text.dropReturn ++ [last]) := by simp
    have htl : (init.map Text.dropReturn ++ [last]).length = microCompactTailLines := by
      simp [hinit, microCompactTailLines]
    rw [if_neg hlast, hcut, pieces_append hhd htl]
    refine (around_inj (by rw [hhd, hh])).trans ?_
    rw [Text.map_dropReturn_eq, List.append_left_inj, Text.map_dropReturn_eq]
    simp [eq_comm (a := 3), hlast]

/-- A truncation at most doubles a text, apart from the marker. -/
theorem length_cut_le (h : text.length < 10 ^ 20) : (cut text).length ≤ 2 * text.length + 100 := by
  rw [cut_eq_kept, kept]
  split
  · omega
  · next hw =>
    have hne : pieces (lineTexts text) ≠ [] := by simp [pieces]
    have hsum := Text.length_joinLines hne
    have hall := Text.sum_length_lineTexts_le text
    have hmark : (truncationMarker ((lineTexts text).length - (microCompactHeadLines + microCompactTailLines))).length
        ≤ 46 := by
      have hcount := Text.length_lineTexts_le text
      have hd := Text.decimal_length_le (k := 20)
        (n := (lineTexts text).length - (microCompactHeadLines + microCompactTailLines)) (by decide)
        (by simp only [microCompactHeadLines, microCompactTailLines]; omega)
      have h1 : (ascii "[... ").length = 5 := by decide
      have h2 : (ascii " lines truncated ...]").length = 21 := by decide
      simp only [truncationMarker, List.length_append, h1, h2]
      omega
    have hlen : (pieces (lineTexts text)).length = 33 := by
      obtain ⟨mid, he, hh, ht⟩ := lines_parts (lines_of_not_whole hw).le
      rw [pieces, List.length_append, List.length_append, hh, ht]
      rfl
    have htake := (List.take_sublist microCompactHeadLines (lineTexts text)).map List.length
    have hdrop := (List.drop_sublist ((lineTexts text).length - microCompactTailLines)
      (lineTexts text)).map List.length
    have hhead := htake.sum_le_sum (by simp)
    have htail := hdrop.sum_le_sum (by simp)
    rw [hlen] at hsum
    simp only [pieces, List.map_append, List.sum_append, List.map_cons, List.map_nil, List.sum_cons, List.sum_nil,
      List.length_nil] at hsum hhead htail ⊢
    omega

/-- The next truncation leaves a truncated text as it is exactly where the text is a lasting one. -/
theorem cut_cut_iff (text : Bytes) : cut (cut text) = cut text ↔ Lasting text := by
  by_cases hw : Whole text
  · exact iff_of_true (by rw [hw.cut_eq, hw.cut_eq]) (.inl hw)
  obtain ⟨mid, he, hh, ht⟩ := lines_parts (lines_of_not_whole hw).le
  have hn := Text.lineTexts_no_newline text
  have hcut := cut_of_not_whole hw
  rw [Lasting, or_iff_right hw]
  generalize lineTexts text = ls at he hh ht hn hcut
  have hp : pieces ls = around (ls.take microCompactHeadLines) (ls.drop (ls.length - microCompactTailLines))
      mid.length := by
    conv_lhs => rw [he, pieces_append hh ht]
    rfl
  have hlen := congrArg List.length he
  rw [List.length_append, List.length_append, hh, ht] at hlen
  simp only [microCompactHeadLines, microCompactTailLines] at hlen
  have hsize : (cut text).length = ((pieces ls).map List.length).sum + 32 := by
    have hne : pieces ls ≠ [] := by
      rw [hp]
      simp [around]
    have h33 : (pieces ls).length = 33 := by
      rw [hp, around, List.length_append, List.length_append, hh, ht]
      rfl
    have := Text.length_joinLines hne
    rw [← hcut, h33] at this
    exact Nat.succ_injective this
  by_cases hs : (((pieces ls).map List.length).sum + 32) / charsPerToken ≤ microCompactMaxBlockTokens
  · exact iff_of_true (Whole.cut_eq (.inl (hsize ▸ hs))) (.inl hs)
  -- The truncated text is truncated again: its lines must give the same pieces.
  rw [or_iff_right hs]
  obtain ⟨hcount, hagain⟩ := pieces_again hh ht fun l hl =>
    (List.mem_append.mp hl).elim (fun h => hn l (List.mem_of_mem_take h)) fun h => hn l (List.mem_of_mem_drop h)
  rw [← hp] at hcount hagain
  have hw' : ¬ Whole (cut text) := by
    rintro (h | h)
    · exact hs (hsize ▸ h)
    · rw [hcut] at h
      exact absurd (hcount.trans h) (by decide)
  have h3 : ls.length = 33 ↔ mid.length = 3 := by omega
  have h2 : ls.length = 32 ↔ mid.length = 2 := by omega
  rw [cut_of_not_whole hw', hcut, Recut, h3, h2, ← hagain]
  constructor
  · exact Text.joinLines_injective (newline_not_mem_pieces (Text.lineTexts_no_newline _)) (newline_not_mem_pieces hn)
      (by simp [pieces]) (by simp [pieces])
  · exact congrArg joinLines

end cut
end PulseNull.Context
