import PulseNull.Text.Lines

/-! Texts put together from lines with newlines between them, and the lines read back. -/
namespace PulseNull.Text

/-- The lines of `str::lines`. -/
def lineTexts (text : Bytes) : List Bytes := (lines text).map Line.content

def joinLines (ls : List Bytes) : Bytes := [newline].intercalate ls

/-- A carriage return before a newline is no part of the line. -/
def dropReturn (l : Bytes) : Bytes := if l.getLast? = some 13 then l.dropLast else l

@[simp] theorem joinLines_singleton (l : Bytes) : joinLines [l] = l := List.intercalate_singleton

theorem joinLines_cons {ls : List Bytes} (l : Bytes) (h : ls ≠ []) :
    joinLines (l :: ls) = l ++ newline :: joinLines ls := by
  rw [joinLines, List.intercalate_cons_of_ne_nil h, joinLines]
  simp

theorem joinLines_append {a b : List Bytes} (ha : a ≠ []) (hb : b ≠ []) :
    joinLines (a ++ b) = joinLines a ++ newline :: joinLines b := by
  induction a with
  | nil => exact absurd rfl ha
  | cons l ls ih =>
    cases ls with
    | nil => rw [List.singleton_append, joinLines_singleton, joinLines_cons l hb]
    | cons l' ls =>
      rw [List.cons_append, joinLines_cons l (by simp), ih (by simp), joinLines_cons l (by simp),
        List.append_assoc, List.cons_append]

theorem length_joinLines {ls : List Bytes} (h : ls ≠ []) :
    (joinLines ls).length + 1 = (ls.map List.length).sum + ls.length := by
  induction ls with
  | nil => exact absurd rfl h
  | cons l rest ih =>
    cases rest with
    | nil => simp
    | cons l' rest =>
      rw [joinLines_cons l (by simp), List.length_append, List.length_cons]
      have := ih (by simp)
      simp only [List.map_cons, List.sum_cons, List.length_cons] at this ⊢
      omega

theorem joinLines_injective {a b : List Bytes} (ha : ∀ l ∈ a, newline ∉ l) (hb : ∀ l ∈ b, newline ∉ l)
    (hna : a ≠ []) (hnb : b ≠ []) (h : joinLines a = joinLines b) : a = b := by
  rw [← List.splitOn_intercalate newline ha hna, ← List.splitOn_intercalate newline hb hnb]
  exact congrArg (·.splitOn newline) h

theorem dropReturn_eq_self {l : Bytes} : dropReturn l = l ↔ l.getLast? ≠ some 13 := by
  unfold dropReturn
  split
  · next h =>
    refine iff_of_false (fun he => ?_) (not_not.mpr h)
    have hne : l ≠ [] := fun h0 => by
      rw [h0] at h
      cases h
    have := congrArg List.length he
    rw [List.length_dropLast] at this
    exact absurd this (Nat.sub_one_lt (List.length_pos_iff.mpr hne).ne').ne
  · next h => simp [h]

theorem map_dropReturn_eq {ls : List Bytes} : ls.map dropReturn = ls ↔ ∀ l ∈ ls, l.getLast? ≠ some 13 := by
  simp only [← dropReturn_eq_self]
  induction ls with
  | nil => simp
  | cons l rest ih => simp [ih]

theorem content_terminated (l : Bytes) : Line.content ⟨l, true⟩ = dropReturn l := by
  simp [Line.content, dropReturn]

/-- Joined lines are read without their carriage returns; the last one is none if it is empty. -/
theorem lineTexts_joinLines {ls : List Bytes} {last : Bytes} (h : ∀ l ∈ ls, newline ∉ l) (hl : newline ∉ last) :
    lineTexts (joinLines (ls ++ [last])) = ls.map dropReturn ++ if last = [] then [] else [last] := by
  induction ls with
  | nil =>
    rw [List.nil_append, joinLines_singleton]
    split
    · next h0 =>
      subst h0
      rfl
    · next hne =>
      rw [lineTexts, lines_unterminated hl hne]
      rfl
  | cons l rest ih =>
    obtain ⟨hn, hrest⟩ := List.forall_mem_cons.mp h
    rw [List.cons_append, joinLines_cons l (by simp), lineTexts, lines_line hn, List.map_cons, content_terminated,
      List.map_cons, List.cons_append]
    exact congrArg (dropReturn l :: ·) (ih hrest)

theorem lineTexts_no_newline (text : Bytes) : ∀ l ∈ lineTexts text, newline ∉ l := by
  intro l hl
  obtain ⟨line, hline, rfl⟩ := List.mem_map.mp hl
  have hn := lines_no_newline text line hline
  unfold Line.content
  split
  · exact fun hm => hn (List.dropLast_subset _ hm)
  · exact hn

theorem sum_length_lineTexts_le (text : Bytes) : ((lineTexts text).map List.length).sum ≤ text.length := by
  have hcontent : ∀ l : Line, l.content.length ≤ l.bytes.length := by
    intro l
    unfold Line.content
    split
    · rw [List.length_dropLast]
      exact Nat.sub_le _ _
    · exact le_rfl
  unfold lineTexts
  induction text using lines_induction with
  | nil => exact le_rfl
  | torn l hl hne => simpa [lines_unterminated hl hne] using hcontent ⟨l, false⟩
  | line l rest hl ih =>
    have hfirst : (Line.content ⟨l, true⟩).length ≤ l.length := hcontent ⟨l, true⟩
    rw [lines_line hl, List.map_cons, List.map_cons, List.sum_cons, List.length_append, List.length_cons]
    omega

/-- A line that starts no newline at the end of the text counts as one. -/
theorem length_lines (text : Bytes) : (lines text).length =
    text.count newline + if text = [] ∨ text.getLast? = some newline then 0 else 1 := by
  induction text using lines_induction with
  | nil => rfl
  | torn l hl hne =>
    have hlast : l.getLast? ≠ some newline := fun he => hl (List.mem_of_getLast? he)
    rw [lines_unterminated hl hne, List.count_eq_zero.mpr hl, if_neg (by simp [hne, hlast])]
    rfl
  | line l rest hl ih =>
    have hend : (l ++ newline :: rest).getLast? = some newline ↔ rest = [] ∨ rest.getLast? = some newline := by
      cases rest with
      | nil => simp
      | cons c cs => simp [List.getLast?_append, List.getLast?_cons]
    rw [lines_line hl, List.length_cons, ih, List.count_append, List.count_cons_self, List.count_eq_zero.mpr hl]
    simp only [hend, List.append_eq_nil_iff, reduceCtorEq, and_false, false_or]
    omega

theorem length_lineTexts_le (text : Bytes) : (lineTexts text).length ≤ text.length + 1 := by
  rw [lineTexts, List.length_map, length_lines]
  have := List.count_le_length (a := newline) (l := text)
  split <;> omega

end PulseNull.Text
