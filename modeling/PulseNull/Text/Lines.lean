import PulseNull.Text.Bytes

/-! Newline-delimited files: cutting a buffer into lines and putting it back
together. Only the last line of a buffer can lack its newline. -/
namespace PulseNull.Text

/-- A line without its newline, and whether the newline was there. -/
structure Line where
  bytes : Bytes
  terminated : Bool
  deriving DecidableEq, Repr

def Line.text (l : Line) : Bytes := if l.terminated then l.bytes ++ [newline] else l.bytes

/-- A line as `str::lines` gives it. -/
def Line.content (l : Line) : Bytes :=
  if l.terminated && l.bytes.getLast? = some 13 then l.bytes.dropLast else l.bytes

def lines : Bytes → List Line
  | [] => []
  | c :: cs =>
    if c = newline then ⟨[], true⟩ :: lines cs
    else match lines cs with
      | [] => [⟨[c], false⟩]
      | l :: ls => ⟨c :: l.bytes, l.terminated⟩ :: ls

/-- Empty, or the last byte is a newline. -/
def Complete (buf : Bytes) : Prop := buf = [] ∨ ∃ init, buf = init ++ [newline]

@[simp] theorem lines_nil : lines [] = [] := rfl

theorem complete_nil : Complete [] := .inl rfl

theorem complete_snoc (buf : Bytes) : Complete (buf ++ [newline]) := .inr ⟨buf, rfl⟩

theorem Complete.append {a b : Bytes} (ha : Complete a) (hb : Complete b) : Complete (a ++ b) := by
  rcases hb with rfl | ⟨init, rfl⟩
  · simpa using ha
  · exact .inr ⟨a ++ init, by rw [List.append_assoc]⟩

theorem complete_line (l : Bytes) : Complete (l ++ [newline]) := complete_snoc l

theorem lines_line {l : Bytes} (hl : newline ∉ l) (rest : Bytes) :
    lines (l ++ newline :: rest) = ⟨l, true⟩ :: lines rest := by
  induction l with
  | nil => simp [lines]
  | cons c cs ih =>
    have hc : c ≠ newline := fun h => hl (by simp [h])
    have ht := ih (fun h => hl (by simp [h]))
    rw [List.cons_append, lines, if_neg hc, ht]

theorem lines_unterminated {l : Bytes} (hl : newline ∉ l) (hne : l ≠ []) :
    lines l = [⟨l, false⟩] := by
  induction l with
  | nil => exact absurd rfl hne
  | cons c cs ih =>
    have hc : c ≠ newline := fun h => hl (by simp [h])
    rw [lines, if_neg hc]
    cases cs with
    | nil => rfl
    | cons d ds => rw [ih (fun h => hl (by simp [h])) (by simp)]

/-- Every buffer is a first line followed by the rest, or one unterminated line. -/
theorem first_line (buf : Bytes) : newline ∉ buf ∨
    ∃ l rest, newline ∉ l ∧ buf = l ++ newline :: rest := by
  by_cases h : newline ∈ buf
  · obtain ⟨l, rest, he, hl⟩ := List.eq_append_cons_of_mem h
    exact .inr ⟨l, rest, hl, he⟩
  · exact .inl h

/-- Induction on a buffer by its lines. -/
theorem lines_induction {motive : Bytes → Prop} (nil : motive [])
    (torn : ∀ l, newline ∉ l → l ≠ [] → motive l)
    (line : ∀ l rest, newline ∉ l → motive rest → motive (l ++ newline :: rest)) :
    ∀ buf, motive buf := by
  intro buf
  induction h : buf.length using Nat.strong_induction_on generalizing buf with
  | _ n ih =>
    rcases first_line buf with hn | ⟨l, rest, hl, rfl⟩
    · by_cases he : buf = []
      · exact he ▸ nil
      · exact torn buf hn he
    · exact line l rest hl (ih rest.length (by simp at h; omega) rest rfl)

theorem lines_text (buf : Bytes) : (lines buf).flatMap Line.text = buf := by
  induction buf using lines_induction with
  | nil => rfl
  | torn l hl hne => simp [lines_unterminated hl hne, Line.text]
  | line l rest hl ih =>
    rw [lines_line hl, List.flatMap_cons, ih]
    simp [Line.text]

theorem lines_no_newline (buf : Bytes) : ∀ l ∈ lines buf, newline ∉ l.bytes := by
  induction buf using lines_induction with
  | nil => simp
  | torn l hl hne => simpa [lines_unterminated hl hne] using hl
  | line l rest hl ih =>
    rw [lines_line hl]
    intro x hx
    rcases List.mem_cons.mp hx with rfl | hx
    · exact hl
    · exact ih x hx

/-- Lines of a buffer put after a complete one. -/
theorem lines_append {a : Bytes} (ha : Complete a) (b : Bytes) :
    lines (a ++ b) = lines a ++ lines b := by
  induction a using lines_induction with
  | nil => rfl
  | torn l hl hne =>
    rcases ha with rfl | ⟨init, rfl⟩
    · exact absurd rfl hne
    · exact absurd (by simp) hl
  | line l rest hl ih =>
    have hr : Complete rest := by
      rcases ha with h | ⟨init, h⟩
      · simp at h
      · rcases List.eq_nil_or_concat rest with rfl | ⟨r, c, rfl⟩
        · exact complete_nil
        · have hc : (l ++ newline :: r) ++ [c] = init ++ [newline] := by simpa using h
          have hlast : c = newline := by simpa using (List.append_inj' hc rfl).2
          exact .inr ⟨r, by simp [hlast]⟩
    rw [List.append_assoc, List.cons_append, lines_line hl, lines_line hl, ih hr, List.cons_append]

theorem lines_append_line {a l : Bytes} (ha : Complete a) (hl : newline ∉ l) :
    lines (a ++ (l ++ [newline])) = lines a ++ [⟨l, true⟩] := by
  rw [lines_append ha, lines_line hl, lines_nil]

theorem lines_append_torn {a l : Bytes} (ha : Complete a) (hl : newline ∉ l) (hne : l ≠ []) :
    lines (a ++ l) = lines a ++ [⟨l, false⟩] := by
  rw [lines_append ha, lines_unterminated hl hne]

/-- A buffer is complete lines followed by an unterminated piece, in one way. -/
theorem exists_tail (buf : Bytes) : ∃ a l, Complete a ∧ newline ∉ l ∧ buf = a ++ l := by
  induction buf using lines_induction with
  | nil => exact ⟨[], [], complete_nil, by simp, rfl⟩
  | torn l hl hne => exact ⟨[], l, complete_nil, hl, rfl⟩
  | line l rest hl ih =>
    obtain ⟨a, t, ha, ht, rfl⟩ := ih
    refine ⟨l ++ newline :: a, t, ?_, ht, by simp⟩
    have := (complete_line l).append ha
    simpa using this

theorem tail_unique {a b l m : Bytes} (ha : Complete a) (hb : Complete b)
    (hl : newline ∉ l) (hm : newline ∉ m) (h : a ++ l = b ++ m) : a = b ∧ l = m := by
  rcases List.append_eq_append_iff.mp h with ⟨d, rfl, rfl⟩ | ⟨d, rfl, rfl⟩
  · rcases hb with hb | ⟨init, hb⟩
    · simp at hb
      simp [hb]
    · rcases List.eq_nil_or_concat d with rfl | ⟨r, c, rfl⟩
      · simp
      · have hc := congrArg List.getLast? hb
        simp at hc
        exact absurd (by simp [hc]) hl
  · rcases ha with ha | ⟨init, ha⟩
    · simp at ha
      simp [ha]
    · rcases List.eq_nil_or_concat d with rfl | ⟨r, c, rfl⟩
      · simp
      · have hc := congrArg List.getLast? ha
        simp at hc
        exact absurd (by simp [hc]) hm

/-- A nonempty complete buffer is a complete one and its last line. -/
theorem exists_last_line {buf : Bytes} (hb : Complete buf) (hne : buf ≠ []) :
    ∃ a l, Complete a ∧ newline ∉ l ∧ buf = a ++ (l ++ [newline]) := by
  rcases hb with rfl | ⟨init, rfl⟩
  · exact absurd rfl hne
  · obtain ⟨a, l, ha, hl, rfl⟩ := exists_tail init
    exact ⟨a, l, ha, hl, by rw [List.append_assoc]⟩

theorem last_line_unique {a b l m : Bytes} (ha : Complete a) (hb : Complete b)
    (hl : newline ∉ l) (hm : newline ∉ m)
    (h : a ++ (l ++ [newline]) = b ++ (m ++ [newline])) : a = b ∧ l = m := by
  rw [← List.append_assoc, ← List.append_assoc] at h
  exact tail_unique ha hb hl hm (List.append_cancel_right h)

end PulseNull.Text
