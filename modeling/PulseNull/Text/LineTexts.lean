import PulseNull.Text.Lines

/-! Texts written line by line, each line with its newline. -/
namespace PulseNull.Text

def linesText (ls : List Bytes) : Bytes := ls.flatMap (· ++ [newline])

@[simp] theorem linesText_nil : linesText [] = [] := rfl

theorem linesText_cons (l : Bytes) (ls : List Bytes) :
    linesText (l :: ls) = l ++ newline :: linesText ls := by simp [linesText]

theorem linesText_append (a b : List Bytes) : linesText (a ++ b) = linesText a ++ linesText b :=
  List.flatMap_append

theorem complete_linesText (ls : List Bytes) : Complete (linesText ls) := by
  induction ls with
  | nil => exact complete_nil
  | cons l ls ih => exact (complete_line l).append ih

theorem lines_linesText {ls : List Bytes} (h : ∀ l ∈ ls, newline ∉ l) :
    lines (linesText ls) = ls.map fun l => ⟨l, true⟩ := by
  induction ls with
  | nil => rfl
  | cons l ls ih =>
    obtain ⟨hl, hrest⟩ := List.forall_mem_cons.mp h
    rw [linesText_cons, lines_line hl, ih hrest, List.map_cons]

/-- A text is determined by its lines. -/
theorem linesText_injective {a b : List Bytes} (ha : ∀ l ∈ a, newline ∉ l)
    (hb : ∀ l ∈ b, newline ∉ l) (h : linesText a = linesText b) : a = b := by
  have := congrArg (fun t => (lines t).map Line.bytes) h
  simpa [lines_linesText ha, lines_linesText hb, List.map_map, Function.comp_def] using this

/-- A complete text is its lines. -/
theorem Complete.linesText_eq {text : Bytes} (h : Complete text) :
    linesText ((lines text).map Line.bytes) = text := by
  induction text using lines_induction with
  | nil => rfl
  | torn l hl hne =>
    rcases h with rfl | ⟨init, rfl⟩
    · exact absurd rfl hne
    · exact absurd (by simp) hl
  | line l rest hl ih =>
    have hrest : Complete rest := by
      rcases h with h | ⟨init, h⟩
      · simp at h
      · rcases List.eq_nil_or_concat rest with rfl | ⟨r, c, rfl⟩
        · exact complete_nil
        · have hc : (l ++ newline :: r) ++ [c] = init ++ [newline] := by simpa using h
          have hlast : c = newline := by simpa using (List.append_inj' hc rfl).2
          exact .inr ⟨r, by simp [hlast]⟩
    rw [lines_line hl, List.map_cons, linesText_cons, ih hrest]

end PulseNull.Text
