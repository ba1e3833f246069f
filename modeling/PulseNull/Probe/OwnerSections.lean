import PulseNull.Probe.Owner
import PulseNull.Text.LineTexts

/-! When the owner's words come back as they were: a composed turn by its last marker, an archive
by the lines that look like its headings and separators. -/
namespace PulseNull.Probe
open Text (ascii newline trim Complete linesText linesText_cons linesText_append)
open Session (Role ContentBlock MessageContent Message ArchiveMeta)
open Scheduler (splitFirst)
open scoped List

/-! Lines found in a text. -/

/-- Lines, each after its newline. -/
def linesAfter (ls : List Bytes) : Bytes := ls.flatMap (newline :: ·)

theorem linesAfter_newline (ls : List Bytes) : linesAfter ls ++ [newline] = newline :: linesText ls := by
  induction ls with
  | nil => rfl
  | cons l ls ih =>
    rw [linesText_cons, ← ih]
    simp [linesAfter]

/-- The line `mark`, between newlines. -/
abbrev marked (mark : Bytes) : Bytes := newline :: (mark ++ [newline])

private theorem splitFirst_skip {part : Bytes} {d : UInt8} {l : Bytes} (hl : d ∉ l) (y : Bytes) :
    splitFirst (d :: part) (l ++ y) = (splitFirst (d :: part) y).map fun p => (l ++ p.1, p.2) := by
  induction l with
  | nil => simp
  | cons c l ih =>
    have hc : ¬(d :: part).isPrefixOf (c :: (l ++ y)) = true := by
      rw [List.isPrefixOf_iff_prefix, List.cons_prefix_cons]
      exact fun h => hl (by simp [h.1])
    rw [List.cons_append, splitFirst, if_neg hc, ih fun h => hl (by simp [h]), Option.map_map]
    rfl

private theorem line_prefix {mark l : Bytes} (hm : newline ∉ mark) (hl : newline ∉ l) (y : Bytes) :
    mark ++ [newline] <+: l ++ newline :: y ↔ l = mark := by
  constructor
  · rintro ⟨z, hz⟩
    have hz : mark ++ newline :: z = l ++ newline :: y := by simpa using hz
    have hmark := Text.lines_line hm z
    rw [hz, Text.lines_line hl y] at hmark
    exact congrArg Text.Line.bytes (List.cons.inj hmark).1
  · rintro rfl
    exact ⟨y, by simp⟩

/-- The first of some lines is the mark, or the search goes on after it. -/
private theorem splitFirst_line {mark l x : Bytes} (hm : newline ∉ mark) (hl : newline ∉ l)
    (hx : newline ∉ x) (ls : List Bytes) :
    splitFirst (marked mark) (l ++ newline :: linesText (x :: ls)) =
      if x = mark then some (l, linesText ls)
      else (splitFirst (marked mark) (x ++ newline :: linesText ls)).map
        fun p => (l ++ newline :: p.1, p.2) := by
  have hstarts : (marked mark).isPrefixOf (newline :: linesText (x :: ls)) = true ↔ x = mark := by
    rw [List.isPrefixOf_iff_prefix, List.cons_prefix_cons, linesText_cons, line_prefix hm hx]
    simp
  rw [splitFirst_skip hl, splitFirst]
  by_cases h : x = mark
  · rw [if_pos (hstarts.mpr h), if_pos h, linesText_cons, h]
    simp
  · rw [if_neg (mt hstarts.mp h), if_neg h, linesText_cons, Option.map_map]
    rfl

private theorem splitFirst_end {mark l : Bytes} (hl : newline ∉ l) :
    splitFirst (marked mark) (l ++ [newline]) = none := by
  have hstarts : ¬(marked mark).isPrefixOf [newline] = true := by
    rw [List.isPrefixOf_iff_prefix, List.cons_prefix_cons]
    simp
  rw [splitFirst_skip hl, splitFirst, if_neg hstarts, splitFirst]
  simp

/-- The first mark among some lines. -/
private theorem splitFirst_mark {mark : Bytes} (hm : newline ∉ mark) {u : List Bytes}
    (hu : ∀ l ∈ u, newline ∉ l) (hnot : mark ∉ u) (v : List Bytes) : ∀ {l : Bytes}, newline ∉ l →
    splitFirst (marked mark) (l ++ newline :: linesText (u ++ mark :: v)) =
      some (l ++ linesAfter u, linesText v) := by
  induction u with
  | nil =>
    intro l hl
    rw [List.nil_append, splitFirst_line hm hl hm, if_pos rfl]
    simp [linesAfter]
  | cons x u ih =>
    intro l hl
    obtain ⟨hx, hu⟩ := List.forall_mem_cons.mp hu
    have hne : x ≠ mark := fun h => hnot (by simp [h])
    rw [List.cons_append, splitFirst_line hm hl hx, if_neg hne, ih hu (fun h => hnot (by simp [h])) hx]
    simp [linesAfter]

private theorem splitFirst_no_mark {mark : Bytes} (hm : newline ∉ mark) {u : List Bytes}
    (hu : ∀ l ∈ u, newline ∉ l) (hnot : mark ∉ u) : ∀ {l : Bytes}, newline ∉ l →
    splitFirst (marked mark) (l ++ newline :: linesText u) = none := by
  induction u with
  | nil => exact fun hl => splitFirst_end hl
  | cons x u ih =>
    intro l hl
    obtain ⟨hx, hu⟩ := List.forall_mem_cons.mp hu
    have hne : x ≠ mark := fun h => hnot (by simp [h])
    rw [splitFirst_line hm hl hx, if_neg hne, ih hu (fun h => hnot (by simp [h])) hx]
    rfl

/-! Sections of a text of lines. -/

def userLine : Bytes := ascii "### User"

def breakLine : Bytes := ascii "---"

private theorem userHeading_eq : userHeading = marked userLine := rfl

private theorem turnBreak_eq : turnBreak = marked breakLine := rfl

private theorem userSections_fuel (n : Nat) : ∀ {m : Nat} {text : Bytes}, text.length ≤ n →
    text.length ≤ m → userSectionsFrom n text = userSectionsFrom m text := by
  induction n with
  | zero =>
    intro m text hn _
    obtain rfl := List.length_eq_zero_iff.mp (Nat.le_zero.mp hn)
    cases m <;> rfl
  | succ n ih =>
    intro m text hn hm
    cases m with
    | zero =>
      obtain rfl := List.length_eq_zero_iff.mp (Nat.le_zero.mp hm)
      rfl
    | succ m =>
      rw [userSectionsFrom, userSectionsFrom]
      cases hh : splitFirst userHeading text with
      | none => rfl
      | some p =>
        obtain ⟨before, body⟩ := p
        cases hb : splitFirst turnBreak body with
        | none => simp only [hb]
        | some q =>
          obtain ⟨said, after⟩ := q
          have htext := congrArg List.length (Scheduler.splitFirst_some hh).1
          have hbody := congrArg List.length (Scheduler.splitFirst_some hb).1
          have hlen : userHeading.length = 10 := rfl
          simp only [List.length_append, hlen] at htext hbody
          have hrest : (turnBreak ++ after).length < text.length := by
            rw [List.length_append]
            omega
          simp only [hb]
          rw [ih (Nat.le_of_lt_succ (hrest.trans_le hn)) (Nat.le_of_lt_succ (hrest.trans_le hm))]

private theorem userSections_eq (text : Bytes) : userSections text =
    match splitFirst userHeading text with
    | none => []
    | some (_, body) => match splitFirst turnBreak body with
      | some (said, after) => said :: userSections (turnBreak ++ after)
      | none => [body] := by
  have h : userSections text = userSectionsFrom (text.length + 1) text :=
    userSections_fuel _ le_rfl (Nat.le_succ _)
  rw [h, userSectionsFrom]
  cases hh : splitFirst userHeading text with
  | none => rfl
  | some p =>
    obtain ⟨before, body⟩ := p
    cases hb : splitFirst turnBreak body with
    | none => simp only [hb]
    | some q =>
      obtain ⟨said, after⟩ := q
      have htext := congrArg List.length (Scheduler.splitFirst_some hh).1
      have hbody := congrArg List.length (Scheduler.splitFirst_some hb).1
      have hlen : userHeading.length = 10 := rfl
      simp only [List.length_append, hlen] at htext hbody
      have hrest : (turnBreak ++ after).length ≤ text.length := by
        rw [List.length_append]
        omega
      simp only [hb]
      rw [userSections_fuel _ hrest le_rfl]
      rfl

/-- Sections of the lines `ls`, after a first line. -/
def sections (ls : List Bytes) : List Bytes := userSections (newline :: linesText ls)

theorem userSections_line {l : Bytes} (hl : newline ∉ l) (ls : List Bytes) :
    userSections (l ++ newline :: linesText ls) = sections ls := by
  rw [sections, userSections_eq, userSections_eq (newline :: _), userHeading_eq,
    splitFirst_skip hl]
  cases splitFirst (marked userLine) (newline :: linesText ls) <;> rfl

theorem sections_nil : sections [] = [] := rfl

theorem sections_skip {x : Bytes} (hx : newline ∉ x) (hne : x ≠ userLine) (ls : List Bytes) :
    sections (x :: ls) = sections ls := by
  have hsplit := splitFirst_line (l := []) (by decide : newline ∉ userLine) (by simp) hx ls
  rw [if_neg hne, List.nil_append] at hsplit
  rw [← userSections_line hx ls, sections, userSections_eq, userSections_eq (x ++ _), userHeading_eq,
    hsplit]
  cases splitFirst (marked userLine) (x ++ newline :: linesText ls) <;> rfl

/-- A heading takes the lines up to the next separator. -/
private theorem sections_heading (ls : List Bytes) : sections (userLine :: ls) =
    match splitFirst turnBreak (linesText ls) with
    | some (said, after) => said :: userSections (turnBreak ++ after)
    | none => [linesText ls] := by
  have hm : newline ∉ userLine := by decide
  have hsplit := splitFirst_line (l := []) hm (by simp) hm ls
  rw [if_pos rfl, List.nil_append] at hsplit
  rw [sections, userSections_eq, userHeading_eq, hsplit]

theorem sections_open (b : Bytes) {u : List Bytes} (hb : newline ∉ b)
    (hu : ∀ l ∈ u, newline ∉ l) (hnot : breakLine ∉ u) :
    sections (userLine :: b :: u) = [linesText (b :: u)] := by
  rw [sections_heading, turnBreak_eq, linesText_cons,
    splitFirst_no_mark (by decide) hu hnot hb]

theorem sections_closed (b : Bytes) {u : List Bytes} (hb : newline ∉ b)
    (hu : ∀ l ∈ u, newline ∉ l) (hnot : breakLine ∉ u) (v : List Bytes) :
    sections (userLine :: b :: (u ++ breakLine :: v)) = (b ++ linesAfter u) :: sections v := by
  have hskip := sections_skip (by decide : newline ∉ breakLine) (by decide) v
  rw [sections_heading, turnBreak_eq, linesText_cons,
    splitFirst_mark (by decide) hu hnot v hb, ← hskip, sections, linesText_cons]
  simp [marked]

/-- What is read of some lines that a separator ends, with a line before it, and what follows. -/
theorem sections_cut {z : Bytes} (hz : newline ∉ z) (hhead : z ≠ userLine)
    (hbreak : breakLine ≠ z) (n : Nat) : ∀ {x : List Bytes}, x.length ≤ n →
    (∀ l ∈ x, newline ∉ l) → ∃ said, (said = [] ↔ userLine ∉ x) ∧ (z = [] → said = sections x) ∧
      ∀ y, sections (x ++ z :: breakLine :: y) = said ++ sections y := by
  have hbl : newline ∉ breakLine := by decide
  induction n with
  | zero =>
    intro x hlen _
    obtain rfl := List.length_eq_zero_iff.mp (Nat.le_zero.mp hlen)
    refine ⟨[], by simp, fun _ => rfl, fun y => ?_⟩
    rw [List.nil_append, sections_skip hz hhead, sections_skip hbl (by decide)]
    rfl
  | succ n ih =>
    intro x hlen hx
    cases x with
    | nil =>
      refine ⟨[], by simp, fun _ => rfl, fun y => ?_⟩
      rw [List.nil_append, sections_skip hz hhead, sections_skip hbl (by decide)]
      rfl
    | cons l x =>
      obtain ⟨hl, htail⟩ := List.forall_mem_cons.mp hx
      rw [List.length_cons] at hlen
      by_cases huser : l = userLine
      · subst huser
        cases x with
        | nil =>
          refine ⟨[z], by simp, ?_, fun y => ?_⟩
          · rintro rfl
            rfl
          · exact (sections_closed z (u := []) hz (by simp) (by simp) y).trans
              (by simp [linesAfter])
        | cons b x =>
          obtain ⟨hb, hbody⟩ := List.forall_mem_cons.mp htail
          by_cases hmem : breakLine ∈ x
          · obtain ⟨u, v, rfl, hnot⟩ := List.eq_append_cons_of_mem hmem
            obtain ⟨hu, hv⟩ := List.forall_mem_append.mp hbody
            obtain ⟨said, _, hend, hrest⟩ := ih (x := v)
              (by simp only [List.length_append, List.length_cons] at hlen; omega)
              fun l hl => hv l (List.mem_cons_of_mem _ hl)
            refine ⟨(b ++ linesAfter u) :: said, by simp, fun h => ?_, fun y => ?_⟩
            · rw [sections_closed b hb hu hnot, hend h]
            · have hsec := sections_closed b hb hu hnot (v ++ z :: breakLine :: y)
              rw [hrest] at hsec
              simpa using hsec
          · have hnot : breakLine ∉ x ++ [z] := by simp [hmem, hbreak]
            have hu : ∀ l ∈ x ++ [z], newline ∉ l :=
              List.forall_mem_append.mpr ⟨hbody, by simpa using hz⟩
            refine ⟨[b ++ linesAfter (x ++ [z])], by simp, ?_, fun y => ?_⟩
            · rintro rfl
              rw [sections_open b hb hbody hmem, linesText_cons, ← linesAfter_newline]
              simp [linesAfter]
            · simpa using sections_closed b hb hu hnot y
      · obtain ⟨said, hnil, hend, hrest⟩ := ih (by omega) htail
        refine ⟨said, by simp [hnil, Ne.symm huser], fun h => ?_, fun y => ?_⟩
        · rw [sections_skip hl huser, hend h]
        · rw [List.cons_append, sections_skip hl huser, hrest]

/-- Turns are read one by one. -/
theorem sections_append {x : List Bytes} (hx : ∀ l ∈ x, newline ∉ l) (y : List Bytes) :
    sections (x ++ [] :: breakLine :: y) = sections x ++ sections y := by
  obtain ⟨said, _, hend, hrest⟩ := sections_cut (z := []) (by simp) (by decide) (by decide)
    x.length le_rfl hx
  rw [hrest, hend rfl]

theorem sections_eq_nil {x : List Bytes} (hx : ∀ l ∈ x, newline ∉ l) :
    sections x = [] ↔ userLine ∉ x := by
  obtain ⟨said, hnil, hend, _⟩ := sections_cut (z := []) (by simp) (by decide) (by decide)
    x.length le_rfl hx
  rw [← hend rfl, hnil]

end PulseNull.Probe
