import PulseNull.Praxis.Journal
import PulseNull.Text.Words
import PulseNull.Text.LineTexts

/-! What an archive run keeps. A document is read as groups of lines, and removing its first
entries leaves groups that are read the same. -/
namespace PulseNull.Praxis
open Text (ascii newline trimStart Complete linesText complete_linesText lines_linesText
  linesText_injective)
open scoped List

/-! Groups. -/

/-- A heading that starts a block, and the lines under it. -/
structure Group where
  entry : Bool
  head : Bytes
  body : List Bytes

def Group.lines (g : Group) : List Bytes := g.head :: g.body

def Group.insideH2Entry (g : Group) : Bool := g.entry && isH2 g.head

def Group.block (g : Group) : Block :=
  if g.entry then .entry (linesText g.lines) else .furniture (linesText g.lines)

/-- The lines before the first group, and the groups. -/
def groups : Bool → List Bytes → List Bytes × List Group
  | _, [] => ([], [])
  | inside, line :: rest => match classifyLine line inside with
    | .body => (line :: (groups inside rest).1, (groups inside rest).2)
    | .entryStart =>
      ([], ⟨true, line, (groups (isH2 line) rest).1⟩ :: (groups (isH2 line) rest).2)
    | .structural => ([], ⟨false, line, (groups false rest).1⟩ :: (groups false rest).2)

private def Block.pushLines (ls : List Bytes) : Block → Block
  | .furniture text => .furniture (text ++ linesText ls)
  | .entry text => .entry (text ++ linesText ls)

private theorem pushLines_cons (b : Block) (line : Bytes) (ls : List Bytes) :
    b.pushLines (line :: ls) = (b.pushLine line).pushLines ls := by
  cases b <;> simp [Block.pushLines, Block.pushLine, linesText]

private theorem pushNonEmpty_of_ne {blocks : List Block} {b : Block} (h : b.text ≠ []) :
    pushNonEmpty blocks b = blocks ++ [b] := if_neg h

theorem foldl_groups (ls : List Bytes) : ∀ p : Parsing, (ls.foldl Parsing.line p).finish =
    pushNonEmpty p.blocks (p.current.pushLines (groups p.insideH2Entry ls).1) ++
      (groups p.insideH2Entry ls).2.map Group.block := by
  induction ls with
  | nil =>
    intro p
    cases hc : p.current <;> simp [Parsing.finish, groups, Block.pushLines, linesText, hc]
  | cons line rest ih =>
    intro p
    rw [List.foldl_cons, ih, Parsing.line, groups]
    cases classifyLine line p.insideH2Entry with
    | body => rw [pushLines_cons]
    | entryStart =>
      have hblock : ((Block.entry []).pushLine line).pushLines (groups (isH2 line) rest).1 =
          Group.block ⟨true, line, (groups (isH2 line) rest).1⟩ := by
        rw [← pushLines_cons]
        simp [Block.pushLines, Group.block, Group.lines]
      simp only [hblock]
      rw [pushNonEmpty_of_ne (by simp [Group.block, Block.text, Group.lines, linesText])]
      cases hc : p.current <;> simp [Block.pushLines, linesText]
    | structural =>
      have hblock : ((Block.furniture []).pushLine line).pushLines (groups false rest).1 =
          Group.block ⟨false, line, (groups false rest).1⟩ := by
        rw [← pushLines_cons]
        simp [Block.pushLines, Group.block, Group.lines]
      simp only [hblock]
      rw [pushNonEmpty_of_ne (by simp [Group.block, Block.text, Group.lines, linesText])]
      cases hc : p.current <;> simp [Block.pushLines, linesText]

/-- The preamble as a block, when there is one. -/
private def preamble (ls : List Bytes) : List Block := pushNonEmpty [] (.furniture (linesText ls))

theorem parse_eq (content : Bytes) : parse content =
    preamble (groups false (contents content)).1 ++
      (groups false (contents content)).2.map Group.block := by
  rw [parse, foldl_groups]
  rfl

theorem groups_lines (inside : Bool) (ls : List Bytes) :
    (groups inside ls).1 ++ (groups inside ls).2.flatMap Group.lines = ls := by
  induction ls generalizing inside with
  | nil => rfl
  | cons line rest ih =>
    rw [groups]
    cases classifyLine line inside with
    | body => simp [ih]
    | entryStart => simp [Group.lines, ih]
    | structural => simp [Group.lines, ih]

/-- Groups that are read as such after each other. -/
def Chain : Bool → List Group → Prop
  | _, [] => True
  | inside, g :: gs =>
    classifyLine g.head inside = (if g.entry then .entryStart else .structural) ∧
      (∀ line ∈ g.body, classifyLine line g.insideH2Entry = .body) ∧ Chain g.insideH2Entry gs

theorem chain_groups (inside : Bool) (ls : List Bytes) :
    (∀ line ∈ (groups inside ls).1, classifyLine line inside = .body) ∧
      Chain inside (groups inside ls).2 := by
  induction ls generalizing inside with
  | nil => exact ⟨fun line h => (nomatch h), trivial⟩
  | cons line rest ih =>
    rw [groups]
    cases hc : classifyLine line inside with
    | body => exact ⟨List.forall_mem_cons.mpr ⟨hc, (ih inside).1⟩, (ih inside).2⟩
    | entryStart => exact ⟨fun line h => (nomatch h), hc, (ih (isH2 line)).1, (ih (isH2 line)).2⟩
    | structural => exact ⟨fun line h => (nomatch h), hc, (ih false).1, (ih false).2⟩

theorem groups_chain {gs : List Group} : ∀ {inside : Bool} {body : List Bytes},
    (∀ line ∈ body, classifyLine line inside = .body) → Chain inside gs →
      groups inside (body ++ gs.flatMap Group.lines) = (body, gs) := by
  have push {inside : Bool} {rest : List Bytes} {gs : List Group}
      (hrest : groups inside rest = ([], gs)) : ∀ {body : List Bytes},
      (∀ line ∈ body, classifyLine line inside = .body) →
        groups inside (body ++ rest) = (body, gs) := by
    intro body
    induction body with
    | nil => exact fun _ => hrest
    | cons line body ih =>
      intro h
      obtain ⟨hline, hbody⟩ := List.forall_mem_cons.mp h
      rw [List.cons_append, groups, hline, ih hbody]
  induction gs with
  | nil => exact fun hb _ => push rfl hb
  | cons g gs ih =>
    intro inside body hb hchain
    refine push ?_ hb
    obtain ⟨hhead, hbody, hrest⟩ := hchain
    rw [List.flatMap_cons, Group.lines, List.cons_append, groups, hhead]
    have hnext := ih hbody hrest
    obtain ⟨entry, head, body⟩ := g
    cases entry with
    | true => simp only [if_true]; rw [show isH2 head = Group.insideH2Entry ⟨true, head, body⟩ from
        (Bool.true_and _).symm, hnext]
    | false => simp only [Bool.false_eq_true, if_false]; rw [show false =
        Group.insideH2Entry ⟨false, head, body⟩ from rfl, hnext]

/-! A carriage return at the end of a line does not change its role. -/

private theorem trimStart_return (line : Bytes) :
    trimStart (line ++ [13]) = trimStart line ∨ trimStart (line ++ [13]) = trimStart line ++ [13] := by
  obtain ⟨cs, hcs, htext, hend⟩ := Text.trimStart_spec line
  by_cases hu : trimStart line = []
  · left
    rw [hu] at htext hend ⊢
    have hflat : line ++ [13] = (cs ++ [[13]]).flatten ++ [] := by
      rw [htext]
      simp
    have hreturn : Text.IsBlankChar [13] := rfl
    rw [hflat]
    exact Text.trimStart_flatten
      (List.forall_mem_append.mpr ⟨hcs, List.forall_mem_singleton.mpr hreturn⟩) rfl
  · right
    have hnone : Text.stripBlank (trimStart line ++ [13]) = none := by
      rw [Text.stripBlank_snoc hu (by decide), hend]
      rfl
    conv_lhs => rw [htext, List.append_assoc]
    exact Text.trimStart_flatten hcs hnone

private theorem isPrefixOf_return {p : Bytes} (hp : 13 ∉ p) (line : Bytes) :
    p.isPrefixOf (trimStart (line ++ [13])) = p.isPrefixOf (trimStart line) := by
  rcases trimStart_return line with h | h
  · rw [h]
  · rw [h, Bool.eq_iff_iff, List.isPrefixOf_iff_prefix, List.isPrefixOf_iff_prefix,
      List.prefix_concat_iff]
    exact ⟨fun h => h.resolve_left fun heq => hp (by simp [heq]), .inr⟩

private theorem classifyLine_return (line : Bytes) (inside : Bool) :
    classifyLine (line ++ [13]) inside = classifyLine line inside := by
  have hstructural : isStructuralHeader (trimStart (line ++ [13])) =
      isStructuralHeader (trimStart line) := by
    have hp : ∀ header ∈ structuralHeaders, (13 : UInt8) ∉ header := by decide
    rw [Bool.eq_iff_iff, isStructuralHeader, isStructuralHeader, List.any_eq_true, List.any_eq_true]
    exact exists_congr fun header => and_congr_right fun hm => by rw [isPrefixOf_return (hp header hm)]
  have h2 : isH2 (line ++ [13]) = isH2 line := isPrefixOf_return (by decide) line
  have h3 : isH3 (line ++ [13]) = isH3 line := isPrefixOf_return (by decide) line
  simp only [classifyLine, hstructural, h2, h3]

/-- A line as it is read back from a file with newlines. -/
def dropReturn (line : Bytes) : Bytes := if line.getLast? = some 13 then line.dropLast else line

private theorem dropReturn_cases (line : Bytes) : (line.getLast? ≠ some 13 ∧ dropReturn line = line) ∨
    line = dropReturn line ++ [13] := by
  by_cases h : line.getLast? = some 13
  · right
    obtain ⟨init, rfl⟩ := List.getLast?_eq_some_iff.mp h
    simp [dropReturn]
  · exact .inl ⟨h, if_neg h⟩

theorem classifyLine_dropReturn (line : Bytes) (inside : Bool) :
    classifyLine (dropReturn line) inside = classifyLine line inside := by
  rcases dropReturn_cases line with ⟨-, h⟩ | h
  · rw [h]
  · conv_rhs => rw [h, classifyLine_return]

theorem isH2_dropReturn (line : Bytes) : isH2 (dropReturn line) = isH2 line := by
  rcases dropReturn_cases line with ⟨-, h⟩ | h
  · rw [h]
  · conv_rhs => rw [h, isH2, isPrefixOf_return (by decide)]
    rfl

def Group.dropReturns (g : Group) : Group := ⟨g.entry, dropReturn g.head, g.body.map dropReturn⟩

theorem Group.lines_dropReturns (g : Group) : g.dropReturns.lines = g.lines.map dropReturn := rfl

theorem Chain.dropReturns {gs : List Group} : ∀ {inside : Bool}, Chain inside gs →
    Chain inside (gs.map Group.dropReturns) := by
  induction gs with
  | nil => exact fun _ => trivial
  | cons g gs ih =>
    intro inside h
    obtain ⟨hhead, hbody, hrest⟩ := h
    have hinside : g.dropReturns.insideH2Entry = g.insideH2Entry := by
      simp only [Group.insideH2Entry, Group.dropReturns, isH2_dropReturn]
    refine ⟨(classifyLine_dropReturn g.head inside).trans hhead, ?_, ?_⟩
    · rw [hinside]
      intro line hl
      obtain ⟨l, hm, rfl⟩ := List.mem_map.mp hl
      exact (classifyLine_dropReturn l _).trans (hbody l hm)
    · rw [hinside]
      exact ih hrest

/-! Removing the first entries. -/

/-- The groups that stay. -/
def dropEntries : Nat → List Group → List Group
  | 0, gs => gs
  | _ + 1, [] => []
  | count + 1, g :: gs => if g.entry then dropEntries count gs else g :: dropEntries (count + 1) gs

/-- A `## ` heading is one wherever it stands. -/
private theorem Chain.outside {gs : List Group} {inside : Bool} (h : Chain inside gs) :
    Chain false gs := by
  cases gs with
  | nil => trivial
  | cons g gs =>
    obtain ⟨hhead, hrest⟩ := h
    refine ⟨?_, hrest⟩
    rw [← hhead]
    cases inside with
    | false => rfl
    | true =>
      cases hg : g.entry <;> simp only [hg] at hhead <;> unfold classifyLine at hhead ⊢
      all_goals split_ifs at hhead <;> simp_all

theorem Chain.dropEntries {gs : List Group} : ∀ {count : Nat} {inside : Bool}, Chain inside gs →
    Chain false (dropEntries count gs) := by
  induction gs with
  | nil => exact fun {count} _ _ => by cases count <;> trivial
  | cons g gs ih =>
    intro count inside h
    cases count with
    | zero => exact h.outside
    | succ count =>
      rw [Praxis.dropEntries]
      have hrest := h.2.2
      cases hg : g.entry with
      | true => exact ih hrest
      | false =>
        have hfalse : g.insideH2Entry = false := by rw [Group.insideH2Entry, hg, Bool.false_and]
        refine ⟨?_, h.2.1, ?_⟩
        · exact h.outside.1
        · rw [hfalse]
          exact ih hrest

theorem dropEntries_sublist : ∀ (count : Nat) (gs : List Group),
    (dropEntries count gs).flatMap Group.lines <+ gs.flatMap Group.lines
  | 0, gs => by rw [dropEntries]
  | count + 1, [] => List.Sublist.refl _
  | count + 1, g :: gs => by
    rw [dropEntries, List.flatMap_cons]
    split
    · exact (dropEntries_sublist count gs).trans (List.sublist_append_right _ _)
    · rw [List.flatMap_cons]
      exact (List.Sublist.refl g.lines).append (dropEntries_sublist (count + 1) gs)

theorem removeOldestEntries_entries : ∀ (count : Nat) (blocks : List Block),
    (removeOldestEntries count blocks).1 = (entries blocks).take count ∧
      entries (removeOldestEntries count blocks).2 = (entries blocks).drop count
  | count, [] => by cases count <;> exact ⟨rfl, rfl⟩
  | 0, .entry text :: rest => by
    obtain ⟨hr, hk⟩ := removeOldestEntries_entries 0 rest
    exact ⟨hr, congrArg (text :: ·) hk⟩
  | count + 1, .entry text :: rest => by
    obtain ⟨hr, hk⟩ := removeOldestEntries_entries count rest
    exact ⟨congrArg (text :: ·) hr, hk⟩
  | 0, .furniture text :: rest => removeOldestEntries_entries 0 rest
  | count + 1, .furniture text :: rest => removeOldestEntries_entries (count + 1) rest

theorem removeOldestEntries_zero : ∀ blocks : List Block, (removeOldestEntries 0 blocks).2 = blocks
  | [] => rfl
  | .entry text :: rest => by
    rw [removeOldestEntries]
    · exact congrArg (List.cons (.entry text)) (removeOldestEntries_zero rest)
    · simp
  | .furniture text :: rest => by
    rw [removeOldestEntries]
    · exact congrArg (List.cons (.furniture text)) (removeOldestEntries_zero rest)
    · simp

theorem removeOldestEntries_groups (gs : List Group) : ∀ count : Nat,
    (removeOldestEntries count (gs.map Group.block)).2 = (dropEntries count gs).map Group.block := by
  induction gs with
  | nil => intro count; cases count <;> rfl
  | cons g gs ih =>
    intro count
    cases count with
    | zero => exact removeOldestEntries_zero _
    | succ count =>
      obtain ⟨entry, head, body⟩ := g
      cases entry with
      | true => exact ih count
      | false => exact congrArg (Group.block ⟨false, head, body⟩ :: ·) (ih (count + 1))

theorem removeOldestEntries_preamble (ls : List Bytes) (blocks : List Block) (count : Nat) :
    (removeOldestEntries count (preamble ls ++ blocks)).2 =
      preamble ls ++ (removeOldestEntries count blocks).2 := by
  unfold preamble pushNonEmpty
  split
  · rfl
  · cases count <;> rfl

/-! Texts of lines. -/

theorem contents_no_newline (text : Bytes) : ∀ line ∈ contents text, newline ∉ line := by
  intro line hl
  obtain ⟨l, hm, rfl⟩ := List.mem_map.mp hl
  have hbytes := Text.lines_no_newline text l hm
  unfold Text.Line.content
  split
  · exact fun h => hbytes (List.mem_of_mem_dropLast h)
  · exact hbytes

theorem contents_linesText {ls : List Bytes} (h : ∀ l ∈ ls, newline ∉ l) :
    contents (linesText ls) = ls.map dropReturn := by
  rw [contents, lines_linesText h, List.map_map]
  exact List.map_congr_left fun l _ => by simp [Text.Line.content, dropReturn]

theorem dropReturn_no_newline {l : Bytes} (h : newline ∉ l) : newline ∉ dropReturn l := by
  unfold dropReturn
  split
  · exact fun hm => h (List.mem_of_mem_dropLast hm)
  · exact h

/-- The groups of a document. -/
def document (content : Bytes) : List Group := (groups false (contents content)).2

private theorem entries_preamble (ls : List Bytes) (gs : List Group) :
    entries (preamble ls ++ gs.map Group.block) =
      (gs.filter Group.entry).map fun g => linesText g.lines := by
  have hpre : entries (preamble ls) = [] := by
    unfold preamble pushNonEmpty
    split <;> rfl
  have hgroups : entries (gs.map Group.block) =
      (gs.filter Group.entry).map fun g => linesText g.lines := by
    induction gs with
    | nil => rfl
    | cons g gs ih =>
      obtain ⟨entry, head, body⟩ := g
      cases entry with
      | true => exact congrArg (linesText (head :: body) :: ·) ih
      | false => exact ih
  rw [entries, List.filterMap_append, ← entries, ← entries, hpre, hgroups, List.nil_append]

theorem entries_parse (content : Bytes) : entries (parse content) =
    ((document content).filter Group.entry).map fun g => linesText g.lines := by
  rw [parse_eq, entries_preamble]
  rfl

private theorem render_preamble (ls : List Bytes) (gs : List Group) :
    render (preamble ls ++ gs.map Group.block) = linesText (ls ++ gs.flatMap Group.lines) := by
  have hpre : render (preamble ls) = linesText ls := by
    unfold preamble pushNonEmpty
    split
    · next h => exact h.symm
    · simp [render, Block.text]
  have hgroups : render (gs.map Group.block) = linesText (gs.flatMap Group.lines) := by
    induction gs with
    | nil => rfl
    | cons g gs ih =>
      have hblock : g.block.text = linesText g.lines := by
        unfold Group.block
        split <;> rfl
      rw [List.map_cons, List.flatMap_cons, linesText, List.flatMap_append, ← linesText, ← linesText,
        ← ih, ← hblock]
      rfl
  rw [render, List.flatMap_append, ← render, ← render, hpre, hgroups, linesText, linesText, linesText,
    List.flatMap_append]

/-- A document is written with every one of its lines. -/
theorem render_parse (content : Bytes) : render (parse content) = linesText (contents content) := by
  rw [parse_eq, render_preamble, groups_lines]

/-! What an archive run writes. -/

private theorem kept_no_newline (content : Bytes) (count : Nat) :
    ∀ l ∈ (groups false (contents content)).1 ++
      (dropEntries count (document content)).flatMap Group.lines, newline ∉ l := by
  intro l hl
  refine contents_no_newline content l ?_
  rw [← groups_lines false (contents content)]
  exact ((List.Sublist.refl _).append (dropEntries_sublist count _)).subset hl

private theorem kept_eq (content : Bytes) (count : Nat) :
    (removeOldestEntries count (parse content)).2 =
      preamble (groups false (contents content)).1 ++
        (dropEntries count (document content)).map Group.block := by
  rw [parse_eq, removeOldestEntries_preamble, removeOldestEntries_groups]
  rfl

/-- The blocks that stay, and how they are read. -/
theorem parse_kept (content : Bytes) (count : Nat) :
    ∃ ls, render (removeOldestEntries count (parse content)).2 =
        linesText (ls ++ (dropEntries count (document content)).flatMap Group.lines) ∧
      ls = (groups false (contents content)).1 ∧
      document (render (removeOldestEntries count (parse content)).2) =
        (dropEntries count (document content)).map Group.dropReturns := by
  obtain ⟨hbody, hchain⟩ := chain_groups false (contents content)
  have hrender : render (removeOldestEntries count (parse content)).2 =
      linesText ((groups false (contents content)).1 ++
        (dropEntries count (document content)).flatMap Group.lines) := by
    rw [kept_eq, render_preamble]
  refine ⟨_, hrender, rfl, ?_⟩
  have hsub := kept_no_newline content count
  have hmap : (((dropEntries count (document content)).flatMap Group.lines).map dropReturn) =
      ((dropEntries count (document content)).map Group.dropReturns).flatMap Group.lines := by
    rw [List.map_flatMap, List.flatMap_map]
    rfl
  rw [document, hrender, contents_linesText hsub, List.map_append, hmap]
  refine congrArg Prod.snd (groups_chain ?_ (Chain.dropEntries hchain).dropReturns)
  intro line hl
  obtain ⟨l, hm, rfl⟩ := List.mem_map.mp hl
  exact (classifyLine_dropReturn l false).trans (hbody l hm)

/-! An entry in a file. -/

/-- A line without the carriage returns at its end. -/
def bare (line : Bytes) : Bytes := (line.reverse.dropWhile (· = 13)).reverse

def bareLines (text : Bytes) : List Bytes := (Text.lines text).map fun l => bare l.bytes

/-- The lines of `e` stand in a row in the file, carriage returns at their ends aside. -/
def Stands (e file : Bytes) : Prop := bareLines e <:+: bareLines file

private theorem bare_content (l : Text.Line) : bare l.content = bare l.bytes := by
  unfold Text.Line.content
  split
  · next h =>
    simp only [Bool.and_eq_true, decide_eq_true_eq] at h
    obtain ⟨init, hinit⟩ := List.getLast?_eq_some_iff.mp h.2
    rw [hinit, List.dropLast_concat, bare, bare, List.reverse_append]
    rfl
  · rfl

theorem bareLines_append {a : Bytes} (ha : Complete a) (b : Bytes) :
    bareLines (a ++ b) = bareLines a ++ bareLines b := by
  rw [bareLines, Text.lines_append ha, List.map_append]
  rfl

/-- More bytes after a file, the first of them a newline. -/
theorem bareLines_isPrefix (a rest : Bytes) : bareLines a <+: bareLines (a ++ newline :: rest) := by
  obtain ⟨init, tail, hi, ht, rfl⟩ := Text.exists_tail a
  rw [List.append_assoc, bareLines_append hi, bareLines_append hi, List.prefix_append_right_inj]
  by_cases hne : tail = []
  · rw [hne]
    exact List.nil_prefix
  · rw [bareLines, Text.lines_unterminated ht hne, bareLines, Text.lines_line ht]
    exact ⟨_, rfl⟩

theorem bareLines_linesText {ls : List Bytes} (h : ∀ l ∈ ls, newline ∉ l) :
    bareLines (linesText ls) = ls.map bare := by
  rw [bareLines, lines_linesText h, List.map_map]
  rfl

/-- An entry is some consecutive lines of its document, at least one. -/
theorem entry_spec {content e : Bytes} (h : e ∈ entries (parse content)) : ∃ g ∈ document content,
    e = linesText g.lines ∧ (∀ l ∈ g.lines, newline ∉ l) ∧ bareLines e = g.lines.map bare := by
  rw [entries_parse] at h
  obtain ⟨g, hg, rfl⟩ := List.mem_map.mp h
  obtain ⟨hm, -⟩ := List.mem_filter.mp hg
  have hlines : ∀ l ∈ g.lines, newline ∉ l := by
    intro l hl
    refine contents_no_newline content l ?_
    rw [← groups_lines false (contents content)]
    exact List.mem_append_right _ (List.mem_flatMap.mpr ⟨g, hm, hl⟩)
  exact ⟨g, hm, rfl, hlines, bareLines_linesText hlines⟩

theorem stands_self {content e : Bytes} (h : e ∈ entries (parse content)) : Stands e content := by
  obtain ⟨g, hg, -, -, hbare⟩ := entry_spec h
  obtain ⟨before, after, hsplit⟩ := List.append_of_mem hg
  have hcontents : bareLines content = (contents content).map bare := by
    rw [bareLines, contents, List.map_map]
    exact List.map_congr_left fun l _ => (bare_content l).symm
  have hlines := groups_lines false (contents content)
  rw [Stands, hbare, hcontents, ← hlines, ← document, hsplit, List.flatMap_append, List.flatMap_cons,
    List.map_append, List.map_append]
  exact ⟨(groups false (contents content)).1.map bare ++ (before.flatMap Group.lines).map bare,
    (after.flatMap Group.lines).map bare, by simp⟩

/-- An empty file holds no entry. -/
theorem not_stands_nil {content e : Bytes} (h : e ∈ entries (parse content)) : ¬Stands e [] := by
  obtain ⟨g, -, -, -, hbare⟩ := entry_spec h
  rw [Stands, hbare]
  exact fun hi => nomatch List.infix_nil.mp hi

/-! What the archive file is. -/

private theorem complete_entry {content e : Bytes} (h : e ∈ entries (parse content)) : Complete e := by
  obtain ⟨g, -, rfl, -⟩ := entry_spec h
  exact complete_linesText g.lines

private theorem intercalate_split {es : List Bytes} (hes : ∀ e ∈ es, Complete e) {e : Bytes}
    (h : e ∈ es) : ∃ before after, Complete before ∧
      [newline].intercalate es = before ++ (e ++ after) := by
  induction es with
  | nil => exact nomatch h
  | cons x es ih =>
    obtain ⟨hx, hrest⟩ := List.forall_mem_cons.mp hes
    cases es with
    | nil =>
      rw [List.mem_singleton] at h
      subst h
      exact ⟨[], [], Text.complete_nil, by simp [List.intercalate]⟩
    | cons y es =>
      have hjoin : [newline].intercalate (x :: y :: es) =
          x ++ ([newline] ++ [newline].intercalate (y :: es)) := by simp [List.intercalate]
      rw [hjoin]
      rcases List.mem_cons.mp h with rfl | h
      · exact ⟨[], _, Text.complete_nil, rfl⟩
      · obtain ⟨before, after, hb, heq⟩ := ih hrest h
        refine ⟨x ++ ([newline] ++ before), after, hx.append ?_, by rw [heq]; simp⟩
        exact (Text.complete_line []).append hb

/-- Every archived entry stands in the archive file. -/
theorem stands_archived (h : Heading) (archive : Option Bytes) {es : List Bytes}
    (hes : ∀ e ∈ es, Complete e) {e : Bytes} (he : e ∈ es) : Stands e (archiveText h archive es) := by
  obtain ⟨before, after, hb, heq⟩ := intercalate_split hes he
  have placed {front : Bytes} (hf : Complete front) : Stands e (front ++ [newline].intercalate es) := by
    rw [heq, ← List.append_assoc, Stands, bareLines_append (hf.append hb), bareLines_append (hes e he)]
    exact ⟨_, _, by rw [List.append_assoc]⟩
  cases archive with
  | some existing =>
    have := placed (Text.complete_line existing)
    rwa [List.append_assoc, List.singleton_append] at this
  | none =>
    refine placed ?_
    have htext : h.text = (ascii "# Archive " ++ [226, 128, 148] ++ ascii " " ++ h.docName ++
        ascii " (" ++ h.date ++ ascii ")" ++ [newline]) ++ [newline] := by simp [Heading.text]
    rw [htext]
    exact Text.complete_snoc _

/-- What stood in the old archive stands in the new one. -/
theorem stands_old (h : Heading) {archive : Option Bytes} {e : Bytes} (es : List Bytes)
    (he : Stands e (archive.getD [])) (hne : ¬Stands e []) : Stands e (archiveText h archive es) := by
  cases archive with
  | some existing => exact he.trans (bareLines_isPrefix existing _).isInfix
  | none => exact absurd he hne

/-! Archiving. -/

/-- The lines of the furniture. -/
def furnitureLines (blocks : List Block) : List Bytes := blocks.flatMap fun
  | .furniture text => (Text.lines text).map Text.Line.bytes
  | .entry _ => []

/-- The archived half, and the half that stays. -/
def archivedEntries (content : Bytes) : List Bytes :=
  (entries (parse content)).take ((entries (parse content)).length / 2)

def keptEntries (content : Bytes) : List Bytes :=
  (entries (parse content)).drop ((entries (parse content)).length / 2)

theorem archivePlan_eq (h : Heading) (f : Files) : archivePlan h f =
    if (entries (parse f.source)).length < 2 then none
    else some (archiveText h f.archive (archivedEntries f.source),
      render (removeOldestEntries ((entries (parse f.source)).length / 2) (parse f.source)).2) := by
  have hremoved := (removeOldestEntries_entries ((entries (parse f.source)).length / 2)
    (parse f.source)).1
  have hnil : (removeOldestEntries ((entries (parse f.source)).length / 2) (parse f.source)).1 = [] ↔
      (entries (parse f.source)).length < 2 := by
    rw [hremoved, List.take_eq_nil_iff]
    constructor
    · rintro (hz | hz)
      · omega
      · rw [hz]
        decide
    · intro hlt
      exact .inl (by omega)
  rw [hremoved] at hnil
  unfold archivePlan
  simp only [hremoved, hnil]
  rfl

theorem furnitureLines_preamble {ls : List Bytes} (hls : ∀ l ∈ ls, newline ∉ l) {gs : List Group}
    (hgs : ∀ l ∈ gs.flatMap Group.lines, newline ∉ l) :
    furnitureLines (preamble ls ++ gs.map Group.block) =
      ls ++ (gs.filter fun g => !g.entry).flatMap Group.lines := by
  have text {ls : List Bytes} (h : ∀ l ∈ ls, newline ∉ l) :
      (Text.lines (linesText ls)).map Text.Line.bytes = ls := by
    rw [lines_linesText h, List.map_map]
    exact List.map_id ls
  have hpre : furnitureLines (preamble ls) = ls := by
    unfold preamble pushNonEmpty
    split
    · next h =>
      have hnil : linesText ls = linesText [] := h
      rw [linesText_injective hls (by simp) hnil]
      rfl
    · rw [List.nil_append, furnitureLines, List.flatMap_singleton]
      exact text hls
  have hgroups : furnitureLines (gs.map Group.block) =
      (gs.filter fun g => !g.entry).flatMap Group.lines := by
    induction gs with
    | nil => rfl
    | cons g gs ih =>
      rw [List.flatMap_cons, List.forall_mem_append] at hgs
      obtain ⟨entry, head, body⟩ := g
      cases entry with
      | true => exact ih hgs.2
      | false =>
        have hhead : furnitureLines [Group.block ⟨false, head, body⟩] = head :: body := by
          rw [furnitureLines, List.flatMap_singleton]
          exact text hgs.1
        rw [List.map_cons, furnitureLines, List.flatMap_cons, ← furnitureLines, ih hgs.2]
        exact congrArg (· ++ _) (text hgs.1)
  rw [furnitureLines, List.flatMap_append, ← furnitureLines, ← furnitureLines, hpre, hgroups]

private theorem furniture_kept : ∀ (count : Nat) (gs : List Group),
    (gs.filter fun g => !g.entry).flatMap Group.lines <+
      (dropEntries count gs).flatMap Group.lines
  | 0, gs => by
    rw [dropEntries]
    exact List.filter_sublist.flatMap Group.lines
  | count + 1, [] => List.Sublist.refl _
  | count + 1, g :: gs => by
    rw [dropEntries]
    cases hg : g.entry with
    | true =>
      rw [List.filter_cons_of_neg (by simp [hg])]
      exact furniture_kept count gs
    | false =>
      rw [List.filter_cons_of_pos (by simp [hg])]
      exact (List.Sublist.refl g.lines).append (furniture_kept (count + 1) gs)

/-- Everything the claim asks of a journal and the archive beside it. -/
structure Conserved (h : Heading) (f : Files) : Prop where
  rendered : render (parse f.source) = linesText (contents f.source)
  moved : ∀ files, archiveDocument h f = (true, files) →
    files.archive = some (archiveText h f.archive (archivedEntries f.source)) ∧
    entries (parse files.source) = keptEntries f.source ∧
    furnitureLines (parse f.source) <+ (Text.lines files.source).map Text.Line.bytes
  crashed : ∀ c, ∀ e ∈ entries (parse f.source) ++ entries (parse (f.archive.getD [])),
    Stands e (crashAt h f c).source ∨ Stands e ((crashAt h f c).archive.getD [])

/-- What must hold besides: every entry is in the file that is not written when the other is cut. -/
structure Spared (h : Heading) (f : Files) : Prop where
  plain : ∀ e ∈ keptEntries f.source, ∀ l ∈ Text.lines e, l.bytes.getLast? ≠ some 13
  kept : ∀ e ∈ keptEntries f.source,
    Stands e (archiveText h f.archive (archivedEntries f.source))
  old : ∀ e ∈ entries (parse (f.archive.getD [])), Stands e f.source

private theorem keptEntries_eq (content : Bytes) : keptEntries content =
    ((dropEntries ((entries (parse content)).length / 2) (document content)).filter Group.entry).map
      fun g => linesText g.lines := by
  rw [keptEntries, ← (removeOldestEntries_entries _ (parse content)).2, kept_eq, entries_preamble]

/-- Reading the new source back gives the entries that stay as far as no line of theirs ends in a
carriage return. -/
theorem entries_kept_iff (content : Bytes) :
    entries (parse (render (removeOldestEntries ((entries (parse content)).length / 2)
      (parse content)).2)) = keptEntries content ↔
    ∀ e ∈ keptEntries content, ∀ l ∈ Text.lines e, l.bytes.getLast? ≠ some 13 := by
  obtain ⟨ls, hrender, -, hdoc⟩ := parse_kept content ((entries (parse content)).length / 2)
  set gs := dropEntries ((entries (parse content)).length / 2) (document content) with hgs
  have hkept : keptEntries content = (gs.filter Group.entry).map fun g => linesText g.lines :=
    keptEntries_eq content
  have hread : entries (parse (render (removeOldestEntries ((entries (parse content)).length / 2)
      (parse content)).2)) =
      (gs.filter Group.entry).map fun g => linesText (g.lines.map dropReturn) := by
    rw [entries_parse, hdoc, List.filter_map, List.map_map]
    rfl
  rw [hread, hkept, List.map_inj_left, List.forall_mem_map]
  refine forall₂_congr fun g hg => ?_
  have hlines : ∀ l ∈ g.lines, newline ∉ l := fun l hl => kept_no_newline content _ l
    (List.mem_append_right _ (List.mem_flatMap.mpr ⟨g, (List.mem_filter.mp hg).1, hl⟩))
  have hreads : ∀ l ∈ g.lines.map dropReturn, newline ∉ l := by
    intro l hl
    obtain ⟨x, hx, rfl⟩ := List.mem_map.mp hl
    exact dropReturn_no_newline (hlines x hx)
  rw [lines_linesText hlines, List.forall_mem_map]
  constructor
  · intro heq l hl
    have hsame := linesText_injective hreads hlines heq
    have hl' : dropReturn l = l := by
      have := List.map_inj_left.mp (hsame.trans (List.map_id g.lines).symm) l hl
      exact this
    rcases dropReturn_cases l with ⟨h, -⟩ | h
    · exact h
    · rw [hl'] at h
      have := congrArg List.length h
      simp at this
  · intro h
    congr 1
    exact (List.map_congr_left fun l hl => if_neg (h l hl)).trans (List.map_id g.lines)

/-- The lines of the furniture stay, in their order. -/
theorem furniture_stays (content : Bytes) (count : Nat) : furnitureLines (parse content) <+
    (Text.lines (render (removeOldestEntries count (parse content)).2)).map Text.Line.bytes := by
  have hall := kept_no_newline content 0
  rw [dropEntries] at hall
  obtain ⟨hls, hgs⟩ := List.forall_mem_append.mp hall
  rw [kept_eq, render_preamble, lines_linesText (kept_no_newline content count), List.map_map, parse_eq, ← document,
    furnitureLines_preamble hls hgs]
  have hid : (Text.Line.bytes ∘ fun l => (⟨l, true⟩ : Text.Line)) = id := rfl
  rw [hid, List.map_id]
  exact (List.Sublist.refl _).append (furniture_kept count _)

section
variable (h : Heading) (f : Files)

private theorem stands_split {e : Bytes} (he : e ∈ entries (parse f.source)) :
    e ∈ archivedEntries f.source ∨ e ∈ keptEntries f.source := by
  rw [← List.take_append_drop ((entries (parse f.source)).length / 2) (entries (parse f.source))] at he
  exact List.mem_append.mp he

private theorem source_intact {archive : Option Bytes} (hold : ∀ e, Stands e (f.archive.getD []) →
    ¬Stands e [] → Stands e (archive.getD [])) :
    ∀ e ∈ entries (parse f.source) ++ entries (parse (f.archive.getD [])),
      Stands e f.source ∨ Stands e (archive.getD []) := by
  intro e he
  rcases List.mem_append.mp he with he | he
  · exact .inl (stands_self he)
  · exact .inr (hold e (stands_self he) (not_stands_nil he))

private theorem archive_whole {source : Bytes} (hkept : ∀ e ∈ keptEntries f.source,
    Stands e source ∨ Stands e (archiveText h f.archive (archivedEntries f.source))) :
    ∀ e ∈ entries (parse f.source) ++ entries (parse (f.archive.getD [])),
      Stands e source ∨ Stands e (archiveText h f.archive (archivedEntries f.source)) := by
  have hcomplete : ∀ e ∈ archivedEntries f.source, Complete e :=
    fun e he => complete_entry (List.mem_of_mem_take he)
  intro e he
  rcases List.mem_append.mp he with he | he
  · rcases stands_split f he with he | he
    · exact .inr (stands_archived h f.archive hcomplete he)
    · exact hkept e he
  · exact .inr (stands_old h _ (stands_self he) (not_stands_nil he))

/-- An entry that stays stands in the new source. -/
private theorem stands_kept {e : Bytes} (he : e ∈ keptEntries f.source) : Stands e (render
    (removeOldestEntries ((entries (parse f.source)).length / 2) (parse f.source)).2) := by
  rw [keptEntries_eq] at he
  obtain ⟨g, hg, rfl⟩ := List.mem_map.mp he
  have hstay := kept_no_newline f.source ((entries (parse f.source)).length / 2)
  have hm := (List.mem_filter.mp hg).1
  have hlines : ∀ l ∈ g.lines, newline ∉ l :=
    fun l hl => hstay l (List.mem_append_right _ (List.mem_flatMap.mpr ⟨g, hm, hl⟩))
  rw [Stands, bareLines_linesText hlines, kept_eq, render_preamble, bareLines_linesText hstay]
  obtain ⟨before, after, hsplit⟩ := List.append_of_mem hm
  rw [hsplit, List.flatMap_append, List.flatMap_cons]
  exact ⟨(groups false (contents f.source)).1.map bare ++ (before.flatMap Group.lines).map bare,
    (after.flatMap Group.lines).map bare, by simp⟩

end

/-- A journal and its archive keep every entry through a run, wherever it stops, exactly when there
is nothing to archive or each file holds what a cut write would take from the other. A run that
stops outside its two writes loses nothing. -/
theorem archive_conserved_iff (h : Heading) (f : Files) :
    (Conserved h f ↔ (entries (parse f.source)).length < 2 ∨ Spared h f) ∧
    ∀ c ∈ [CrashPoint.before, .between, .after],
      ∀ e ∈ entries (parse f.source) ++ entries (parse (f.archive.getD [])),
        Stands e (crashAt h f c).source ∨ Stands e ((crashAt h f c).archive.getD []) := by
  have hplan := archivePlan_eq h f
  by_cases hn : (entries (parse f.source)).length < 2
  · rw [if_pos hn] at hplan
    have hat : ∀ c, crashAt h f c = f := fun c => by rw [crashAt, hplan]
    have hsafe := source_intact f fun e he _ => he
    refine ⟨⟨fun _ => .inl hn, fun _ => ⟨render_parse _, fun files hfiles => ?_, fun c => ?_⟩⟩,
      fun c _ => ?_⟩
    · rw [archiveDocument, hplan] at hfiles
      exact nomatch hfiles
    · rw [hat c]
      exact hsafe
    · rw [hat c]
      exact hsafe
  · rw [if_neg hn] at hplan
    have hwhole := fun source hkept => @archive_whole h f source hkept
    have hafter := hwhole _ fun e he => .inl (stands_kept f he)
    refine ⟨⟨fun hc => .inr ⟨?_, fun e he => ?_, fun e he => ?_⟩, fun hs => ?_⟩, ?_⟩
    · obtain ⟨-, hread, -⟩ := hc.moved _ (by rw [archiveDocument, hplan])
      exact (entries_kept_iff f.source).mp hread
    · have hcut := hc.crashed (.inSource 0) e (List.mem_append_left _ (List.mem_of_mem_drop he))
      rw [crashAt, hplan] at hcut
      exact hcut.resolve_left (not_stands_nil (List.mem_of_mem_drop he))
    · have hcut := hc.crashed (.inArchive 0) e (List.mem_append_right _ he)
      rw [crashAt, hplan] at hcut
      exact hcut.resolve_right (not_stands_nil he)
    · have hs := hs.resolve_left hn
      refine ⟨render_parse _, fun files hfiles => ?_, fun c => ?_⟩
      · rw [archiveDocument, hplan] at hfiles
        obtain rfl := (Prod.mk.inj hfiles).2
        exact ⟨rfl, (entries_kept_iff f.source).mpr hs.plain, furniture_stays f.source _⟩
      · rw [crashAt, hplan]
        cases c with
        | before => exact source_intact f fun e he _ => he
        | inArchive written =>
          intro e he
          refine .inl ?_
          rcases List.mem_append.mp he with he | he
          · exact stands_self he
          · exact hs.old e he
        | between => exact hwhole _ fun e he => .inl (stands_self (List.mem_of_mem_drop he))
        | inSource written => exact hwhole _ fun e he => .inr (hs.kept e he)
        | after => exact hafter
    · intro c hc
      rw [crashAt, hplan]
      simp only [List.mem_cons, List.not_mem_nil, or_false] at hc
      rcases hc with rfl | rfl | rfl
      · exact source_intact f fun e he _ => he
      · exact hwhole _ fun e he => .inl (stands_self (List.mem_of_mem_drop he))
      · exact hafter

/-- Two entries and no archive yet. -/
def sampleFiles : Files := ⟨ascii "## A\n## B\n", none⟩

def sampleHeading : Heading := ⟨ascii "LEARNING.md", ascii "2026-08-01"⟩

/-- The run stops when the journal has been truncated: the second entry is in neither file. -/
theorem cut_source_lost : ¬∀ (h : Heading) (f : Files), Conserved h f := by
  intro hall
  have hentry : ascii "## B\n" ∈ entries (parse sampleFiles.source) := by decide
  have hcut := (hall sampleHeading sampleFiles).crashed (.inSource 0) (ascii "## B\n")
    (List.mem_append_left _ hentry)
  revert hcut
  unfold Stands
  decide +kernel

end PulseNull.Praxis
