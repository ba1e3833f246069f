import PulseNull.Praxis.Thoughts

/-! The conversation index: the row an archive appends to `INDEX.md`, and its two readers, the count of
recent conversations and the selection of the task digest. -/
namespace PulseNull.Session
open Calendar (Date)
open Text (Chars padded trimChars readDigits)
open Praxis (charLines)

/-! Writing. -/

/-- A decimal number of at least `width` digits. -/
def numberText (width n : Nat) : Chars := padded (max width (Nat.digits 10 n).length) n

/-- `%Y-%m-%d`. A year that does not have four digits has a sign. -/
def indexDate (d : Date) : Chars :=
  (if 0 ≤ d.year ∧ d.year ≤ 9999 then padded 4 d.year.toNat
    else (if d.year < 0 then '-' else '+') :: numberText 4 d.year.natAbs) ++
    '-' :: (padded 2 d.month ++ '-' :: padded 2 d.day)

/-- What an archived conversation has in the index. -/
structure Conversation where
  logNum : Fin (2^32)
  date : Date
  trigger : Chars
  channel : Chars
  messageCount : Nat

def cell (text : Chars) : Chars := ' ' :: (text ++ [' '])

/-- `| {log_num:03} | {date} | {trigger} | {channel} | {message_count} |` -/
def rowLine (c : Conversation) : Chars :=
  '|' :: (cell (numberText 3 c.logNum) ++ '|' :: (cell (indexDate c.date) ++ '|' :: (cell c.trigger ++
    '|' :: (cell c.channel ++ '|' :: (cell (numberText 1 c.messageCount) ++ ['|'])))))

def indexTitle : Chars := "# Conversation Archive Index".toList
def indexColumns : Chars := "| Log | Date | Trigger | Channel | Messages |".toList
def indexRule : Chars := "|-----|------|---------|---------|----------|".toList

def indexHeader : Chars := indexTitle ++ '\n' :: '\n' :: (indexColumns ++ '\n' :: (indexRule ++ ['\n']))

/-- A row at the end of the index, which is created when it is missing. -/
def appendIndex (index : Option Chars) (c : Conversation) : Option Chars :=
  some (index.getD indexHeader ++ (rowLine c ++ ['\n']))

def builtIndex (cs : List Conversation) : Option Chars := cs.foldl appendIndex none

/-! Reading. -/

def columns (line : Chars) : List Chars := (line.splitOn '|').map trimChars

/-- A row counts when its second column reads as a date and a time that is not before the cutoff. -/
def countsRow (stamp : Chars → Option Int) (cutoff : Int) (line : Chars) : Bool :=
  line.head? = some '|' && 4 ≤ (columns line).length &&
    (stamp ((columns line).getD 2 [])).any (cutoff ≤ ·)

/-- Nanoseconds of a day. -/
def dayNanos : Int := 86400 * 1000000000

/-- `stamp` reads `%Y-%m-%d %H:%M UTC`. -/
def countRecentConversations (stamp : Chars → Option Int) (now days : Int) (index : Option Chars) : Nat :=
  (charLines [] (index.getD [])).countP (countsRow stamp (now - days * dayNanos))

structure TaskEntry where
  logNum : Nat
  trigger : Chars
  channel : Chars
  deriving DecidableEq

def isTaskTrigger (trigger : Chars) : Bool :=
  "task-end-".toList.isPrefixOf trigger || "research-end-".toList.isPrefixOf trigger ||
    trigger = "task-execution".toList

/-- `str::parse::<u32>` -/
def parseU32 (text : Chars) : Option Nat :=
  let n : Option Int := match text with
    | '+' :: digits => readDigits digits
    | digits => readDigits digits
  (n.filter fun n => n < 2^32).map Int.toNat

def parseIndexLine (line : Chars) : Option TaskEntry :=
  if (columns line).length < 6 then none
  else (parseU32 ((columns line).getD 1 [])).map fun logNum =>
    ⟨logNum, (columns line).getD 3 [], (columns line).getD 4 []⟩

/-- The row of a line that the digest of a date takes. -/
def selectRow (date line : Chars) : Option TaskEntry :=
  if line.head? = some '|' ∧ date <:+: line then (parseIndexLine line).filter fun entry => isTaskTrigger entry.trigger
  else none

def digestRows (date : Chars) (index : Option Chars) : List TaskEntry :=
  (charLines [] (index.getD [])).filterMap (selectRow date)

/-! What the readers are for. -/

/-- The day of a date is not before that of the cutoff. -/
def InWindow (now days : Int) (c : Conversation) : Prop :=
  719528 + (now - days * dayNanos) / dayNanos ≤ c.date.number

instance (now days : Int) : DecidablePred (InWindow now days) := fun _ =>
  inferInstanceAs (Decidable (_ ≤ _))

def Conversation.entry (c : Conversation) : TaskEntry := ⟨c.logNum, c.trigger, c.channel⟩

/-- The count is that of the conversations in the window, and the digest of each date takes its task and
research archives. -/
def ReadsBack (stamp : Chars → Option Int) (now days : Int) (cs : List Conversation) : Prop :=
  countRecentConversations stamp now days (builtIndex cs) = cs.countP (InWindow now days) ∧
  ∀ date, digestRows (indexDate date) (builtIndex cs) =
    (cs.filter fun c => c.date = date && isTaskTrigger c.trigger).map Conversation.entry

/-- A row of one line. -/
def Conversation.OneLine (c : Conversation) : Prop := '\n' ∉ c.trigger ∧ '\n' ∉ c.channel

/-- The first cell that a text put into a row fills. -/
def firstCell (text : Chars) : Chars := trimChars (text.takeWhile (· ≠ '|'))

/-- A row that reads as a task is written as it reads: no bar and no outer blanks in its trigger and channel,
and no date in it but its own. -/
def Conversation.Clear (c : Conversation) : Prop :=
  isTaskTrigger (firstCell c.trigger) = true →
    ('|' ∉ c.trigger ∧ trimChars c.trigger = c.trigger) ∧ ('|' ∉ c.channel ∧ trimChars c.channel = c.channel) ∧
    ∀ date, indexDate date <:+: indexDate c.date ∨ indexDate date <:+: c.trigger ∨
      indexDate date <:+: c.channel → date = c.date

/-! Lines and columns. -/

theorem charLines_line (line : Chars) {l : Chars} (hl : '\n' ∉ l) (hend : l.getLast? ≠ some '\r')
    (hne : l ≠ []) (rest : Chars) : charLines line (l ++ '\n' :: rest) = (line ++ l) :: charLines [] rest := by
  induction l generalizing line with
  | nil => exact absurd rfl hne
  | cons c l ih =>
    have hc : c ≠ '\n' := fun h => hl (by simp [h])
    rw [List.cons_append, charLines, if_neg hc]
    cases l with
    | nil =>
      have hcr : (line ++ [c]).getLast? ≠ some '\r' := by simpa using hend
      rw [List.nil_append, charLines, if_pos rfl, if_neg hcr]
    | cons d l =>
      rw [ih (line ++ [c]) (fun h => hl (List.mem_cons_of_mem c h)) (by simpa using hend) (by simp)]
      simp

theorem charLines_blank (rest : Chars) : charLines [] ('\n' :: rest) = [] :: charLines [] rest := rfl

theorem columns_append (a b : Chars) : columns (a ++ '|' :: b) = columns a ++ columns b := by
  unfold columns
  rw [List.splitOn_eq_splitOnP, List.splitOnP_append_cons a b (by simp), List.map_append]
  rfl

theorem columns_plain {a : Chars} (h : '|' ∉ a) : columns a = [trimChars a] := by
  rw [columns, List.splitOn_eq_singleton h, List.map_singleton]

theorem columns_ne_nil (a : Chars) : columns a ≠ [] := by
  simp [columns, List.splitOn_ne_nil]

private theorem trim_cons (text : Chars) : trimChars (' ' :: text) = trimChars text := by
  rw [trimChars, List.dropWhile_cons_of_pos (by decide), trimChars]

theorem trim_cell (text : Chars) : trimChars (cell text) = trimChars text := by
  have hblank : Text.isWhitespace ' ' = true := by decide
  rw [cell, trim_cons, trimChars, trimChars, List.dropWhile_append]
  split
  · next h =>
    rw [List.isEmpty_iff.mp h]
    decide
  · rw [List.rdropWhile_concat_pos _ _ _ hblank]

private theorem takeWhile_bar {a b : Chars} (h : '|' ∉ a) : (a ++ '|' :: b).takeWhile (· ≠ '|') = a := by
  have ha : ∀ c ∈ a, decide (c ≠ '|') = true := fun _ hc => decide_eq_true fun he => h (he ▸ hc)
  rw [List.takeWhile_append_of_pos ha, List.takeWhile_cons_of_neg (by simp), List.append_nil]

private theorem takeWhile_plain {a : Chars} (h : '|' ∉ a) : a.takeWhile (· ≠ '|') = a :=
  List.takeWhile_eq_self_iff.mpr fun _ hc => decide_eq_true fun he => h (he ▸ hc)

/-- The columns a text fills: its first cell, and no more when it has no bar. -/
theorem columns_cell (text : Chars) : ∃ more, columns (cell text) = firstCell text :: more ∧
    ('|' ∉ text → more = []) := by
  by_cases h : '|' ∈ text
  · obtain ⟨a, b, rfl, ha⟩ := List.eq_append_cons_of_mem h
    have hcell : cell (a ++ '|' :: b) = (' ' :: a) ++ '|' :: (b ++ [' ']) := by simp [cell]
    refine ⟨columns (b ++ [' ']), ?_, fun hn => absurd h hn⟩
    rw [hcell, columns_append, columns_plain (by simpa using ha), trim_cons, firstCell, takeWhile_bar ha,
      List.singleton_append]
  · refine ⟨[], ?_, fun _ => rfl⟩
    rw [columns_plain (by simpa [cell] using h), trim_cell, firstCell, takeWhile_plain h]

/-! Numbers and dates as texts. -/

theorem numberText_digits (w n : Nat) : ∀ c ∈ numberText w n, c.isDigit = true :=
  Text.padded_digits _ _

theorem digit_not_blank {c : Char} (h : c.isDigit = true) : Text.isWhitespace c = false := by
  simp only [Char.isDigit, Bool.and_eq_true, decide_eq_true_eq, ge_iff_le, UInt32.le_iff_toNat_le] at h
  have h1 : 48 ≤ c.toNat := h.1
  have h2 : c.toNat ≤ 57 := h.2
  unfold Text.isWhitespace
  simp only [Bool.or_eq_false_iff, Bool.and_eq_false_iff, decide_eq_false_iff_not]
  omega

theorem trim_solid {text : Chars} (h : ∀ c ∈ text, Text.isWhitespace c = false) : trimChars text = text := by
  have hstart : text.dropWhile Text.isWhitespace = text := by
    cases text with
    | nil => rfl
    | cons c cs => exact List.dropWhile_cons_of_neg (by simp [h c (by simp)])
  rw [trimChars, hstart, List.rdropWhile_eq_self_iff]
  intro hne
  simp [h _ (List.getLast_mem hne)]

/-- A character of a date. -/
def IsDateChar (c : Char) : Prop := c.isDigit = true ∨ c = '-' ∨ c = '+'

theorem indexDate_chars (d : Date) : ∀ c ∈ indexDate d, IsDateChar c := by
  have digits (w n : Nat) : ∀ c ∈ padded w n, IsDateChar c := fun c hc => .inl (Text.padded_digits w n c hc)
  have hdash : IsDateChar '-' := .inr (.inl rfl)
  have hplus : IsDateChar '+' := .inr (.inr rfl)
  intro c hc
  unfold indexDate at hc
  simp only [List.mem_append, List.mem_cons] at hc
  obtain hc | rfl | hc | rfl | hc := hc
  · split at hc
    · exact digits _ _ c hc
    · obtain rfl | hc := List.mem_cons.mp hc
      · split <;> assumption
      · exact digits _ _ c hc
  · exact hdash
  · exact digits _ _ c hc
  · exact hdash
  · exact digits _ _ c hc

theorem dash_mem_indexDate (d : Date) : '-' ∈ indexDate d := by simp [indexDate]

theorem IsDateChar.ne {c : Char} (h : IsDateChar c) : c ≠ ' ' ∧ c ≠ '|' ∧ c ≠ '\n' ∧ c ≠ 'C' := by
  obtain h | rfl | rfl := h
  · exact ⟨fun he => by simp [he] at h, fun he => by simp [he] at h, fun he => by simp [he] at h,
      fun he => by simp [he] at h⟩
  · decide
  · decide

theorem IsDateChar.not_blank {c : Char} (h : IsDateChar c) : Text.isWhitespace c = false := by
  obtain h | rfl | rfl := h
  · exact digit_not_blank h
  · decide
  · decide

theorem parseU32_numberText {w : Nat} (hw : 0 < w) (n : Fin (2^32)) :
    parseU32 (numberText w n) = some n.val := by
  have hfits : n.val < 10 ^ max w (Nat.digits 10 n.val).length :=
    (Nat.lt_base_pow_length_digits (by decide)).trans_le
      (Nat.pow_le_pow_right (by decide) (Nat.le_max_right ..))
  have hdigits := numberText_digits w n
  have hnum : Text.digitsNumber (numberText w n) = n := Text.digitsNumber_padded hfits
  have hread : readDigits (numberText w n) = some (n.val : Int) := by
    have hne : numberText w n ≠ [] := by
      intro hnil
      have hsize := Text.size_padded (max w (Nat.digits 10 n.val).length) n.val
      rw [← numberText, hnil, Text.size_nil] at hsize
      omega
    rw [readDigits, if_pos ⟨hne, List.all_eq_true.mpr hdigits⟩, hnum]
  unfold parseU32
  split
  · next ds heq => exact absurd (hdigits '+' (by rw [heq]; simp)) (by decide)
  · simp [hread]

/-! A row and its columns. -/

theorem columns_rowLine (c : Conversation) : ∃ more, columns (rowLine c) =
    [] :: numberText 3 c.logNum :: indexDate c.date ::
      (columns (cell c.trigger) ++ (columns (cell c.channel) ++ more)) ∧ more.length = 2 := by
  have plainCell {text : Chars} (h : '|' ∉ text) (hb : ∀ c ∈ text, Text.isWhitespace c = false) :
      columns (cell text) = [text] := by
    rw [columns_plain (by simpa [cell] using h), trim_cell, trim_solid hb]
  have number (w n : Nat) : columns (cell (numberText w n)) = [numberText w n] :=
    plainCell (fun h => absurd (numberText_digits w n '|' h) (by decide))
      fun c hc => digit_not_blank (numberText_digits w n c hc)
  have date : columns (cell (indexDate c.date)) = [indexDate c.date] :=
    plainCell (fun h => (indexDate_chars c.date '|' h).ne.2.1 rfl)
      fun x hx => (indexDate_chars c.date x hx).not_blank
  refine ⟨[numberText 1 c.messageCount, []], ?_, rfl⟩
  have hend : columns (cell (numberText 1 c.messageCount) ++ ['|']) = [numberText 1 c.messageCount, []] := by
    rw [columns_append, number]
    rfl
  rw [rowLine, ← List.nil_append ('|' :: _), columns_append, columns_append, columns_append, columns_append,
    columns_append, number, date, hend]
  rfl

/-- A row reads as its number, the first cell of its trigger, and a channel that is right when no bar is in the
way. -/
theorem parseIndexLine_rowLine (c : Conversation) : ∃ channel, parseIndexLine (rowLine c) =
    some ⟨c.logNum, firstCell c.trigger, channel⟩ ∧ ('|' ∉ c.trigger → channel = firstCell c.channel) := by
  obtain ⟨more, hcols, hmore⟩ := columns_rowLine c
  obtain ⟨ts, ht, htp⟩ := columns_cell c.trigger
  obtain ⟨us, hu, -⟩ := columns_cell c.channel
  rw [ht, hu] at hcols
  refine ⟨(columns (rowLine c)).getD 4 [], ?_, fun hbar => ?_⟩
  · have hlong : ¬ (columns (rowLine c)).length < 6 := by
      rw [hcols]
      simp only [List.length_cons, List.length_append, hmore]
      omega
    rw [parseIndexLine, if_neg hlong, hcols]
    simp [parseU32_numberText (w := 3) (by decide)]
  · rw [hcols, htp hbar]
    rfl

theorem rowLine_not_counted {stamp : Chars → Option Int}
    (hs : ∀ text, (stamp text).isSome = true → "UTC".toList <:+ text) (cutoff : Int) (c : Conversation) :
    countsRow stamp cutoff (rowLine c) = false := by
  obtain ⟨more, hcols, -⟩ := columns_rowLine c
  have hstamp : stamp (indexDate c.date) = none := by
    by_contra hne
    have hutc := hs _ (Option.isSome_iff_ne_none.mpr hne)
    have hmem : 'C' ∈ indexDate c.date := hutc.subset (by decide)
    exact (indexDate_chars c.date 'C' hmem).ne.2.2.2 rfl
  rw [countsRow, hcols]
  simp [hstamp]

/-! A date in a row. -/

/-- A text without the separator stands on one side of it. -/
theorem infix_append_cons {w a b : Chars} {sep : Char} (h : sep ∉ w) :
    w <:+: a ++ sep :: b ↔ w <:+: a ∨ w <:+: b := by
  constructor
  · rintro ⟨x, y, hxy⟩
    rw [List.append_assoc] at hxy
    obtain ⟨d, rfl, hd⟩ | ⟨d, rfl, hd⟩ := List.append_eq_append_iff.mp hxy
    · obtain ⟨e, rfl, _⟩ | ⟨e, rfl, he⟩ := List.append_eq_append_iff.mp hd
      · exact .inl ⟨x, e, by rw [List.append_assoc]⟩
      · cases e with
        | nil => exact .inl ⟨x, [], by simp⟩
        | cons f e =>
          obtain ⟨rfl, _⟩ := List.cons.inj he
          simp at h
    · cases d with
      | nil =>
        cases w with
        | nil => exact .inl (List.nil_infix)
        | cons f w =>
          obtain ⟨rfl, _⟩ := List.cons.inj hd
          simp at h
      | cons f d =>
        obtain ⟨-, rfl⟩ := List.cons.inj hd
        exact .inr ⟨d, y, List.append_assoc ..⟩
  · rintro (h | h)
    · exact h.trans (List.prefix_append a _).isInfix
    · exact h.trans ((List.suffix_cons sep b).trans (List.suffix_append a _)).isInfix

private theorem infix_cell {w x rest : Chars} (hb : ' ' ∉ w) (hbar : '|' ∉ w) (hw : w ≠ []) :
    w <:+: cell x ++ '|' :: rest ↔ w <:+: x ∨ w <:+: rest := by
  have hnil : ¬ w <:+: [] := fun h => hw (List.infix_nil.mp h)
  rw [infix_append_cons hbar, cell, ← List.nil_append (' ' :: _), infix_append_cons hb,
    infix_append_cons hb]
  simp [hnil]

/-- A date stands in a row when it stands in the row's date, trigger or channel. -/
theorem indexDate_infix_rowLine (d : Date) (c : Conversation) : indexDate d <:+: rowLine c ↔
    indexDate d <:+: indexDate c.date ∨ indexDate d <:+: c.trigger ∨ indexDate d <:+: c.channel := by
  have hb : ' ' ∉ indexDate d := fun h => (indexDate_chars d _ h).ne.1 rfl
  have hbar : '|' ∉ indexDate d := fun h => (indexDate_chars d _ h).ne.2.1 rfl
  have hne : indexDate d ≠ [] := List.ne_nil_of_mem (dash_mem_indexDate d)
  have hnil : ¬ indexDate d <:+: [] := fun h => hne (List.infix_nil.mp h)
  have hnum (w n : Nat) : ¬ indexDate d <:+: numberText w n := fun h =>
    absurd (numberText_digits w n '-' (h.subset (dash_mem_indexDate d))) (by decide)
  rw [rowLine, ← List.nil_append ('|' :: _), infix_append_cons hbar, infix_cell hb hbar hne,
    infix_cell hb hbar hne, infix_cell hb hbar hne, infix_cell hb hbar hne, infix_cell hb hbar hne]
  simp [hnil, hnum]

/-! The lines of an index. -/

theorem rowLine_line {c : Conversation} (h : c.OneLine) (rest : Chars) :
    charLines [] (rowLine c ++ '\n' :: rest) = rowLine c :: charLines [] rest := by
  have hdate : '\n' ∉ indexDate c.date := fun hn => (indexDate_chars c.date _ hn).ne.2.2.1 rfl
  have hnum (w n : Nat) : '\n' ∉ numberText w n := fun hn => absurd (numberText_digits w n _ hn) (by decide)
  have hnl : '\n' ∉ rowLine c := by simp [rowLine, cell, hdate, hnum, h.1, h.2]
  have hlast : (rowLine c).getLast? = some '|' := by
    simp [rowLine, List.getLast?_cons, List.getLast?_append]
  exact charLines_line [] hnl (by simp [hlast]) (by simp [rowLine]) rest

private theorem header_lines (rest : Chars) : charLines [] (indexHeader ++ rest) =
    indexTitle :: [] :: indexColumns :: indexRule :: charLines [] rest := by
  have htext : indexHeader ++ rest = indexTitle ++ '\n' :: '\n' :: (indexColumns ++ '\n' ::
      (indexRule ++ '\n' :: rest)) := by simp [indexHeader]
  have line {l : Chars} (hl : '\n' ∉ l ∧ l.getLast? ≠ some '\r' ∧ l ≠ []) (more : Chars) :
      charLines [] (l ++ '\n' :: more) = l :: charLines [] more := charLines_line [] hl.1 hl.2.1 hl.2.2 more
  rw [htext, line (l := indexTitle) (by decide), charLines_blank, line (l := indexColumns) (by decide),
    line (l := indexRule) (by decide)]

private theorem builtIndex_some (cs : List Conversation) (text : Chars) :
    cs.foldl appendIndex (some text) = some (text ++ cs.flatMap fun c => rowLine c ++ ['\n']) := by
  induction cs generalizing text with
  | nil => simp
  | cons c cs ih => simp [appendIndex, ih]

theorem builtIndex_cons (c : Conversation) (cs : List Conversation) : builtIndex (c :: cs) =
    some (indexHeader ++ (c :: cs).flatMap fun c => rowLine c ++ ['\n']) := by
  simp [builtIndex, appendIndex, builtIndex_some]

private theorem rows_lines {cs : List Conversation} (h : ∀ c ∈ cs, c.OneLine) :
    charLines [] (cs.flatMap fun c => rowLine c ++ ['\n']) = cs.map rowLine := by
  induction cs with
  | nil => rfl
  | cons c cs ih =>
    rw [List.forall_mem_cons] at h
    rw [List.flatMap_cons, List.append_assoc, List.singleton_append, rowLine_line h.1, ih h.2, List.map_cons]

/-- The lines of a built index that are not rows of conversations. -/
def headerLines : List Chars := [indexTitle, [], indexColumns, indexRule]

theorem builtIndex_lines {cs : List Conversation} (h : ∀ c ∈ cs, c.OneLine) : ∃ header, header ⊆ headerLines ∧
    charLines [] ((builtIndex cs).getD []) = header ++ cs.map rowLine := by
  cases cs with
  | nil => exact ⟨[], by simp, rfl⟩
  | cons c cs =>
    refine ⟨headerLines, List.Subset.refl _, ?_⟩
    rw [builtIndex_cons, Option.getD_some, header_lines, rows_lines h]
    rfl

private theorem header_not_counted {stamp : Chars → Option Int}
    (hs : ∀ text, (stamp text).isSome = true → "UTC".toList <:+ text) (cutoff : Int) :
    ∀ line ∈ headerLines, countsRow stamp cutoff line = false := by
  have cut {text : Chars} (h : ¬ "UTC".toList <:+ text) : stamp text = none := by
    by_contra hne
    exact h (hs text (Option.isSome_iff_ne_none.mpr hne))
  have hcolumn : (columns indexColumns).getD 2 [] = "Date".toList := by decide
  have hrule : (columns indexRule).getD 2 [] = "------".toList := by decide
  have hdate : stamp "Date".toList = none := cut (by decide)
  have hdashes : stamp "------".toList = none := cut (by decide)
  have htitle : indexTitle.head? = some '#' := by decide
  simp only [headerLines, List.forall_mem_cons, countsRow, hcolumn, hrule, hdate, hdashes]
  exact ⟨by simp [htitle], by simp, by simp, by simp, by simp⟩

theorem digit_mem_indexDate (d : Date) : ∃ c ∈ indexDate d, c.isDigit = true := by
  obtain ⟨c, hc⟩ := List.exists_mem_of_ne_nil (padded 2 d.day) (by simp [padded])
  exact ⟨c, by simp [indexDate, hc], Text.padded_digits 2 d.day c hc⟩

private theorem header_not_selected (d : Date) : ∀ line ∈ headerLines, selectRow (indexDate d) line = none := by
  obtain ⟨c, hc, hdigit⟩ := digit_mem_indexDate d
  have hheader : (headerLines.all fun line => line.all fun x => !x.isDigit) = true := by decide
  intro line hline
  rw [selectRow, if_neg]
  rintro ⟨_, hwithin⟩
  have hnot := List.all_eq_true.mp (List.all_eq_true.mp hheader line hline) c (hwithin.subset hc)
  simp [hdigit] at hnot

/-- In an index of one-line rows no row counts. -/
theorem count_builtIndex {stamp : Chars → Option Int}
    (hs : ∀ text, (stamp text).isSome = true → "UTC".toList <:+ text) {cs : List Conversation}
    (h : ∀ c ∈ cs, c.OneLine) (now days : Int) : countRecentConversations stamp now days (builtIndex cs) = 0 := by
  obtain ⟨header, hheader, hlines⟩ := builtIndex_lines h
  rw [countRecentConversations, hlines, List.countP_eq_zero]
  intro line hline
  obtain hline | hline := List.mem_append.mp hline
  · simp [header_not_counted hs _ line (hheader hline)]
  · obtain ⟨c, _, rfl⟩ := List.mem_map.mp hline
    simp [rowLine_not_counted hs]

/-- The digest takes rows one by one. -/
theorem digest_builtIndex {cs : List Conversation} (h : ∀ c ∈ cs, c.OneLine) (d : Date) :
    digestRows (indexDate d) (builtIndex cs) = cs.filterMap fun c => selectRow (indexDate d) (rowLine c) := by
  obtain ⟨header, hheader, hlines⟩ := builtIndex_lines h
  have hnone : header.filterMap (selectRow (indexDate d)) = [] :=
    List.filterMap_eq_nil_iff.mpr fun line hline => header_not_selected d line (hheader hline)
  rw [digestRows, hlines, List.filterMap_append, hnone, List.nil_append, List.filterMap_map]
  rfl

/-! Rows one by one. -/

/-- What is expected of a row on a date. -/
def Conversation.expected (c : Conversation) (d : Date) : Option TaskEntry :=
  if c.date = d ∧ isTaskTrigger c.trigger then some c.entry else none

theorem filter_expected (cs : List Conversation) (d : Date) :
    (cs.filter fun c => c.date = d && isTaskTrigger c.trigger).map Conversation.entry =
      cs.filterMap fun c => c.expected d := by
  induction cs with
  | nil => rfl
  | cons c cs ih =>
    rw [List.filterMap_cons, ← ih, Conversation.expected]
    split <;> simp_all

/-- Lists of entries kept by number agree when they agree on each. -/
private theorem filterMap_keyed {f g : Conversation → Option TaskEntry}
    (hf : ∀ c e, f c = some e → e.logNum = c.logNum) (hg : ∀ c e, g c = some e → e.logNum = c.logNum)
    {cs : List Conversation} (hdistinct : (cs.map Conversation.logNum).Nodup)
    (h : cs.filterMap f = cs.filterMap g) : ∀ c ∈ cs, f c = g c := by
  have foreign {k : Conversation → Option TaskEntry} (hk : ∀ c e, k c = some e → e.logNum = c.logNum)
      {c : Conversation} {cs : List Conversation} (hc : c.logNum ∉ cs.map Conversation.logNum) {e : TaskEntry}
      (he : e.logNum = c.logNum) : e ∉ cs.filterMap k := by
    intro hmem
    obtain ⟨x, hx, hxe⟩ := List.mem_filterMap.mp hmem
    have hval : x.logNum = c.logNum := Fin.ext ((hk x e hxe).symm.trans he)
    exact hc (hval ▸ List.mem_map_of_mem hx)
  induction cs with
  | nil => simp
  | cons c cs ih =>
    obtain ⟨hc, hrest⟩ := List.nodup_cons.mp hdistinct
    rw [List.filterMap_cons, List.filterMap_cons] at h
    rw [List.forall_mem_cons]
    cases hfc : f c with
    | none =>
      cases hgc : g c with
      | none =>
        rw [hfc, hgc] at h
        exact ⟨rfl, ih hrest h⟩
      | some e =>
        rw [hfc, hgc] at h
        have hmem : e ∈ cs.filterMap f := by
          simp only at h
          rw [h]
          exact List.mem_cons_self
        exact absurd hmem (foreign hf hc (hg c e hgc))
    | some e =>
      cases hgc : g c with
      | none =>
        rw [hfc, hgc] at h
        have hmem : e ∈ cs.filterMap g := by
          simp only at h
          rw [← h]
          exact List.mem_cons_self
        exact absurd hmem (foreign hg hc (hf c e hfc))
      | some e' =>
        rw [hfc, hgc] at h
        obtain ⟨rfl, hrest'⟩ := List.cons.inj h
        exact ⟨rfl, ih hrest hrest'⟩

/-- The digest takes a row when a date stands in it and its first trigger cell is a task's. -/
theorem selectRow_rowLine (d : Date) (c : Conversation) : ∃ channel, selectRow (indexDate d) (rowLine c) =
    (if indexDate d <:+: rowLine c ∧ isTaskTrigger (firstCell c.trigger) = true
      then some ⟨c.logNum, firstCell c.trigger, channel⟩ else none) ∧
    ('|' ∉ c.trigger → channel = firstCell c.channel) := by
  obtain ⟨channel, hparse, hchannel⟩ := parseIndexLine_rowLine c
  refine ⟨channel, ?_, hchannel⟩
  have hhead : (rowLine c).head? = some '|' := rfl
  rw [selectRow, hparse, hhead]
  by_cases hin : indexDate d <:+: rowLine c
  · by_cases ht : isTaskTrigger (firstCell c.trigger) = true <;> simp [hin, ht, Option.filter]
  · simp [hin]

/-! First cells. -/

private theorem prefix_rdropWhile {p : Chars} (hp : ∀ c ∈ p, Text.isWhitespace c = false) (r : Chars) :
    p <+: (p ++ r).rdropWhile Text.isWhitespace := by
  induction r using List.reverseRecOn with
  | nil =>
    rw [List.append_nil, List.rdropWhile_eq_self_iff.mpr fun hne => by simp [hp _ (List.getLast_mem hne)]]
  | append_singleton r c ih =>
    rw [← List.append_assoc, List.rdropWhile_concat]
    split
    · exact ih
    · exact (List.prefix_append p r).trans (List.prefix_append (p ++ r) [c])

/-- A prefix without bars and blanks stays at the front of the first cell. -/
theorem prefix_firstCell {p text : Chars} (hp : ∀ c ∈ p, Text.isWhitespace c = false) (hbar : '|' ∉ p)
    (h : p <+: text) : p <+: firstCell text := by
  obtain ⟨r, rfl⟩ := h
  cases p with
  | nil => exact List.nil_prefix
  | cons c p =>
    have hall : ∀ x ∈ c :: p, decide (x ≠ '|') = true := fun x hx => decide_eq_true fun he => hbar (he ▸ hx)
    have hstart : (c :: p ++ r.takeWhile (· ≠ '|')).dropWhile Text.isWhitespace =
        c :: p ++ r.takeWhile (· ≠ '|') := by
      rw [List.cons_append]
      exact List.dropWhile_cons_of_neg (by simp [hp c (by simp)])
    rw [firstCell, List.takeWhile_append_of_pos hall, trimChars, hstart]
    exact prefix_rdropWhile hp _

private theorem length_trimChars_le (text : Chars) : (trimChars text).length ≤ text.length :=
  (List.rdropWhile_prefix _ _).length_le.trans (List.dropWhile_suffix _).length_le

/-- A text is its own first cell when it has no bar and no outer blanks. -/
theorem firstCell_eq_self {text : Chars} :
    firstCell text = text ↔ '|' ∉ text ∧ trimChars text = text := by
  constructor
  · intro h
    have hlen : text.length ≤ (text.takeWhile (· ≠ '|')).length := by
      calc text.length = (firstCell text).length := by rw [h]
        _ ≤ _ := length_trimChars_le _
    have htake : text.takeWhile (· ≠ '|') = text :=
      (List.takeWhile_prefix _).eq_of_length_le hlen
    refine ⟨fun hbar => ?_, by rwa [firstCell, htake] at h⟩
    rw [← htake] at hbar
    exact absurd (List.mem_takeWhile_imp hbar) (by decide)
  · rintro ⟨hbar, htrim⟩
    rw [firstCell, takeWhile_plain hbar, htrim]

theorem isTaskTrigger_firstCell {trigger : Chars} (h : isTaskTrigger trigger = true) :
    isTaskTrigger (firstCell trigger) = true := by
  have solid {p : Chars} (hp : (p.all fun c => !Text.isWhitespace c) = true) :
      ∀ c ∈ p, Text.isWhitespace c = false := fun c hc => by simpa using List.all_eq_true.mp hp c hc
  simp only [isTaskTrigger, Bool.or_eq_true, List.isPrefixOf_iff_prefix, decide_eq_true_eq] at h ⊢
  obtain (h | h) | rfl := h
  · exact .inl (.inl (prefix_firstCell (solid (by decide)) (by decide) h))
  · exact .inl (.inr (prefix_firstCell (solid (by decide)) (by decide) h))
  · exact .inr (firstCell_eq_self.mpr (by decide))

/-- A row reads as expected on every date exactly when it is clear. -/
theorem clear_iff {c : Conversation} :
    (∀ d, selectRow (indexDate d) (rowLine c) = c.expected d) ↔ c.Clear := by
  constructor
  · intro h htask
    obtain ⟨channel, hsel, hchannel⟩ := selectRow_rowLine c.date c
    have hown : indexDate c.date <:+: rowLine c := (indexDate_infix_rowLine c.date c).mpr (.inl List.infix_rfl)
    rw [if_pos ⟨hown, htask⟩, h c.date] at hsel
    have hentry : isTaskTrigger c.trigger = true ∧ c.entry = ⟨c.logNum, firstCell c.trigger, channel⟩ := by
      unfold Conversation.expected at hsel
      split at hsel
      · next hc => exact ⟨hc.2, Option.some.inj hsel⟩
      · simp at hsel
    simp only [Conversation.entry, TaskEntry.mk.injEq, true_and] at hentry
    obtain ⟨_, htrigger, hch⟩ := hentry
    have ht := firstCell_eq_self.mp htrigger.symm
    rw [hchannel ht.1] at hch
    refine ⟨ht, firstCell_eq_self.mp hch.symm, fun d hd => ?_⟩
    by_contra hne
    obtain ⟨_, hsel, _⟩ := selectRow_rowLine d c
    rw [if_pos ⟨(indexDate_infix_rowLine d c).mpr hd, htask⟩, h d, Conversation.expected,
      if_neg fun hc => hne hc.1.symm] at hsel
    simp at hsel
  · intro h d
    obtain ⟨channel, hsel, hchannel⟩ := selectRow_rowLine d c
    rw [hsel, Conversation.expected]
    by_cases htask : isTaskTrigger (firstCell c.trigger) = true
    · obtain ⟨ht, hc, hdates⟩ := h htask
      have htrigger := firstCell_eq_self.mpr ht
      have hch : channel = c.channel := (hchannel ht.1).trans (firstCell_eq_self.mpr hc)
      have hdate : indexDate d <:+: rowLine c ↔ c.date = d := by
        rw [indexDate_infix_rowLine]
        exact ⟨fun hd => (hdates d hd).symm, fun hd => .inl (hd ▸ List.infix_rfl)⟩
      rw [htrigger] at htask ⊢
      simp [hdate, htask, hch, Conversation.entry]
    · have hplain : isTaskTrigger c.trigger ≠ true := fun ht => htask (isTaskTrigger_firstCell ht)
      simp [htask, hplain]

/-- An index of one-line rows reads back exactly when no conversation is in the window and every row is clear. -/
theorem index_reads_back_iff {stamp : Chars → Option Int}
    (hs : ∀ text, (stamp text).isSome = true → "UTC".toList <:+ text) (now days : Int) {cs : List Conversation}
    (hdistinct : (cs.map Conversation.logNum).Nodup) (hline : ∀ c ∈ cs, c.OneLine) :
    ReadsBack stamp now days cs ↔ (∀ c ∈ cs, ¬ InWindow now days c) ∧ ∀ c ∈ cs, c.Clear := by
  unfold ReadsBack
  rw [count_builtIndex hs hline]
  refine and_congr ?_ ?_
  · rw [eq_comm, List.countP_eq_zero]
    simp
  · simp only [digest_builtIndex hline, filter_expected, ← clear_iff]
    constructor
    · intro h c hc d
      refine filterMap_keyed (f := fun c => selectRow (indexDate d) (rowLine c)) (fun x e he => ?_)
        (fun x e he => ?_) hdistinct (h d) c hc
      · obtain ⟨channel, hsel, _⟩ := selectRow_rowLine d x
        simp only [hsel] at he
        split at he
        · rw [← Option.some.inj he]
        · simp at he
      · unfold Conversation.expected at he
        split at he
        · rw [← Option.some.inj he]
          rfl
        · simp at he
    · intro h d
      exact List.filterMap_congr fun c hc => h c hc d

/-! Two archives of a day, read when the day is out of the window and when it is in it. -/

private theorem length_padded (w n : Nat) : (padded w n).length = w := by
  induction w generalizing n with
  | zero => rfl
  | succ w ih => simp [padded, ih]

/-- Dates of four-digit years have texts that no other date stands in. -/
theorem indexDate_infix {d e : Date} (he : Praxis.FourDigits e) (h : indexDate d <:+: indexDate e) : d = e := by
  have hfour {x : Date} (hx : Praxis.FourDigits x) : indexDate x = Praxis.dateText x := by
    have hyear : 0 ≤ x.year ∧ x.year ≤ 9999 := hx
    rw [indexDate, if_pos hyear, Praxis.dateText]
  have hlen {x : Date} (hx : Praxis.FourDigits x) : (indexDate x).length = 10 := by
    simp [hfour hx, Praxis.dateText, length_padded]
  have hd : Praxis.FourDigits d := by
    by_contra hn
    have hle := h.length_le
    have hn : ¬ (0 ≤ d.year ∧ d.year ≤ 9999) := hn
    rw [hlen he] at hle
    simp only [indexDate, if_neg hn, numberText, List.length_append, List.length_cons, length_padded] at hle
    omega
  have heq : indexDate d = indexDate e := h.eq_of_length ((hlen hd).trans (hlen he).symm)
  have hdays := Praxis.parseDateToDays_text hd.1 hd.2 []
  rw [← hfour hd, heq, hfour he, Praxis.parseDateToDays_text he.1 he.2] at hdays
  refine Calendar.number_injective ?_
  have hnumber := Option.some.inj (Option.some.inj hdays)
  omega

def plainStamp (text : Chars) : Option Int :=
  if "UTC".toList.isSuffixOf text then (Praxis.parseDateToDays text).join.map (· * dayNanos) else none

theorem plainStamp_utc (text : Chars) (h : (plainStamp text).isSome = true) : "UTC".toList <:+ text := by
  unfold plainStamp at h
  split at h
  · next hs => exact List.isSuffixOf_iff_suffix.mp hs
  · simp at h

/-- 2 January 2026. -/
def archiveDay : Date := ⟨2026, 1, 2, by decide⟩

def morningTask : Conversation := ⟨1, archiveDay, "task-end-morning".toList, "task:morning".toList, 3⟩

def chatSession : Conversation := ⟨2, archiveDay, "session-end".toList, "chat".toList, 5⟩

private theorem morningTask_clear : morningTask.Clear := by
  intro _
  refine ⟨by decide, by decide, fun d hd => ?_⟩
  have digitless {text : Chars} (h : (text.all fun c => !c.isDigit) = true) : ¬ indexDate d <:+: text := by
    obtain ⟨c, hc, hdigit⟩ := digit_mem_indexDate d
    intro hin
    have hnot := List.all_eq_true.mp h c (hin.subset hc)
    simp [hdigit] at hnot
  obtain hd | hd | hd := hd
  · exact indexDate_infix (by decide) hd
  · exact absurd hd (digitless (by decide))
  · exact absurd hd (digitless (by decide))

/-- On 1 March the week before holds none of them, and the digests are right. -/
theorem index_reads_back_sample : ReadsBack plainStamp (20513 * dayNanos) 7 [morningTask, chatSession] := by
  refine (index_reads_back_iff plainStamp_utc _ _ (by decide) ?_).mpr ⟨by decide, ?_⟩
  · unfold Conversation.OneLine
    decide
  · rw [List.forall_mem_cons, List.forall_mem_singleton]
    exact ⟨morningTask_clear, fun h => absurd h (by decide)⟩

/-- On 3 January the session of the day before is not counted. -/
theorem recent_session_not_counted : ¬ ReadsBack plainStamp (20456 * dayNanos) 7 [chatSession] := by
  rintro ⟨hcount, _⟩
  have hone : ∀ c ∈ [chatSession], c.OneLine := by
    unfold Conversation.OneLine
    decide
  rw [count_builtIndex plainStamp_utc hone] at hcount
  exact absurd hcount (by decide)

end PulseNull.Session
