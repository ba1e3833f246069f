import PulseNull.Text.Words

/-! Hook commands: how a path is quoted, how the words are read back, and which command is a
recall-echo one. -/
namespace PulseNull.ClaudeHooks

/-- Each single quote is spelled outside the quotes. -/
def escapeQuotes (raw : Bytes) : Bytes := raw.flatMap fun c => if c = 39 then [39, 92, 39, 39] else [c]

def shellQuote (raw : Bytes) : Bytes := 39 :: escapeQuotes raw ++ [39]

/-- The canonical hook command for one subcommand. -/
def hookCommand (recallBin sub root : Bytes) : Bytes :=
  if sub = Text.ascii "consume" then
    shellQuote recallBin ++ Text.ascii " consume " ++ shellQuote root
  else if sub = Text.ascii "checkpoint" then
    shellQuote recallBin ++ Text.ascii " checkpoint --trigger precompact --pulse-root " ++ shellQuote root
  else shellQuote recallBin ++ 32 :: sub ++ Text.ascii " --pulse-root " ++ shellQuote root

structure ShellWord where
  text : Bytes
  quoted : Bool
  deriving DecidableEq

/-- The word that ends here, if one was begun. -/
def endWord (cur : Bytes) (quoted : Bool) : List ShellWord :=
  if cur ≠ [] ∨ quoted then [⟨cur, quoted⟩] else []

/-- One character at a time, with the word begun so far. -/
def scan : ℕ → Bytes → Bytes → Bool → Bool → List ShellWord
  | n + 1, c :: cs, cur, inQuote, quoted =>
    if c = 39 then scan n cs cur (!inQuote) true
    else if c = 92 && !inQuote then
      let next := Text.takeChars 1 cs
      scan n (cs.drop next.length) (cur ++ next) inQuote quoted
    else if inQuote then scan n cs (cur ++ [c]) inQuote quoted
    else match Text.stripBlank (c :: cs) with
      | some rest => endWord cur quoted ++ scan n rest [] false false
      | none =>
        -- an unquoted `#` at the start of a word begins a comment
        if c = 35 && cur = [] && !quoted then [] else scan n cs (cur ++ [c]) inQuote quoted
  | _, _, cur, _, quoted => endWord cur quoted

def shellWords (command : Bytes) : List ShellWord := scan command.length command [] false false

def firstTwoWords (command : Bytes) : Option (Bytes × Bytes) :=
  match shellWords command with
  | first :: second :: _ => some (first.text, second.text)
  | _ => none

/-- `Path::file_name`: the last component, if it is a plain name. -/
def fileName (path : Bytes) : Option Bytes :=
  match ((path.splitOn 47).filter fun part => part ≠ [] ∧ part ≠ [46]).getLast? with
  | some name => if name = [46, 46] then none else some name
  | none => none

def isRecallCommand (command sub : Bytes) : Bool :=
  match firstTwoWords command with
  | some (bin, firstArg) => fileName bin = some (Text.ascii "recall-echo") && firstArg = sub
  | none => false

/-- The words between whitespace and operators, the first of them begun already. -/
def looseWords : ℕ → Bytes → Bytes → List Bytes
  | n + 1, word, c :: cs =>
    if c ∈ Text.ascii "|&;<>()" then word :: looseWords n [] cs
    else match Text.stripBlank (c :: cs) with
      | some rest => word :: looseWords n [] rest
      | none => looseWords n (word ++ [c]) cs
  | _, word, _ => [word]

/-- A `recall-echo` word, and later the word `consume`. -/
def consumeAfter : Bool → List Bytes → Bool
  | _, [] => false
  | seenRecall, word :: words =>
    (seenRecall && word = Text.ascii "consume") ||
      consumeAfter (seenRecall || fileName word = some (Text.ascii "recall-echo")) words

/-- Quotes are dropped and operators are word breaks; empty words are skipped. -/
def commandRunsConsume (command : Bytes) : Bool :=
  let stripped := command.filter fun c => c ≠ 39 && c ≠ 34
  consumeAfter false ((looseWords stripped.length [] stripped).filter (· ≠ []))

/-- `sh -c` or `bash -c` over a recall-echo `consume`. -/
def isWrappedConsume (command : Bytes) : Bool :=
  match shellWords command with
  | bin :: flag :: script :: _ =>
    !flag.quoted && flag.text = Text.ascii "-c" &&
      (fileName bin.text = some (Text.ascii "sh") || fileName bin.text = some (Text.ascii "bash")) &&
      isRecallCommand script.text (Text.ascii "consume")
  | _ => false

/-! The scanner reads back what was quoted. -/

variable {cur text rest raw word : Bytes} {c : UInt8} {inQuote quoted : Bool} {n : ℕ}

/-- Once there are steps enough for the text, more of them change nothing. -/
theorem scan_succ (h : text.length ≤ n) :
    scan (n + 1) text cur inQuote quoted = scan n text cur inQuote quoted := by
  induction n generalizing text cur inQuote quoted with
  | zero =>
    obtain rfl := List.length_eq_zero_iff.mp (Nat.le_zero.mp h)
    rfl
  | succ n ih =>
    cases text with
    | nil => rfl
    | cons c cs =>
      have hcs : cs.length ≤ n := Nat.le_of_succ_le_succ h
      rw [scan, scan]
      split
      · exact ih hcs
      split
      · exact ih (by rw [List.length_drop]; omega)
      split
      · exact ih hcs
      split
      · next rest hrest =>
        have hlen := Text.stripBlank_length hrest
        rw [ih (by rw [List.length_cons] at hlen; omega)]
      · split
        · rfl
        · exact ih hcs

theorem scan_length (h : text.length ≤ n) :
    scan n text cur inQuote quoted = scan text.length text cur inQuote quoted := by
  induction n, h using Nat.le_induction with
  | base => rfl
  | succ n hn ih => rw [scan_succ hn, ih]

/-- The words of the rest of a text. -/
def words (text cur : Bytes) (inQuote quoted : Bool) : List ShellWord :=
  scan text.length text cur inQuote quoted

theorem words_quote : words (39 :: rest) cur inQuote quoted = words rest cur (!inQuote) true := by
  rw [words, List.length_cons, scan, if_pos rfl]
  rfl

theorem words_inside (hc : c ≠ 39) : words (c :: rest) cur true quoted = words rest (cur ++ [c]) true quoted := by
  rw [words, List.length_cons, scan, if_neg hc]
  simp [words]

/-- An escaped single quote outside the quotes. -/
theorem words_escaped : words (92 :: 39 :: 39 :: rest) cur false quoted =
    words (39 :: rest) (cur ++ [39]) false quoted := by
  have htake : Text.takeChars 1 (39 :: 39 :: rest) = [39] := by
    have hcont : Text.isCont 39 = false := by decide
    simp [Text.takeChars, hcont]
  rw [words, List.length_cons, scan, if_neg (by decide)]
  simp only [Bool.not_false, Bool.and_true, decide_true, if_true, htake]
  exact scan_length (by simp)

theorem words_blank : words (32 :: rest) cur false quoted = endWord cur quoted ++ words rest [] false false := by
  rw [words, List.length_cons, scan, if_neg (by decide)]
  simp [Text.stripBlank, words]

/-- A plain character outside the quotes. -/
theorem words_plain (hink : Text.IsInk c) (h39 : c ≠ 39) (h92 : c ≠ 92) (h35 : c ≠ 35) :
    words (c :: rest) cur false quoted = words rest (cur ++ [c]) false quoted := by
  rw [words, List.length_cons, scan, if_neg h39]
  simp [h92, h35, hink.stripBlank, words]

theorem words_escapeQuotes :
    words (escapeQuotes raw ++ rest) cur true true = words rest (cur ++ raw) true true := by
  induction raw generalizing cur with
  | nil => simp [escapeQuotes]
  | cons c raw ih =>
    by_cases hc : c = 39
    · have hsplit : escapeQuotes (c :: raw) ++ rest = 39 :: 92 :: 39 :: 39 :: (escapeQuotes raw ++ rest) := by
        simp [escapeQuotes, hc]
      rw [hsplit, words_quote, Bool.not_true, words_escaped, words_quote, Bool.not_false, ih]
      simp [hc]
    · have hsplit : escapeQuotes (c :: raw) ++ rest = c :: (escapeQuotes raw ++ rest) := by
        simp [escapeQuotes, hc]
      rw [hsplit, words_inside hc, ih]
      simp

/-- A quoted path is one word, whatever is in it. -/
theorem words_shellQuote :
    words (shellQuote raw ++ 32 :: rest) [] false false = ⟨raw, true⟩ :: words rest [] false false := by
  have hsplit : shellQuote raw ++ 32 :: rest = 39 :: (escapeQuotes raw ++ 39 :: 32 :: rest) := by
    simp [shellQuote]
  rw [hsplit, words_quote, Bool.not_false, words_escapeQuotes, words_quote, Bool.not_true, words_blank]
  simp [endWord]

/-- A word of plain characters. -/
def IsPlain (word : Bytes) : Prop := ∀ c ∈ word, Text.IsInk c ∧ c ≠ 39 ∧ c ≠ 92 ∧ c ≠ 35

theorem words_word (h : IsPlain word) (hne : cur ++ word ≠ []) :
    words (word ++ 32 :: rest) cur false false = ⟨cur ++ word, false⟩ :: words rest [] false false := by
  induction word generalizing cur with
  | nil =>
    rw [List.append_nil] at hne
    rw [List.nil_append, words_blank]
    simp [endWord, hne]
  | cons c word ih =>
    obtain ⟨hink, h39, h92, h35⟩ := h c (by simp)
    rw [List.cons_append, words_plain hink h39 h92 h35,
      ih (fun d hd => h d (by simp [hd])) (by simp)]
    simp

/-- The canonical command is a recall-echo one of its subcommand. -/
theorem isRecallCommand_words {bin sub : Bytes} (hbin : fileName bin = some (Text.ascii "recall-echo"))
    (hsub : IsPlain sub) (hne : sub ≠ []) :
    isRecallCommand (shellQuote bin ++ 32 :: (sub ++ 32 :: rest)) sub = true := by
  have hwords : shellWords (shellQuote bin ++ 32 :: (sub ++ 32 :: rest)) =
      ⟨bin, true⟩ :: ⟨sub, false⟩ :: words rest [] false false := by
    change words _ [] false false = _
    rw [words_shellQuote, words_word hsub (by simpa using hne), List.nil_append]
  simp [isRecallCommand, firstTwoWords, hwords, hbin]

end PulseNull.ClaudeHooks
