import PulseNull.Text.Casing
import PulseNull.Probe.Record

/-! Answers that may say "I don't know": what kind an answer is, read word by word against three
lists and the question, and how an ask of a paired fact scores by it. -/
namespace PulseNull.Probe
open Text (Chars Casing Plain words toLowercase windows containsWords trimChars IsLowerWord spaced)

/-- Phrases that mean "I was not told". -/
def abstentions : List Chars :=
  ["don't know", "do not know", "dont know", "not sure", "no idea", "haven't been told",
    "have not been told", "never told", "never mentioned", "not mentioned", "no record",
    "wasn't told", "was not told"].map String.toList

/-- Phrases that mark a guess. -/
def guesses : List Chars :=
  ["maybe", "perhaps", "probably", "possibly", "likely", "might be", "could be", "my guess",
    "best guess", "i guess", "i'd guess", "i would guess", "if i had to", "i'd say",
    "i think it", "i believe it"].map String.toList

/-- Words that, beside an abstention, name nothing. -/
def noValueWords : List Chars :=
  ["a", "an", "the", "i", "me", "my", "mine", "you", "your", "yours", "it", "its", "we", "our",
    "us", "they", "them", "their", "this", "that", "these", "those", "there", "here", "what",
    "which", "who", "when", "where", "why", "how", "am", "is", "are", "was", "were", "be",
    "been", "being", "have", "has", "had", "do", "does", "did", "can", "could", "would", "will",
    "shall", "should", "may", "might", "must", "not", "no", "nor", "t", "s", "m", "re", "ve",
    "ll", "d", "isn", "aren", "wasn", "weren", "haven", "hasn", "hadn", "don", "doesn", "didn",
    "cannot", "couldn", "wouldn", "won", "shouldn", "to", "of", "in", "on", "at", "for", "from",
    "with", "without", "about", "by", "as", "so", "and", "or", "but", "if", "yet", "still",
    "just", "any", "anything", "sorry", "afraid", "really", "honestly", "unfortunately", "tell",
    "told", "say", "said", "share", "shared", "mention", "mentioned", "remember", "recall",
    "know", "knew", "idea", "information", "record", "memory", "conversation", "conversations",
    "unknown"].map String.toList

inductive AnswerKind where
  | abstained | hedgedWithValue | value
  deriving DecidableEq, Repr

/-- `answer` without the markdown and quoting a model wraps around it. -/
def unwrapped (answer : Chars) : Chars :=
  trimChars ((trimChars answer).dropWhile "*_`#>\"' -".toList.contains)

def saysUnknown (answer : Chars) : Bool :=
  "UNKNOWN".toList.isPrefixOf ((unwrapped answer).map Char.toUpper)

/-- `str::replace('’', "'")` -/
def straighten (text : Chars) : Chars := text.map fun c => if c = '’' then '\'' else c

variable (T : Casing)

def namesNothing (word : Chars) (question : List Chars) : Bool :=
  noValueWords.contains word || question.contains word ||
    abstentions.any fun phrase => (words T phrase).contains word

/-- Does the answer hold a word that names something? -/
def namesSomething (answer question : Chars) : Bool :=
  (words T answer).any fun word => !namesNothing T word (words T question)

def answerKind (answer question : Chars) : AnswerKind :=
  let lower := straighten (toLowercase T answer)
  let abstains := saysUnknown answer || abstentions.any (containsWords T lower)
  let guesses := guesses.any (containsWords T lower)
  if !abstains then
    if guesses then .hedgedWithValue else .value
  else if guesses || namesSomething T lower question then .hedgedWithValue
  else .abstained

/-- Is the window the phrase, its last word with an `s` or without? -/
def phraseAt (phrase window : List Chars) : Bool :=
  (window.zip phrase).zipIdx.all fun ((w, p), i) =>
    w = p || (i = phrase.length - 1 && w = p ++ ['s'])

/-- Does `text` contain `phrase` as whole words (a trailing `s` allowed)? -/
def containsPhrase (text phrase : Chars) : Bool :=
  !(words T phrase).isEmpty &&
    (windows (words T phrase).length (words T text)).any (phraseAt (words T phrase))

/-- What the score reads of an ask. -/
structure AskedSide where
  side : SideRole
  question : Chars
  value : Option Chars

def scoreAnswer (ask : AskedSide) (answer : Chars) : Outcome :=
  let answer := trimChars answer
  if answer.isEmpty then .unanswered
  else
    let kind := answerKind T answer ask.question
    match ask.side, ask.value with
    | .twin, _ => if kind = .abstained then .correct else .wrong
    | _, some value =>
      if kind = .abstained then .unknown
      else if containsPhrase T answer value then .correct else .wrong
    | _, none => .noTruth

/-- The words of a phrase with an `s` after the last. -/
def plural : List Chars → List Chars
  | [] => []
  | [p] => [p ++ ['s']]
  | p :: ps => p :: plural ps

/-- Words that name something, or guess. -/
def Offers (question : Chars) (ws : List Chars) : Prop :=
  (∃ w ∈ ws, namesNothing T w (words T question) = false) ∨
    ∃ g ∈ guesses, words T g ≠ [] ∧ words T g <:+: ws

variable {T}

/-! What the checks read. -/

private theorem plain_straighten {text : Chars} (h : Plain text) : Plain (straighten text) := by
  intro c hc
  obtain ⟨d, hd, rfl⟩ := List.mem_map.mp hc
  split_ifs
  · decide
  · exact h d hd

private theorem words_lowered {answer : Chars} (h : Plain answer) :
    words T (straighten (toLowercase T answer)) = words T answer := by
  have hquote : T.alphanumeric '\'' = false := by rw [T.alphanumeric_ascii _ (by decide)]; rfl
  have hcurly : T.alphanumeric '’' = false := T.not_alphanumeric _ (.inr rfl)
  have hlower : Plain (toLowercase T answer) := by
    rw [Text.toLowercase_plain h]
    exact Text.plain_lower answer
  rw [← Text.words_toLowercase h]
  refine Text.words_map (fun c => ?_) (fun c hc => ?_) hlower (plain_straighten hlower)
  · split_ifs with hcc
    · rw [hcc, hquote, hcurly]
    · rfl
  · split_ifs with hcc
    · rw [hcc, hcurly] at hc
      exact nomatch hc
    · rfl

private theorem any_containsWords {answer : Chars} (h : Plain answer) (phrases : List Chars) :
    phrases.any (containsWords T (straighten (toLowercase T answer))) = true ↔
      ∃ p ∈ phrases, words T p ≠ [] ∧ words T p <:+: words T answer := by
  simp only [List.any_eq_true, Text.containsWords_iff, words_lowered h]

private theorem namesSomething_iff {answer : Chars} (h : Plain answer) (question : Chars) :
    namesSomething T (straighten (toLowercase T answer)) question = true ↔
      ∃ w ∈ words T answer, namesNothing T w (words T question) = false := by
  simp only [namesSomething, List.any_eq_true, words_lowered h, Bool.not_eq_true']

/-- An answer that offers something is no bare abstention. -/
theorem answerKind_offers {answer question : Chars} (h : Plain answer) {ws : List Chars}
    (hws : ws <:+: words T answer) (ho : Offers T question ws) :
    answerKind T answer question ≠ .abstained := by
  have hor : guesses.any (containsWords T (straighten (toLowercase T answer))) = true ∨
      namesSomething T (straighten (toLowercase T answer)) question = true := by
    rw [any_containsWords h, namesSomething_iff h]
    rcases ho with ⟨w, hw, hn⟩ | ⟨g, hg, hne, hi⟩
    · exact .inr ⟨w, hws.subset hw, hn⟩
    · exact .inl ⟨g, hg, hne, hi.trans hws⟩
  rw [← Bool.or_eq_true] at hor
  unfold answerKind
  simp only [hor]
  split_ifs <;> exact fun he => nomatch he

/-- An abstention whose words name nothing is a bare one unless it carries a guess phrase. -/
theorem answerKind_abstained {answer question : Chars} (h : Plain answer)
    (ha : ∃ p ∈ abstentions, words T p ≠ [] ∧ words T p <:+: words T answer)
    (hn : ∀ w ∈ words T answer, namesNothing T w (words T question) = true) :
    answerKind T answer question = .abstained ↔
      ∀ g ∈ guesses, containsWords T answer g = false := by
  have habstains := (any_containsWords h abstentions).mpr ha
  have hnames : namesSomething T (straighten (toLowercase T answer)) question = false := by
    rw [← Bool.not_eq_true, namesSomething_iff h]
    rintro ⟨w, hw, hf⟩
    rw [hn w hw] at hf
    exact nomatch hf
  have hguess : guesses.any (containsWords T (straighten (toLowercase T answer))) = false ↔
      ∀ g ∈ guesses, containsWords T answer g = false := by
    rw [← Bool.not_eq_true, any_containsWords h]
    simp only [← Bool.not_eq_true (containsWords T answer _), Text.containsWords_iff]
    push Not
    rfl
  rw [← hguess, answerKind, habstains, hnames]
  cases guesses.any (containsWords T (straighten (toLowercase T answer))) <;> simp

private theorem phraseAt_from (n : Nat) : ∀ {phrase window : List Chars} {k : Nat},
    phrase.length = window.length → n = k + phrase.length - 1 → phrase ≠ [] →
    (((window.zip phrase).zipIdx k).all (fun ((w, p), i) => w = p || (i = n && w = p ++ ['s'])) =
      true ↔ window = phrase ∨ window = plural phrase) := by
  intro phrase
  induction phrase with
  | nil => exact fun _ _ hne => absurd rfl hne
  | cons p ps ih =>
    intro window k hlen hn _
    obtain _ | ⟨w, ws⟩ := window
    · exact nomatch hlen
    rw [List.length_cons, List.length_cons, Nat.add_right_cancel_iff] at hlen
    rw [List.length_cons] at hn
    cases ps with
    | nil =>
      obtain rfl := List.length_eq_zero_iff.mp hlen.symm
      have hk : k = n := by simp at hn; omega
      simp [plural, hk]
    | cons p' ps =>
      have hk : k ≠ n := by simp at hn; omega
      have hrest := @ih ws (k + 1) hlen (by rw [hn]; omega) (List.cons_ne_nil _ _)
      rw [List.zip_cons_cons, List.zipIdx_cons, List.all_cons, Bool.and_eq_true, hrest]
      simp only [decide_eq_true_eq, hk, decide_false, Bool.false_and, Bool.or_false, plural,
        List.cons.injEq]
      exact and_or_left

private theorem length_plural (ws : List Chars) : (plural ws).length = ws.length := by
  fun_induction plural ws with
  | case1 => rfl
  | case2 p => rfl
  | case3 p ps _ ih => rw [List.length_cons, ih, List.length_cons]

theorem containsPhrase_iff {text phrase : Chars} : containsPhrase T text phrase = true ↔
    words T phrase ≠ [] ∧
      (words T phrase <:+: words T text ∨ plural (words T phrase) <:+: words T text) := by
  rw [containsPhrase, Bool.and_eq_true, Bool.not_eq_true', List.isEmpty_eq_false_iff]
  refine and_congr_right fun hne => ?_
  have hpos := List.length_pos_of_ne_nil hne
  rw [List.any_eq_true]
  constructor
  · rintro ⟨window, hmem, hat⟩
    obtain ⟨hi, hlen⟩ := (Text.mem_windows hpos).mp hmem
    rcases (phraseAt_from _ hlen.symm (by rw [Nat.zero_add]) hne).mp hat with rfl | rfl
    · exact .inl hi
    · exact .inr hi
  · have hat {window : List Chars} (hlen : window.length = (words T phrase).length)
        (hw : window = words T phrase ∨ window = plural (words T phrase)) :
        phraseAt (words T phrase) window = true :=
      (phraseAt_from _ hlen.symm (by rw [Nat.zero_add]) hne).mpr hw
    rintro (hi | hi)
    · exact ⟨_, (Text.mem_windows hpos).mpr ⟨hi, rfl⟩, hat rfl (.inl rfl)⟩
    · exact ⟨_, (Text.mem_windows hpos).mpr ⟨hi, length_plural _⟩,
        hat (length_plural _) (.inr rfl)⟩

/-! Scores. -/

private theorem plain_trim {text : Chars} (h : Plain text) : Plain (trimChars text) := fun c hc =>
  h c ((List.dropWhile_suffix _).subset ((List.rdropWhile_prefix _ _).subset hc))

private theorem trim_ne_nil {text : Chars} (h : words T text ≠ []) :
    (trimChars text).isEmpty = false := by
  rw [List.isEmpty_eq_false_iff]
  intro hnil
  rw [← Text.words_trim, hnil] at h
  exact h Text.words_nil

private theorem containsPhrase_trim (text phrase : Chars) :
    containsPhrase T (trimChars text) phrase = containsPhrase T text phrase := by
  rw [Bool.eq_iff_iff, containsPhrase_iff, containsPhrase_iff, Text.words_trim]

private theorem scoreAnswer_value {ask : AskedSide} {v : Chars} (hside : ask.side ≠ .twin)
    (hv : ask.value = some v) {answer : Chars} (hne : words T answer ≠ []) :
    scoreAnswer T ask answer =
      if answerKind T (trimChars answer) ask.question = .abstained then .unknown
      else if containsPhrase T answer v then .correct else .wrong := by
  unfold scoreAnswer
  simp only [trim_ne_nil hne, Bool.false_eq_true, if_false, hv, containsPhrase_trim]

private theorem scoreAnswer_twin {ask : AskedSide} (hside : ask.side = .twin) {answer : Chars}
    (hne : words T answer ≠ []) : scoreAnswer T ask answer =
      if answerKind T (trimChars answer) ask.question = .abstained then .correct else .wrong := by
  unfold scoreAnswer
  simp only [trim_ne_nil hne, Bool.false_eq_true, if_false, hside]

private theorem infix_of_append {x a b : List Chars} (h : x <:+: a ++ b) (hd : ∀ w ∈ a, w ∉ x) :
    x <:+: b := by
  induction a with
  | nil => exact h
  | cons w a ih =>
    obtain ⟨hw, hd⟩ := List.forall_mem_cons.mp hd
    rw [List.cons_append, List.infix_cons_iff] at h
    rcases h with h | h
    · cases x with
      | nil => exact List.nil_infix
      | cons y x =>
        have hy := (List.cons_prefix_cons.mp h).1
        exact absurd (by simp [hy]) hw
    · exact ih h hd

private theorem words_notSure : words T "not sure".toList = ["not".toList, "sure".toList] := by
  rw [Text.words_ascii (by decide)]
  decide

private theorem notSure_guess : ∀ g ∈ guesses, ∀ w ∈ words T "not sure".toList, w ∉ words T g := by
  intro g hg
  have hascii : ∀ g ∈ guesses, (g.all fun c => c.toNat < 128) = true := by decide
  rw [words_notSure, Text.words_ascii (hascii g hg)]
  revert g
  decide

/-- Words that offer nothing, after an abstention. -/
private theorem bare_abstention {question : Chars} {ws : List Chars}
    (hws : ∀ w ∈ ws, IsLowerWord T w) (ho : ¬Offers T question ws) :
    ∃ answer, Plain answer ∧ words T answer = words T "not sure".toList ++ ws ∧
      answerKind T (trimChars answer) question = .abstained := by
  have hsure : "not sure".toList ∈ abstentions := by decide
  have hplain : Plain ("not sure".toList ++ ' ' :: spaced ws) :=
    List.forall_mem_append.mpr ⟨(by decide : Plain "not sure".toList),
      List.forall_mem_cons.mpr ⟨by decide, Text.plain_spaced hws⟩⟩
  have hwords : words T ("not sure".toList ++ ' ' :: spaced ws) =
      words T "not sure".toList ++ ws := by
    rw [Text.words_append (T.not_alphanumeric ' ' (.inl rfl)), Text.words_spaced hws]
  refine ⟨_, hplain, hwords, (answerKind_abstained (plain_trim hplain) ?_ ?_).mpr ?_⟩
  · refine ⟨_, hsure, ?_, ?_⟩
    · rw [words_notSure]
      exact List.cons_ne_nil _ _
    · rw [Text.words_trim, hwords]
      exact List.infix_append' [] _ _
  · rw [Text.words_trim, hwords]
    refine List.forall_mem_append.mpr ⟨fun w hw => ?_, fun w hw => ?_⟩
    · rw [namesNothing, Bool.or_eq_true, List.any_eq_true]
      exact .inr ⟨_, hsure, by simpa using hw⟩
    · by_contra hf
      exact ho (.inl ⟨w, hw, Bool.not_eq_true _ ▸ hf⟩)
  · intro g hg
    rw [← Bool.not_eq_true, Text.containsWords_iff, Text.words_trim, hwords]
    rintro ⟨hne, hi⟩
    exact ho (.inr ⟨g, hg, hne, infix_of_append hi (notSure_guess g hg)⟩)

private theorem plural_word {ws : List Chars} (h : ∀ w ∈ ws, IsLowerWord T w) :
    ∀ w ∈ plural ws, IsLowerWord T w := by
  have hs : T.alphanumeric 's' = true ∧ T.lower 's' = 's' :=
    ⟨by rw [T.alphanumeric_ascii _ (by decide)]; rfl, by rw [T.lower_ascii _ (by decide)]; rfl⟩
  fun_induction plural ws with
  | case1 => exact h
  | case2 p =>
    have hp := h p (by simp)
    refine List.forall_mem_singleton.mpr ⟨by simp, ?_⟩
    exact List.forall_mem_append.mpr ⟨hp.lowered, List.forall_mem_singleton.mpr hs⟩
  | case3 p ps _ ih =>
    obtain ⟨hp, hps⟩ := List.forall_mem_cons.mp h
    exact List.forall_mem_cons.mpr ⟨hp, ih hps⟩

/-- A value is scored correct in every answer that holds it exactly when its words offer something,
with the `s` the answer may put after the last and without. -/
theorem value_correct_iff {ask : AskedSide} {v : Chars} (hside : ask.side ≠ .twin)
    (hv : ask.value = some v) (hplain : Plain v) :
    (∀ answer, Plain answer → containsPhrase T answer v = true →
        scoreAnswer T ask answer = .correct) ↔
      (words T v ≠ [] → Offers T ask.question (words T v) ∧
        Offers T ask.question (plural (words T v))) := by
  constructor
  · intro h hne
    have hoffers {ws : List Chars} (hw : ws = words T v ∨ ws = plural (words T v)) :
        Offers T ask.question ws := by
      by_contra ho
      have hlower : ∀ w ∈ ws, IsLowerWord T w := by
        rcases hw with rfl | rfl
        · exact Text.isLowerWord_of_mem hplain
        · exact plural_word (Text.isLowerWord_of_mem hplain)
      obtain ⟨answer, hp, hwords, hkind⟩ := bare_abstention hlower ho
      have hin : ws <:+: words T answer := by
        rw [hwords]
        exact List.infix_append_right
      have hanswer : words T answer ≠ [] := by
        rw [hwords, words_notSure]
        exact List.cons_ne_nil _ _
      have hcorrect := h answer hp (containsPhrase_iff.mpr ⟨hne, by
        rcases hw with rfl | rfl
        · exact .inl hin
        · exact .inr hin⟩)
      rw [scoreAnswer_value hside hv hanswer, if_pos hkind] at hcorrect
      exact nomatch hcorrect
    exact ⟨hoffers (.inl rfl), hoffers (.inr rfl)⟩
  · intro h answer hp hc
    obtain ⟨hne, hin⟩ := containsPhrase_iff.mp hc
    obtain ⟨ho, hos⟩ := h hne
    have hkind : answerKind T (trimChars answer) ask.question ≠ .abstained := by
      rcases hin with hin | hin
      · exact answerKind_offers (plain_trim hp) (by rwa [Text.words_trim]) ho
      · exact answerKind_offers (plain_trim hp) (by rwa [Text.words_trim]) hos
    have hanswer : words T answer ≠ [] := by
      intro hnil
      rw [hnil, List.infix_nil, List.infix_nil] at hin
      rcases hin with hin | hin
      · exact hne hin
      · have := length_plural (words T v)
        rw [hin] at this
        exact hne (List.length_eq_zero_iff.mp this.symm)
    rw [scoreAnswer_value hside hv hanswer, if_neg hkind, if_pos hc]

/-- A value whose words offer something is scored correct wherever it stands and no other is, and an
abstention beside which nothing is named is bare unless it carries a guess phrase. -/
theorem answers_scored (T : Casing) (ask : AskedSide) :
    (∀ v, ask.side ≠ .twin → ask.value = some v → Plain v →
      ((∀ answer, Plain answer → containsPhrase T answer v = true →
          scoreAnswer T ask answer = .correct) ↔
        (words T v ≠ [] → Offers T ask.question (words T v) ∧
          Offers T ask.question (plural (words T v))))) ∧
    (∀ answer, Plain answer → (∃ p ∈ abstentions, containsWords T answer p = true) →
      (∀ w ∈ words T answer, namesNothing T w (words T ask.question) = true) →
      ((answerKind T answer ask.question = .abstained ↔
          ∀ g ∈ guesses, containsWords T answer g = false) ∧
        ((∀ g ∈ guesses, containsWords T answer g = false) →
          (ask.side = .twin → scoreAnswer T ask answer = .correct) ∧
          (ask.side ≠ .twin → ∀ v, ask.value = some v → scoreAnswer T ask answer = .unknown)))) := by
  refine ⟨fun v hside hv hp => value_correct_iff hside hv hp, fun answer hp ha hn => ?_⟩
  obtain ⟨p, hp', hc⟩ := ha
  obtain ⟨hne, hi⟩ := Text.containsWords_iff.mp hc
  have hanswer : words T answer ≠ [] := by
    intro hnil
    rw [hnil, List.infix_nil] at hi
    exact hne hi
  refine ⟨answerKind_abstained hp ⟨p, hp', hne, hi⟩ hn, fun hg => ?_⟩
  -- the score trims the answer, which leaves its words
  have hkind : answerKind T (trimChars answer) ask.question = .abstained := by
    refine (answerKind_abstained (plain_trim hp) ⟨p, hp', hne, ?_⟩ ?_).mpr fun g hgm => ?_
    · rwa [Text.words_trim]
    · rwa [Text.words_trim]
    · have := hg g hgm
      rw [← Bool.not_eq_true, Text.containsWords_iff] at this ⊢
      rwa [Text.words_trim]
  exact ⟨fun hside => by rw [scoreAnswer_twin hside hanswer, if_pos hkind],
    fun hside v hv => by rw [scoreAnswer_value hside hv hanswer, if_pos hkind]⟩

theorem answers_scored_lychee :
    scoreAnswer Text.asciiCasing ⟨.planted, "Which fruit?".toList, some "lychee".toList⟩
        "Not sure, maybe lychee".toList = .correct ∧
      scoreAnswer Text.asciiCasing ⟨.twin, "Which fruit?".toList, none⟩
        "I don't know".toList = .correct := by
  have hplanted := ((answers_scored Text.asciiCasing
    ⟨.planted, "Which fruit?".toList, some "lychee".toList⟩).1 _ (by decide) rfl (by decide)).mpr
    fun _ => ⟨.inl ⟨"lychee".toList, by decide, by decide⟩,
      .inl ⟨"lychees".toList, by decide, by decide⟩⟩
  have htwin := (answers_scored Text.asciiCasing ⟨.twin, "Which fruit?".toList, none⟩).2
    "I don't know".toList (by decide) ⟨"don't know".toList, by decide, by decide⟩ (by decide)
  exact ⟨hplanted _ (by decide) (by decide), (htwin.2 (by decide)).1 rfl⟩

/-- Values of listed words, one that an `s` makes a listed word, guess phrases of listed words, and
texts whose lower case depends on the text around. -/
theorem answers_misread :
    scoreAnswer Text.asciiCasing ⟨.planted, "Which month is best?".toList, some "May".toList⟩
        "I don't know, May".toList = .unknown ∧
      containsPhrase Text.asciiCasing "I don't know, May".toList "May".toList = true ∧
    scoreAnswer Text.asciiCasing ⟨.planted, "Which word?".toList, some "thi".toList⟩
        "I don't know this".toList = .unknown ∧
      containsPhrase Text.asciiCasing "I don't know this".toList "thi".toList = true ∧
    scoreAnswer Text.asciiCasing ⟨.planted, "Which city?".toList, some "İ".toList⟩
        "I don't know İ".toList = .unknown ∧
      containsPhrase Text.asciiCasing "I don't know İ".toList "İ".toList = true ∧
    scoreAnswer Text.asciiCasing ⟨.planted, "Is it aσ?".toList, some "aΣ".toList⟩
        "I don't know aΣ'a".toList = .unknown ∧
      containsPhrase Text.asciiCasing "I don't know aΣ'a".toList "aΣ".toList = true ∧
    scoreAnswer Text.asciiCasing ⟨.twin, "Which fruit?".toList, none⟩
        "I don't know, if I had to say".toList = .wrong ∧
      (∀ w ∈ words Text.asciiCasing "I don't know, if I had to say".toList,
        namesNothing Text.asciiCasing w (words Text.asciiCasing "Which fruit?".toList) = true) := by
  decide +kernel

end PulseNull.Probe
