import PulseNull.Probe.Abstention
import Mathlib.Data.Finset.Dedup

/-! The model rule: a text is cut into name words and version parts, and an answer is right when it
names the truth's model and no other. -/
namespace PulseNull.Probe
open Text (Chars Casing toLowercase isWhitespace trimChars pieces)

/-- Which texts are dates, by `%Y-%m-%d` and by `%Y%m%d`. -/
structure Calendar where
  isDate : Chars → Bool
  isCompact : Chars → Bool

/-- `str::len` -/
def byteLen (text : Chars) : Nat := (text.map Char.utf8Size).sum

/-- `str::split_whitespace` -/
def tokens (text : Chars) : List Chars := pieces isWhitespace text

/-- `str::rsplit_once` -/
def rsplitOnce (sep : Char → Bool) (text : Chars) : Option (Chars × Chars) :=
  match text.reverse.span fun c => !sep c with
  | (_, []) => none
  | (tail, _ :: head) => some (head.reverse, tail.reverse)

variable (C : Calendar) (T : Casing)

/-- `YYYYMMDD` for a real date in 2000-2099. -/
def isCompactDate (text : Chars) : Bool :=
  byteLen text = 8 && "20".toList.isPrefixOf text && C.isCompact text

/-- A four-digit year. -/
def isYear (part : Chars) : Bool :=
  byteLen part = 4 && "20".toList.isPrefixOf part && part.all Char.isDigit

/-- `id` without a trailing `-2026-10-01`. -/
def stripDashedDate (id : Chars) : Chars :=
  match rsplitOnce (· = '-') id with
  | none => id
  | some (rest, day) => match rsplitOnce (· = '-') rest with
    | none => id
    | some (rest, month) => match rsplitOnce (· = '-') rest with
      | none => id
      | some (head, year) =>
        if C.isDate (year ++ '-' :: month ++ '-' :: day) && byteLen year = 4 then head else id

/-- `id` without a trailing release date. -/
def stripModelDate (id : Chars) : Chars :=
  match rsplitOnce ['-', '@', '_'].contains id with
  | some (head, tail) => if isCompactDate C tail then head else stripDashedDate C id
  | none => stripDashedDate C id

def tokenParts (token : Chars) : List Chars :=
  let token := toLowercase T
    ((token.dropWhile fun c => !c.isAlphanum).rdropWhile fun c => !c.isAlphanum)
  pieces (fun c => !c.isAlphanum) (stripModelDate C token)

/-- Lowercase words and numbers of `text`, release dates left out. -/
def modelParts (text : Chars) : List Chars :=
  ((tokens text).flatMap (tokenParts C T)).filter fun p => !isCompactDate C p && !isYear p

/-- One or two digits, maybe a short letter suffix (`4o`). -/
def isVersionPart (part : Chars) : Bool :=
  let digits := (part.takeWhile Char.isDigit).length
  1 ≤ digits && digits ≤ 2 && byteLen (part.drop digits) ≤ 3 && (part.drop digits).all Char.isLower

def modelFamilies : List Chars :=
  ["claude", "opus", "sonnet", "haiku", "grok", "gpt", "gemini", "llama", "mistral", "qwen",
    "deepseek", "codex"].map String.toList

/-- A model as named in text. -/
structure ModelName where
  names : Finset Chars
  version : List Chars
  deriving DecidableEq

def parseModel (id : Chars) : Option ModelName :=
  let parts := modelParts C T id
  let names := (parts.filter fun p => !isVersionPart p).toFinset
  if names = ∅ then none else some ⟨names, parts.filter isVersionPart⟩

def isName (truthNames : Finset Chars) (part : Chars) : Bool :=
  modelFamilies.contains part || part ∈ truthNames

/-- The rest of a mention, and what follows it. -/
def takeMention (truthNames : Finset Chars) (mention : ModelName) :
    List Chars → ModelName × List Chars
  | [] => (mention, [])
  | part :: rest =>
    if isVersionPart part then
      takeMention truthNames { mention with version := mention.version ++ [part] } rest
    else if isName truthNames part && mention.version.isEmpty then
      takeMention truthNames { mention with names := insert part mention.names } rest
    else (mention, part :: rest)

def mentionsFrom (truthNames : Finset Chars) : Nat → List Chars → List ModelName
  | 0, _ => []
  | _ + 1, [] => []
  | n + 1, part :: rest =>
    if !isName truthNames part then mentionsFrom truthNames n rest
    else
      let taken := takeMention truthNames ⟨∅, []⟩ (part :: rest)
      taken.1 :: mentionsFrom truthNames n taken.2

/-- Every model the answer names. -/
def modelMentions (answer : Chars) (truthNames : Finset Chars) : List ModelName :=
  mentionsFrom truthNames (modelParts C T answer).length (modelParts C T answer)

def modelMatches (answer truth : Chars) : Bool :=
  match parseModel C T truth with
  | none => false
  | some truth =>
    let mentions := modelMentions C T answer truth.names
    mentions.contains truth &&
      mentions.all fun m => m = truth || (m.version.isEmpty && decide (m.names ⊆ truth.names))

/-- One answer against its truth, by the check of its rule. -/
def scoreBy (matchesTruth : Chars → Chars → Bool) (truth answer : Option Chars) : Outcome :=
  match truth with
  | none => .noTruth
  | some truth => match (answer.map trimChars).filter (· ≠ []) with
    | none => .unanswered
    | some answer =>
      if saysUnknown answer then .unknown
      else if matchesTruth answer truth then .correct else .wrong

def scoreModel (truth answer : Option Chars) : Outcome := scoreBy (modelMatches C T) truth answer

/-! What a mention is. -/

section Mentions
variable {names : Finset Chars} {m : ModelName}

/-- The model named from a place on: the name words there and the version parts after them. -/
def mentionAt (names : Finset Chars) (parts : List Chars) : ModelName :=
  ⟨(parts.takeWhile (isName names)).toFinset,
    (parts.dropWhile (isName names)).takeWhile isVersionPart⟩

/-- `m` is named among the parts: it starts at a name word that no name word precedes. -/
def Named (names : Finset Chars) (parts : List Chars) (m : ModelName) : Prop :=
  ∃ before part rest, parts = before ++ part :: rest ∧ isName names part = true ∧
    (∀ init q, before = init ++ [q] → isName names q = false) ∧ m = mentionAt names (part :: rest)

/-- No name word is a version part. -/
def Apart (names : Finset Chars) : Prop :=
  ∀ part, isName names part = true → isVersionPart part = false

private theorem apart_of_names (h : ∀ part ∈ names, isVersionPart part = false) : Apart names := by
  have hfamilies : ∀ part ∈ modelFamilies, isVersionPart part = false := by decide
  intro part hp
  simp only [isName, Bool.or_eq_true, List.contains_iff_mem, decide_eq_true_eq] at hp
  exact hp.elim (hfamilies part) (h part)

private theorem takeMention_version (names : Finset Chars) (known : Finset Chars) :
    ∀ {version parts : List Chars}, version ≠ [] →
      takeMention names ⟨known, version⟩ parts =
        (⟨known, version ++ parts.takeWhile isVersionPart⟩, parts.dropWhile isVersionPart) := by
  intro version parts hne
  induction parts generalizing version with
  | nil => simp [takeMention]
  | cons part rest ih =>
    rw [takeMention]
    by_cases hv : isVersionPart part = true
    · rw [if_pos hv, ih (by simp), List.takeWhile_cons_of_pos hv, List.dropWhile_cons_of_pos hv]
      simp
    · have hempty : version.isEmpty = false := List.isEmpty_eq_false_iff.mpr hne
      rw [if_neg hv, if_neg (by simp [hempty]), List.takeWhile_cons_of_neg hv,
        List.dropWhile_cons_of_neg hv]
      simp

private theorem takeMention_eq (ha : Apart names) (known : Finset Chars) (parts : List Chars) :
    takeMention names ⟨known, []⟩ parts =
      (⟨known ∪ (mentionAt names parts).names, (mentionAt names parts).version⟩,
        (parts.dropWhile (isName names)).dropWhile isVersionPart) := by
  induction parts generalizing known with
  | nil => simp [takeMention, mentionAt]
  | cons part rest ih =>
    rw [takeMention]
    by_cases hv : isVersionPart part = true
    · have hn : ¬isName names part = true := fun h => by simp [ha part h] at hv
      rw [if_pos hv, takeMention_version names known (by simp), mentionAt,
        List.takeWhile_cons_of_neg hn, List.dropWhile_cons_of_neg hn,
        List.takeWhile_cons_of_pos hv, List.dropWhile_cons_of_pos hv]
      simp
    · rw [if_neg hv]
      by_cases hn : isName names part = true
      · rw [if_pos (by simp [hn]), ih, mentionAt, mentionAt, List.takeWhile_cons_of_pos hn,
          List.dropWhile_cons_of_pos hn]
        simp
      · rw [if_neg (by simp [hn]), mentionAt, List.takeWhile_cons_of_neg hn,
          List.dropWhile_cons_of_neg hn, List.takeWhile_cons_of_neg hv,
          List.dropWhile_cons_of_neg hv]
        simp

private theorem named_skip {part : Chars} (hn : isName names part = false) (rest : List Chars) :
    Named names (part :: rest) m ↔ Named names rest m := by
  constructor
  · rintro ⟨before, q, after, heq, hq, hlast, hm⟩
    cases before with
    | nil =>
      rw [(List.cons.inj heq).1, hq] at hn
      exact nomatch hn
    | cons b before =>
      exact ⟨before, q, after, (List.cons.inj heq).2, hq,
        fun init x hx => hlast (b :: init) x (by rw [hx]; rfl), hm⟩
  · rintro ⟨before, q, after, rfl, hq, hlast, hm⟩
    refine ⟨part :: before, q, after, rfl, hq, fun init x hx => ?_, hm⟩
    cases init with
    | nil => rwa [← (List.cons.inj hx).1]
    | cons b init => exact hlast init x (List.cons.inj hx).2

private theorem past_run {p : Chars → Bool} {ns x before tail : List Chars} {q : Chars}
    (hns : ∀ n ∈ ns, p n = true) (hlast : before ≠ [] ∧ ∀ init b, before = init ++ [b] → p b = false)
    (h : ns ++ x = before ++ q :: tail) : ∃ y, before = ns ++ y ∧ x = y ++ q :: tail := by
  rcases List.append_eq_append_iff.mp h with ⟨d, hd, hx⟩ | ⟨d, hd, _⟩
  · exact ⟨d, hd, hx⟩
  · rcases List.eq_nil_or_concat' before with rfl | ⟨init, b, rfl⟩
    · exact absurd rfl hlast.1
    · have hb := hns b (by rw [hd]; simp)
      rw [hlast.2 init b rfl] at hb
      exact nomatch hb

private theorem past_others {p : Chars → Bool} {vs x before tail : List Chars} {q : Chars}
    (hvs : ∀ v ∈ vs, p v = false) (hq : p q = true) (h : vs ++ x = before ++ q :: tail) :
    ∃ y, before = vs ++ y ∧ x = y ++ q :: tail := by
  rcases List.append_eq_append_iff.mp h with ⟨d, hd, hx⟩ | ⟨d, hd, hx⟩
  · exact ⟨d, hd, hx⟩
  · cases d with
    | nil => exact ⟨[], by simpa using hd.symm, by simpa using hx.symm⟩
    | cons y d =>
      have hy : q = y := (List.cons.inj hx).1
      rw [hvs q (by rw [hd, hy]; simp)] at hq
      exact nomatch hq

private theorem head_dropWhile {p : Chars → Bool} {parts tail : List Chars} {q : Chars}
    (h : parts.dropWhile p = q :: tail) : p q = false := by
  have := List.head?_dropWhile_not p parts
  rw [h] at this
  simpa using this

/-- Past a mention the others are named in what follows it. -/
private theorem named_run (ha : Apart names) {part : Chars} (hp : isName names part = true)
    (rest : List Chars) : Named names (part :: rest) m ↔ m = mentionAt names (part :: rest) ∨
      Named names (((part :: rest).dropWhile (isName names)).dropWhile isVersionPart) m := by
  generalize hparts : part :: rest = parts
  obtain ⟨ns, hns⟩ : ∃ ns, ns = parts.takeWhile (isName names) := ⟨_, rfl⟩
  obtain ⟨vs, hvs⟩ : ∃ vs, vs = (parts.dropWhile (isName names)).takeWhile isVersionPart :=
    ⟨_, rfl⟩
  obtain ⟨after, hafter⟩ :
      ∃ after, after = (parts.dropWhile (isName names)).dropWhile isVersionPart := ⟨_, rfl⟩
  have hdrop : parts.dropWhile (isName names) = vs ++ after := by
    rw [hvs, hafter, List.takeWhile_append_dropWhile]
  have hsplit : parts = ns ++ (vs ++ after) := by
    rw [hns, ← hdrop, List.takeWhile_append_dropWhile]
  have hname : ∀ n ∈ ns, isName names n = true := fun n hn =>
    List.mem_takeWhile_imp (hns ▸ hn)
  have hversion : ∀ v ∈ vs, isName names v = false := fun v hv => by
    have hv : isVersionPart v = true := List.mem_takeWhile_imp (hvs ▸ hv)
    by_contra hn
    rw [ha v (by simpa using hn)] at hv
    exact nomatch hv
  rw [← hafter]
  constructor
  · rintro ⟨before, q, tail, heq, hq, hlast, hm⟩
    by_cases hb : before = []
    · rw [hb, List.nil_append] at heq
      exact .inl (heq ▸ hm)
    · -- the part before the start is no name word, so the start is past the names
      obtain ⟨y, rfl, hy⟩ := past_run hname ⟨hb, hlast⟩ (by rw [← heq, ← hsplit])
      obtain ⟨z, rfl, hz⟩ := past_others hversion hq hy
      exact .inr ⟨z, q, tail, hz, hq, fun init x hx =>
        hlast (ns ++ (vs ++ init)) x (by rw [hx]; simp), hm⟩
  · rintro (rfl | ⟨before, q, tail, htail, hq, hlast, hm⟩)
    · exact ⟨[], part, rest, hparts.symm, hp, fun init q h => by simp at h, by rw [hparts]⟩
    · refine ⟨ns ++ (vs ++ before), q, tail, by rw [hsplit, htail]; simp, hq, fun init x hx => ?_, hm⟩
      rcases List.eq_nil_or_concat' before with rfl | ⟨init', x', rfl⟩
      · rcases List.eq_nil_or_concat' vs with rfl | ⟨init', x', rfl⟩
        · rw [List.nil_append, htail] at hdrop
          rw [head_dropWhile hdrop] at hq
          exact nomatch hq
        · have hx' : ns ++ init' ++ [x'] = init ++ [x] := by rw [← hx]; simp
          rw [← (List.append_inj' hx' rfl).2 |> List.singleton_inj.mp]
          exact hversion x' (by simp)
      · have hx' : ns ++ (vs ++ init') ++ [x'] = init ++ [x] := by rw [← hx]; simp
        rw [← (List.append_inj' hx' rfl).2 |> List.singleton_inj.mp]
        exact hlast init' x' rfl

private theorem mentionsFrom_iff (ha : Apart names) (n : Nat) : ∀ {parts : List Chars},
    parts.length ≤ n → (m ∈ mentionsFrom names n parts ↔ Named names parts m) := by
  induction n with
  | zero =>
    intro parts hn
    obtain rfl := List.length_eq_zero_iff.mp (Nat.le_zero.mp hn)
    simp [mentionsFrom, Named]
  | succ n ih =>
    intro parts hn
    cases parts with
    | nil => simp [mentionsFrom, Named]
    | cons part rest =>
      rw [mentionsFrom]
      by_cases hp : isName names part = true
      · rw [if_neg (by simp [hp]), takeMention_eq ha, named_run ha hp, List.mem_cons, ih]
        · simp
        · have hdrop : ((part :: rest).dropWhile (isName names)).dropWhile isVersionPart <:+ rest := by
            rw [List.dropWhile_cons_of_pos hp]
            exact (List.dropWhile_suffix _).trans (List.dropWhile_suffix _)
          exact hdrop.length_le.trans (Nat.le_of_succ_le_succ hn)
      · rw [if_pos (by simp [hp]), named_skip (Bool.not_eq_true _ ▸ hp),
          ih (Nat.le_of_succ_le_succ hn)]

end Mentions

/-! The rule. -/

variable {C T}

theorem modelParts_trim (text : Chars) : modelParts C T (trimChars text) = modelParts C T text := by
  rw [modelParts, modelParts, tokens, trimChars, Text.pieces_strip fun c hc => hc]
  rfl

private theorem parseModel_some {id : Chars} {truth : ModelName}
    (h : parseModel C T id = some truth) :
    truth = ⟨((modelParts C T id).filter fun p => !isVersionPart p).toFinset,
      (modelParts C T id).filter isVersionPart⟩ := by
  rw [parseModel] at h
  split_ifs at h
  exact (Option.some.inj h).symm

theorem apart_truth {id : Chars} {truth : ModelName} (h : parseModel C T id = some truth) :
    Apart truth.names := by
  rw [parseModel_some h]
  refine apart_of_names fun part hp => ?_
  simpa using (List.mem_filter.mp (List.mem_toFinset.mp hp)).2

/-- An answer matches when it names the truth's model and every other model it names is part of the
truth's name, without a version. -/
theorem modelMatches_iff {answer id : Chars} : modelMatches C T answer id = true ↔
    ∃ truth, parseModel C T id = some truth ∧ Named truth.names (modelParts C T answer) truth ∧
      ∀ m, Named truth.names (modelParts C T answer) m →
        m = truth ∨ (m.version = [] ∧ m.names ⊆ truth.names) := by
  rw [modelMatches]
  cases h : parseModel C T id with
  | none => simp
  | some truth =>
    have hmem (m : ModelName) : m ∈ modelMentions C T answer truth.names ↔
        Named truth.names (modelParts C T answer) m := mentionsFrom_iff (apart_truth h) _ le_rfl
    simp only [Option.some.injEq, exists_eq_left', Bool.and_eq_true, List.contains_iff_mem,
      List.all_eq_true, Bool.or_eq_true, decide_eq_true_eq, List.isEmpty_iff, hmem]

/-- Name words, then version parts, then none but those name words again. -/
def NamesFirst (parts : List Chars) : Prop :=
  ∃ ns vs again, parts = ns ++ (vs ++ again) ∧ ns ≠ [] ∧ (∀ n ∈ ns, isVersionPart n = false) ∧
    (∀ v ∈ vs, isVersionPart v = true) ∧ ∀ a ∈ again, a ∈ ns

private theorem takeWhile_run {p : Chars → Bool} {a b : List Chars} (ha : ∀ x ∈ a, p x = true)
    (hb : ∀ x r, b = x :: r → p x = false) :
    (a ++ b).takeWhile p = a ∧ (a ++ b).dropWhile p = b := by
  rw [List.takeWhile_append_of_pos ha, List.dropWhile_append_of_pos ha]
  cases b with
  | nil => simp
  | cons x r =>
    have hx : ¬p x = true := by simp [hb x r rfl]
    rw [List.takeWhile_cons_of_neg hx, List.dropWhile_cons_of_neg hx]
    simp

private theorem namesFirst_of_self {id : Chars} (h : modelMatches C T id id = true) :
    NamesFirst (modelParts C T id) := by
  obtain ⟨truth, htruth, ⟨before, part, rest, hparts, hpart, hlast, hm⟩, _⟩ := modelMatches_iff.mp h
  have ha := apart_truth htruth
  have hfilter := parseModel_some htruth
  generalize hrun : part :: rest = run at hparts hm
  obtain ⟨ns, hns⟩ : ∃ ns, ns = run.takeWhile (isName truth.names) := ⟨_, rfl⟩
  obtain ⟨after, hafter⟩ :
      ∃ after, after = (run.dropWhile (isName truth.names)).dropWhile isVersionPart := ⟨_, rfl⟩
  have hversion : truth.version = (run.dropWhile (isName truth.names)).takeWhile isVersionPart :=
    congrArg ModelName.version hm
  have hnames : truth.names = ns.toFinset := by rw [hns]; exact congrArg ModelName.names hm
  have hsplit : modelParts C T id = before ++ (ns ++ (truth.version ++ after)) := by
    rw [hparts, hns, hversion, hafter, List.takeWhile_append_dropWhile,
      List.takeWhile_append_dropWhile]
  have hvs : ∀ v ∈ truth.version, isVersionPart v = true := fun v hv =>
    List.mem_takeWhile_imp (hversion ▸ hv)
  have hname {p : Chars} (hp : p ∈ modelParts C T id) (hv : isVersionPart p = false) :
      p ∈ truth.names := by
    rw [hfilter]
    simpa using ⟨hp, hv⟩
  -- the id has no version part but the mention's
  have hcount := congrArg (fun parts => (parts.filter isVersionPart).length) hsplit
  have hall : (modelParts C T id).filter isVersionPart = truth.version :=
    (congrArg ModelName.version hfilter).symm
  simp only [List.filter_append, List.length_append, hall, List.filter_eq_self.mpr hvs] at hcount
  have hbefore : ∀ b ∈ before, isVersionPart b = false := by
    have : before.filter isVersionPart = [] := List.length_eq_zero_iff.mp (by omega)
    simpa using List.filter_eq_nil_iff.mp this
  have hrest : ∀ a ∈ after, isVersionPart a = false := by
    have : after.filter isVersionPart = [] := List.length_eq_zero_iff.mp (by omega)
    simpa using List.filter_eq_nil_iff.mp this
  have hnil : before = [] := by
    rcases List.eq_nil_or_concat' before with h | ⟨init, b, rfl⟩
    · exact h
    · have hb := hlast init b rfl
      have hmem := hname (by rw [hsplit]; simp) (hbefore b (by simp))
      rw [isName, Bool.or_eq_false_iff, decide_eq_false_iff_not] at hb
      exact absurd hmem hb.2
  refine ⟨ns, truth.version, after, by rw [hsplit, hnil, List.nil_append], ?_, fun n hn => ?_, hvs,
    fun a hmem => ?_⟩
  · rw [hns, ← hrun, List.takeWhile_cons_of_pos hpart]
    exact List.cons_ne_nil _ _
  · exact ha n (List.mem_takeWhile_imp (hns ▸ hn))
  · have := hname (by rw [hsplit]; simp [hmem]) (hrest a hmem)
    rwa [hnames, List.mem_toFinset] at this

private theorem self_of_namesFirst {id : Chars} {ns vs again : List Chars}
    (hparts : modelParts C T id = ns ++ (vs ++ again)) (hne : ns ≠ [])
    (hns : ∀ n ∈ ns, isVersionPart n = false) (hvs : ∀ v ∈ vs, isVersionPart v = true)
    (hagain : ∀ a ∈ again, a ∈ ns) (hstop : again = [] ∨ vs ≠ []) :
    modelMatches C T id id = true := by
  have hlater : ∀ a ∈ again, isVersionPart a = false := fun a h => hns a (hagain a h)
  obtain ⟨truth, htruth⟩ : ∃ truth : ModelName, truth = ⟨ns.toFinset, vs⟩ := ⟨_, rfl⟩
  have hparse : parseModel C T id = some truth := by
    have hnames : ((modelParts C T id).filter fun p => !isVersionPart p).toFinset = ns.toFinset := by
      ext p
      simp only [hparts, List.mem_toFinset, List.mem_filter, List.mem_append, Bool.not_eq_true']
      constructor
      · rintro ⟨h | h | h, hv⟩
        · exact h
        · rw [hvs p h] at hv
          exact nomatch hv
        · exact hagain p h
      · exact fun h => ⟨.inl h, hns p h⟩
    have hversion : (modelParts C T id).filter isVersionPart = vs := by
      rw [hparts, List.filter_append, List.filter_append, List.filter_eq_self.mpr hvs,
        List.filter_eq_nil_iff.mpr (by simpa using hns),
        List.filter_eq_nil_iff.mpr (by simpa using hlater)]
      simp
    rw [parseModel]
    simp only [hnames, hversion]
    rw [if_neg (by simpa using hne), htruth]
  have ha := apart_truth hparse
  have hname {p : Chars} (hp : p ∈ ns) : isName truth.names p = true := by
    simp [isName, htruth, hp]
  obtain ⟨hd, tail, rfl⟩ := List.exists_cons_of_ne_nil hne
  have hnames := takeWhile_run (p := isName truth.names) (a := hd :: tail) (b := vs ++ again)
    (fun n hn => hname hn) fun x r hx => by
      rcases hstop with rfl | hvne
      · rw [List.append_nil] at hx
        by_contra hn
        have := ha x (Bool.not_eq_false _ ▸ hn)
        rw [hvs x (by simp [hx])] at this
        exact nomatch this
      · obtain ⟨v, vs', rfl⟩ := List.exists_cons_of_ne_nil hvne
        by_contra hn
        have := ha x (Bool.not_eq_false _ ▸ hn)
        rw [← (List.cons.inj hx).1, hvs v (by simp)] at this
        exact nomatch this
  have hversions := takeWhile_run (p := isVersionPart) (a := vs) (b := again) hvs
    fun x r hx => hlater x (by simp [hx])
  have hfirst : mentionAt truth.names (hd :: (tail ++ (vs ++ again))) = truth := by
    rw [← List.cons_append, mentionAt, hnames.1, hnames.2, hversions.1, htruth]
  have hrun (m : ModelName) := named_run (m := m) ha (hname (p := hd) (by simp))
    (tail ++ (vs ++ again))
  rw [hfirst, ← List.cons_append, hnames.2, hversions.2] at hrun
  refine modelMatches_iff.mpr ⟨truth, hparse, ?_, fun m hm => ?_⟩
  · rw [hparts]
    exact (hrun truth).mpr (.inl rfl)
  · rw [hparts] at hm
    rcases (hrun m).mp hm with h | ⟨before, p, rest, hsplit, _, _, rfl⟩
    · exact .inl h
    · have hall : ∀ q ∈ p :: rest, isName truth.names q = true := fun q hq =>
        hname (hagain q (by rw [hsplit]; exact List.mem_append_right _ hq))
      have hend := takeWhile_run (b := []) hall fun x r hx => nomatch hx
      rw [List.append_nil] at hend
      refine .inr ⟨by rw [mentionAt, hend.2]; rfl, fun q hq => ?_⟩
      rw [mentionAt, hend.1, List.mem_toFinset] at hq
      rw [htruth, List.mem_toFinset]
      exact hagain q (by rw [hsplit]; exact List.mem_append_right _ hq)

/-- An id matches itself exactly when its name words all stand before its version parts, but for
words said again. -/
theorem modelMatches_self (id : Chars) :
    modelMatches C T id id = true ↔ NamesFirst (modelParts C T id) := by
  refine ⟨namesFirst_of_self, ?_⟩
  rintro ⟨ns, vs, again, hparts, hne, hns, hvs, hagain⟩
  by_cases hv : vs = []
  · refine @self_of_namesFirst C T id (ns ++ again) [] [] (by simp [hparts, hv])
      (by simp [hne]) (List.forall_mem_append.mpr ⟨hns, fun a h => hns a (hagain a h)⟩)
      (fun v h => nomatch h) (fun a h => nomatch h) (.inl rfl)
  · exact self_of_namesFirst hparts hne hns hvs hagain (.inr hv)

private theorem scoreModel_iff {id answer : Chars} :
    scoreModel C T (some id) (some answer) = .correct ↔
      trimChars answer ≠ [] ∧ saysUnknown answer = false ∧ modelMatches C T answer id = true := by
  have hunknown : saysUnknown (trimChars answer) = saysUnknown answer := by
    rw [saysUnknown, saysUnknown, unwrapped, unwrapped, Text.trimChars_trimChars]
  have hmatches : modelMatches C T (trimChars answer) id = modelMatches C T answer id := by
    rw [Bool.eq_iff_iff, modelMatches_iff, modelMatches_iff, modelParts_trim]
  rw [scoreModel, scoreBy]
  by_cases hne : trimChars answer = []
  · simp [Option.filter, hne]
  · simp only [Option.map_some, Option.filter, hne, ne_eq, not_false_eq_true, decide_true, if_true,
      hunknown, hmatches, true_and]
    cases saysUnknown answer <;> cases modelMatches C T answer id <;> simp

end PulseNull.Probe
