import PulseNull.Text.Pattern
import PulseNull.Text.Chars
import PulseNull.Json.Braces

/-! The routing markers of a model's answer: what is taken out of the text, and the text without
them. -/
namespace PulseNull.Scheduler
open Text (ascii trim trimStart blank Pattern)
open Json (openBrace closeBrace openBracket closeBracket)

/-- `[TAG:` -/
def opening (tag : Bytes) : Bytes := openBracket :: (tag ++ [Json.colon])

/-- The text before the first occurrence of a part, and after it. -/
def splitFirst (part : Bytes) : Bytes → Option (Bytes × Bytes)
  | [] => if part = [] then some ([], []) else none
  | c :: rest =>
    if part.isPrefixOf (c :: rest) then some ([], (c :: rest).drop part.length)
    else (splitFirst part rest).map fun p => (c :: p.1, p.2)

/-- The payload after a tag, where the braces balance and a bracket follows, and what is left. -/
def balancedPayload (afterTag : Bytes) : Option (Bytes × Bytes) :=
  let before := afterTag.takeWhile (· ≠ openBrace)
  let candidate := afterTag.dropWhile (· ≠ openBrace)
  if candidate ≠ [] && blank before then
    match Json.balanced (Json.Braces.outside 0) candidate with
    | some (payload, after) =>
      if (trimStart after).head? = some closeBracket then
        some (payload, (after.dropWhile (· ≠ closeBracket)).drop 1)
      else none
    | none => none
  else none

def extractFrom (tag : Bytes) : Nat → Bytes → List Bytes × Bytes
  | 0, rest => ([], rest)
  | n + 1, rest =>
    match splitFirst (opening tag) rest with
    | none => ([], rest)
    | some (before, afterTag) =>
      match balancedPayload afterTag with
      | some (payload, after) =>
        let r := extractFrom tag n after
        (payload :: r.1, before ++ r.2)
      -- not a marker: the tag stays in the text
      | none =>
        let r := extractFrom tag n afterTag
        (r.1, before ++ opening tag ++ r.2)

/-- The payloads, and the text without their markers. -/
def extractJsonMarkers (content tag : Bytes) : List Bytes × Bytes :=
  extractFrom tag content.length content

/-- `\s*([\s\S]*?)\]` -/
def freePayload (afterTag : Bytes) : Option (Bytes × Bytes) :=
  splitFirst [closeBracket] (trimStart afterTag)

/-- `\s*(\{[\s\S]*?\})\]` -/
def lazyPayload (afterTag : Bytes) : Option (Bytes × Bytes) :=
  match trimStart afterTag with
  | 123 :: rest => (splitFirst [closeBrace, closeBracket] rest).map fun p =>
      (openBrace :: (p.1 ++ [closeBrace]), p.2)
  | _ => none

/-- A tag with what follows it. -/
def tagged (tag : Bytes) (payload : Bytes → Option (Bytes × Bytes)) (text : Bytes) :
    Option (Bytes × Bytes) :=
  if (opening tag).isPrefixOf text then payload (text.drop (opening tag).length) else none

/-- What is left after a payload is no longer than the text. -/
def Shortens (payload : Bytes → Option (Bytes × Bytes)) : Prop :=
  ∀ text part after, payload text = some (part, after) → after.length ≤ text.length

theorem splitFirst_length {part text before after : Bytes}
    (h : splitFirst part text = some (before, after)) : after.length ≤ text.length := by
  induction text generalizing before with
  | nil =>
    unfold splitFirst at h
    split at h
    · simp [← (Prod.mk.inj (Option.some.inj h)).2]
    · exact nomatch h
  | cons c rest ih =>
    unfold splitFirst at h
    split at h
    · rw [← (Prod.mk.inj (Option.some.inj h)).2, List.length_drop]
      omega
    · obtain ⟨p, hp, he⟩ := Option.map_eq_some_iff.mp h
      obtain ⟨-, rfl⟩ := Prod.mk.inj he
      have hrest := ih hp
      rw [List.length_cons]
      omega

theorem trimStart_length (text : Bytes) : (trimStart text).length ≤ text.length := by
  have hstrip : ∀ text rest, Text.stripBlank text = some rest → rest.length ≤ text.length := by
    intro text rest h
    unfold Text.stripBlank at h
    split at h <;> grind
  have hall : ∀ n text, (Text.trimStartFrom n text).length ≤ text.length := by
    intro n
    induction n with
    | zero => exact fun text => le_rfl
    | succ n ih =>
      intro text
      unfold Text.trimStartFrom
      split
      · next rest h => exact (ih rest).trans (hstrip text rest h)
      · exact le_rfl
  exact hall _ text

theorem balanced_length {b : Json.Braces} {text payload after : Bytes}
    (h : Json.balanced b text = some (payload, after)) : after.length ≤ text.length := by
  induction text generalizing b payload with
  | nil => exact nomatch h
  | cons c rest ih =>
    rw [List.length_cons]
    unfold Json.balanced at h
    split at h
    · rw [← (Prod.mk.inj (Option.some.inj h)).2]
      omega
    · obtain ⟨p, hp, he⟩ := Option.map_eq_some_iff.mp h
      obtain ⟨-, rfl⟩ := Prod.mk.inj he
      have hrest := ih hp
      omega

theorem balancedPayload_shortens : Shortens balancedPayload := by
  intro text payload after h
  unfold balancedPayload at h
  simp only at h
  split at h
  · split at h
    · next hbal =>
      split at h
      · obtain ⟨-, rfl⟩ := Prod.mk.inj (Option.some.inj h)
        have h1 := balanced_length hbal
        have h2 := (List.dropWhile_sublist (l := text) (· ≠ openBrace)).length_le
        rw [List.length_drop]
        have h3 := (List.dropWhile_sublist (l := ‹Bytes›) (· ≠ closeBracket)).length_le
        omega
      · exact nomatch h
    · exact nomatch h
  · exact nomatch h

theorem freePayload_shortens : Shortens freePayload := fun text _ _ h =>
  (splitFirst_length h).trans (trimStart_length text)

theorem lazyPayload_shortens : Shortens lazyPayload := by
  intro text payload after h
  have htrim := trimStart_length text
  unfold lazyPayload at h
  split at h
  · next rest hrest =>
    obtain ⟨p, hp, he⟩ := Option.map_eq_some_iff.mp h
    obtain ⟨-, rfl⟩ := Prod.mk.inj he
    have hshort := splitFirst_length hp
    rw [hrest, List.length_cons] at htrim
    omega
  · exact nomatch h

/-- The pattern of a tag. -/
def taggedPattern (tag : Bytes) (payload : Bytes → Option (Bytes × Bytes))
    (h : Shortens payload) : Pattern where
  start := tagged tag payload
  shrinks {text part after} hs := by
    unfold tagged at hs
    split at hs
    · next hpre =>
      have hlen := (List.isPrefixOf_iff_prefix.mp hpre).length_le
      have hshort := h _ _ _ hs
      rw [List.length_drop] at hshort
      simp only [opening, List.length_cons, List.length_append] at hlen hshort
      omega
    · exact nomatch hs

def shareRe : Pattern := taggedPattern (ascii "SHARE") freePayload freePayload_shortens
def callRe : Pattern := taggedPattern (ascii "CALL") freePayload freePayload_shortens
def scheduleRe : Pattern := taggedPattern (ascii "SCHEDULE") lazyPayload lazyPayload_shortens
def intentRe : Pattern := taggedPattern (ascii "INTENT") lazyPayload lazyPayload_shortens
def chainRe : Pattern := taggedPattern (ascii "CHAIN") lazyPayload lazyPayload_shortens

structure ParsedOutput where
  cleanContent : Bytes
  shareContent : List Bytes
  callContent : List Bytes
  scheduleRequests : List Bytes
  intentRequests : List Bytes
  chainRequests : List Bytes
  farmRequests : List Bytes
  salienceRequests : List Bytes
  deriving DecidableEq

def captures (m : Pattern) (content : Bytes) : List Bytes := (m.scan content).1.map trim
def replaceAll (m : Pattern) (content : Bytes) : Bytes := (m.scan content).2

def parseOutput (content : Bytes) : ParsedOutput :=
  let farm := extractJsonMarkers content (ascii "FARM")
  let salience := extractJsonMarkers farm.2 (ascii "SALIENCE")
  let content := salience.2
  let clean := replaceAll shareRe content
  let clean := replaceAll callRe clean
  let clean := replaceAll scheduleRe clean
  let clean := replaceAll intentRe clean
  let clean := replaceAll chainRe clean
  { cleanContent := trim clean
    shareContent := captures shareRe content
    callContent := captures callRe content
    scheduleRequests := captures scheduleRe content
    intentRequests := captures intentRe content
    chainRequests := captures chainRe content
    farmRequests := farm.1
    salienceRequests := salience.1 }

end PulseNull.Scheduler
