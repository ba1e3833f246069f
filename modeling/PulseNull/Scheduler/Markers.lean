import PulseNull.Scheduler.Output

/-! A JSON marker in a text without others: when it is read as it was written. -/
namespace PulseNull.Scheduler
open Text (ascii trim trimStart blank Pattern)
open Json (openBrace closeBrace openBracket closeBracket IsObject)

def farmRe : Pattern := taggedPattern (ascii "FARM") balancedPayload balancedPayload_shortens
def salienceRe : Pattern := taggedPattern (ascii "SALIENCE") balancedPayload balancedPayload_shortens

/-! Searching. -/

theorem splitFirst_none {part text : Bytes} (h : splitFirst part text = none) :
    ∀ b, b <:+ text → ¬part <+: b := by
  induction text with
  | nil =>
    intro b hb hpart
    obtain rfl := List.suffix_nil.mp hb
    obtain rfl := List.prefix_nil.mp hpart
    exact nomatch h
  | cons c rest ih =>
    rw [splitFirst] at h
    split at h
    · exact nomatch h
    next hc =>
    rw [List.isPrefixOf_iff_prefix] at hc
    intro b hb
    rcases List.suffix_cons_iff.mp hb with rfl | hb
    · exact hc
    · exact ih (Option.map_eq_none_iff.mp h) b hb

theorem splitFirst_some {part text before after : Bytes}
    (h : splitFirst part text = some (before, after)) :
    text = before ++ (part ++ after) ∧
      ∀ b, b ≠ [] → b <:+ before → ¬part <+: b ++ (part ++ after) := by
  induction text generalizing before with
  | nil =>
    rw [splitFirst] at h
    split at h
    · next hpart =>
      obtain ⟨rfl, rfl⟩ := Prod.mk.inj (Option.some.inj h)
      exact ⟨by simp [hpart], fun b hne hb => absurd (List.suffix_nil.mp hb) hne⟩
    · exact nomatch h
  | cons c rest ih =>
    rw [splitFirst] at h
    split at h
    · next hc =>
      obtain ⟨rfl, rfl⟩ := Prod.mk.inj (Option.some.inj h)
      rw [List.isPrefixOf_iff_prefix] at hc
      exact ⟨List.prefix_iff_eq_append.mp hc |>.symm,
        fun b hne hb => absurd (List.suffix_nil.mp hb) hne⟩
    · next hc =>
      obtain ⟨p, hp, he⟩ := Option.map_eq_some_iff.mp h
      obtain ⟨rfl, rfl⟩ := Prod.mk.inj he
      obtain ⟨hrest, hfirst⟩ := ih hp
      refine ⟨congrArg (c :: ·) hrest, fun b hne hb => ?_⟩
      rcases List.suffix_cons_iff.mp hb with rfl | hb
      · rwa [List.cons_append, ← hrest, ← List.isPrefixOf_iff_prefix]
      · exact hfirst b hne hb

theorem splitFirst_eq {part before after : Bytes} (hpart : part ≠ [])
    (h : ∀ b, b ≠ [] → b <:+ before → ¬part <+: b ++ (part ++ after)) :
    splitFirst part (before ++ (part ++ after)) = some (before, after) := by
  induction before with
  | nil =>
    obtain ⟨c, rest, rfl⟩ := List.exists_cons_of_ne_nil hpart
    have hpre : (c :: rest).isPrefixOf (c :: (rest ++ after)) = true :=
      List.isPrefixOf_iff_prefix.mpr ⟨after, rfl⟩
    rw [List.nil_append, List.cons_append, splitFirst, if_pos hpre]
    simp
  | cons c before ih =>
    have hc := h (c :: before) (List.cons_ne_nil c before) (List.suffix_refl _)
    rw [List.cons_append, ← List.isPrefixOf_iff_prefix] at hc
    rw [List.cons_append, splitFirst, if_neg hc,
      ih fun b hne hb => h b hne (hb.trans (List.suffix_cons c before))]
    rfl

/-! Where a tag can start. -/

section
variable {tag : Bytes} {payload : Bytes → Option (Bytes × Bytes)} {hlen : Shortens payload}

theorem tagged_opening (afterTag : Bytes) :
    (taggedPattern tag payload hlen).start (opening tag ++ afterTag) = payload afterTag := by
  unfold taggedPattern tagged
  simp

theorem tagged_none {text : Bytes} (h : ¬opening tag <+: text) :
    (taggedPattern tag payload hlen).start text = none := by
  unfold taggedPattern tagged
  rw [← List.isPrefixOf_iff_prefix] at h
  exact if_neg h

theorem quiet_of_no_bracket {text rest : Bytes} (h : openBracket ∉ text) :
    (taggedPattern tag payload hlen).Quiet text rest := by
  intro b hne hb
  refine tagged_none fun hpre => h ?_
  obtain ⟨c, cs, rfl⟩ := List.exists_cons_of_ne_nil hne
  have hc : openBracket = c := (List.cons_prefix_cons.mp hpre).1
  exact hb.mem (hc ▸ List.mem_cons_self)

/-- A text without the tag is quiet, also when the next one starts right after it. -/
theorem quiet_of_free {text rest : Bytes} (htag : openBracket ∉ tag) (h : ¬opening tag <:+: text)
    (hrest : rest = [] ∨ rest.head? = some openBracket) :
    (taggedPattern tag payload hlen).Quiet text rest := by
  intro b hne hb
  refine tagged_none fun hpre => h ?_
  have hb' : opening tag <+: b := by
    rcases List.prefix_or_prefix_of_prefix hpre (List.prefix_append b rest) with hin | ⟨s, hs⟩
    · exact hin
    rw [← hs, List.prefix_append_right_inj] at hpre
    rcases hrest with rfl | hhead
    · rw [List.prefix_nil.mp hpre, List.append_nil] at hs
      exact hs ▸ List.prefix_refl _
    cases s with
    | nil =>
      rw [List.append_nil] at hs
      exact hs ▸ List.prefix_refl _
    | cons c s =>
      -- the tag would have to go on with the bracket after the text
      obtain ⟨rs, rfl⟩ := hpre
      have hc : c = openBracket := Option.some.inj hhead
      obtain ⟨d, ds, rfl⟩ := List.exists_cons_of_ne_nil hne
      have htail : ds ++ c :: s = tag ++ [Json.colon] := (List.cons.inj hs).2
      have hmem : openBracket ∈ tag ++ [Json.colon] := by
        rw [← htail, hc]
        exact List.mem_append_right _ List.mem_cons_self
      rcases List.mem_append.mp hmem with hmem | hmem
      · exact absurd hmem htag
      · exact absurd (List.mem_singleton.mp hmem) (by decide)
  exact hb'.isInfix.trans hb.isInfix

/-- The scan for a balanced marker is the scan for its pattern. -/
theorem extract_eq {content : Bytes} (htag : openBracket ∉ tag) :
    extractJsonMarkers content tag =
      (taggedPattern tag balancedPayload balancedPayload_shortens).scan content := by
  have hall : ∀ n rest, List.length rest ≤ n →
      extractFrom tag n rest =
        (taggedPattern tag balancedPayload balancedPayload_shortens).scan rest := by
    intro n
    induction n with
    | zero =>
      intro rest h
      obtain rfl := List.length_eq_zero_iff.mp (Nat.le_zero.mp h)
      rfl
    | succ n ih =>
      intro rest h
      rw [extractFrom]
      cases hs : splitFirst (opening tag) rest with
      | none =>
        refine (Pattern.scan_none fun b _ hb => ?_).symm
        rw [List.append_nil]
        exact tagged_none (splitFirst_none hs b hb)
      | some p =>
        obtain ⟨before, afterTag⟩ := p
        obtain ⟨rfl, hfirst⟩ := splitFirst_some hs
        have hquiet : (taggedPattern tag balancedPayload balancedPayload_shortens).Quiet before
            (opening tag ++ afterTag) := fun b hne hb => tagged_none (hfirst b hne hb)
        have hshort : afterTag.length < n + 1 := by
          simp only [opening, List.length_append, List.length_cons] at h
          omega
        simp only
        rw [Pattern.scan_quiet hquiet]
        cases hp : balancedPayload afterTag with
        | some r =>
          obtain ⟨payload, after⟩ := r
          have hafter := balancedPayload_shortens _ _ _ hp
          rw [Pattern.scan_match ((tagged_opening afterTag).trans hp)]
          simp only
          rw [ih after (by omega)]
        | none =>
          have htail : (taggedPattern tag balancedPayload balancedPayload_shortens).Quiet (opening tag)
              afterTag :=
            Pattern.quiet_cons.mpr ⟨(tagged_opening afterTag).trans hp,
              quiet_of_no_bracket (by simp [htag]; decide)⟩
          rw [Pattern.scan_quiet htail, ih afterTag (by omega), List.append_assoc]
  exact hall _ content le_rfl

/-- Of two tags only the same one can stand at the same place. -/
theorem opening_isPrefix {a b rest : Bytes} (ha : Json.colon ∉ a) (hb : Json.colon ∉ b)
    (h : opening a <+: opening b ++ rest) : a = b := by
  obtain ⟨s, hs⟩ := h
  have htail : a ++ Json.colon :: s = b ++ Json.colon :: rest := by
    simpa [opening] using hs
  have hname : ∀ tag rest : Bytes, Json.colon ∉ tag →
      (tag ++ Json.colon :: rest).takeWhile (· ≠ Json.colon) = tag := by
    intro tag rest hnot
    rw [List.takeWhile_append_of_pos fun c hc => by
      simpa using fun h : c = Json.colon => hnot (h ▸ hc)]
    simp
  rw [← hname a s ha, htail, hname b rest hb]

end

/-! The payloads. -/

theorem trimStart_brace (rest : Bytes) : trimStart (openBrace :: rest) = openBrace :: rest := rfl

theorem stripBlank_brace {text rest : Bytes} (h : Text.stripBlank text = some rest)
    (hlast : text.getLast? = some closeBrace) : rest.getLast? = some closeBrace := by
  have hshort : ∀ c : UInt8, c ≠ closeBrace → ∀ l : Bytes, (c :: l).getLast? = some closeBrace →
      l.getLast? = some closeBrace := by
    intro c hc l hl
    cases l with
    | nil => exact absurd (Option.some.inj hl) hc
    | cons d l => rwa [List.getLast?_cons_cons] at hl
  unfold Text.stripBlank at h
  split at h
  · next c l =>
    split at h
    · next hc =>
      obtain rfl := Option.some.inj h
      refine hshort c ?_ _ (hshort 194 (by decide) _ hlast)
      rintro rfl
      exact absurd hc (by decide)
    · exact nomatch h
  · obtain rfl := Option.some.inj h
    exact hshort 128 (by decide) _ (hshort 154 (by decide) _ (hshort 225 (by decide) _ hlast))
  · next c l =>
    split at h
    · next hc =>
      obtain rfl := Option.some.inj h
      refine hshort c ?_ _ (hshort 128 (by decide) _ (hshort 226 (by decide) _ hlast))
      rintro rfl
      exact absurd hc (by decide)
    · exact nomatch h
  · obtain rfl := Option.some.inj h
    exact hshort 159 (by decide) _ (hshort 129 (by decide) _ (hshort 226 (by decide) _ hlast))
  · obtain rfl := Option.some.inj h
    exact hshort 128 (by decide) _ (hshort 128 (by decide) _ (hshort 227 (by decide) _ hlast))
  · next c l _ _ _ _ _ =>
    split at h
    · next hc =>
      obtain rfl := Option.some.inj h
      refine hshort c ?_ _ hlast
      rintro rfl
      exact absurd hc (by decide)
    · exact nomatch h
  · exact nomatch h

theorem blank_brace_last {text : Bytes} (h : text.getLast? = some closeBrace) : blank text = false := by
  have hall : ∀ n text, List.getLast? text = some closeBrace → Text.blankFrom n text = false := by
    intro n
    induction n with
    | zero =>
      intro text h
      cases text with
      | nil => exact nomatch h
      | cons c rest => rfl
    | succ n ih =>
      intro text h
      cases text with
      | nil => exact nomatch h
      | cons c rest =>
        unfold Text.blankFrom
        split
        · exact ih _ (stripBlank_brace ‹_› h)
        · rfl
  exact hall _ text h

/-- What stands between braces has nothing to trim. -/
theorem trim_braces {inner : Bytes} :
    trim (openBrace :: (inner ++ [closeBrace])) = openBrace :: (inner ++ [closeBrace]) := by
  have hend : ∀ text : Bytes, Text.trimEnd (text ++ [closeBrace]) = text ++ [closeBrace] := by
    intro text
    induction text with
    | nil => rfl
    | cons c rest ih =>
      have hblank : blank (c :: (rest ++ [closeBrace])) = false :=
        blank_brace_last (by rw [← List.cons_append, List.getLast?_concat])
      rw [List.cons_append, Text.trimEnd, if_neg (by simp [hblank]), ih]
  rw [trim, trimStart_brace]
  exact hend (openBrace :: inner)

/-- The marker may have a blank after its colon. -/
def IsGap (gap : Bytes) : Prop := gap = [] ∨ gap = ascii " "

theorem IsGap.trimStart {gap rest : Bytes} (h : IsGap gap) :
    trimStart (gap ++ openBrace :: rest) = openBrace :: rest := by
  rcases h with rfl | rfl
  · exact trimStart_brace rest
  · rfl

theorem IsGap.no_bracket {gap : Bytes} (h : IsGap gap) : openBracket ∉ gap := by
  rcases h with rfl | rfl <;> decide

theorem IsObject.braces {inRange : Bytes → Bool} {p : Bytes} (h : IsObject inRange p) :
    ∃ inner, p = openBrace :: (inner ++ [closeBrace]) := by
  have hopen := h.opens
  have hclose := h.closes
  cases p with
  | nil => exact nomatch hopen
  | cons c rest =>
    obtain rfl := Option.some.inj hopen
    rcases List.eq_nil_or_concat rest with rfl | ⟨inner, d, rfl⟩
    · exact absurd hclose (by decide)
    · rw [List.concat_eq_append, ← List.cons_append, List.getLast?_concat] at hclose
      exact ⟨inner, by rw [List.concat_eq_append, Option.some.inj hclose]⟩

/-- The braces of an object balance at its end, whatever its strings hold. -/
theorem balancedPayload_object {inRange : Bytes → Bool} {gap p : Bytes} (hgap : IsGap gap)
    (hp : IsObject inRange p) (post : Bytes) :
    balancedPayload (gap ++ (p ++ closeBracket :: post)) = some (p, post) := by
  obtain ⟨inner, hinner⟩ := IsObject.braces hp
  have hbal := hp.balanced (closeBracket :: post)
  have hbefore : (gap ++ (p ++ closeBracket :: post)).takeWhile (· ≠ openBrace) = gap ∧
      (gap ++ (p ++ closeBracket :: post)).dropWhile (· ≠ openBrace) = p ++ closeBracket :: post ∧
        blank gap = true := by
    subst hinner
    rcases hgap with rfl | rfl
    · exact ⟨rfl, rfl, rfl⟩
    · exact ⟨rfl, rfl, rfl⟩
  have hne : p ++ closeBracket :: post ≠ [] := by simp
  have hclose : (trimStart (closeBracket :: post)).head? = some closeBracket := rfl
  have hdrop : (closeBracket :: post).dropWhile (· ≠ closeBracket) = closeBracket :: post := rfl
  unfold balancedPayload
  simp only [hbefore.1, hbefore.2.1, hbefore.2.2, hne, hbal, hclose, hdrop, ne_eq, not_false_eq_true,
    decide_true, Bool.and_self, if_true, List.drop_one, List.tail_cons]

def closing : Bytes := [closeBrace, closeBracket]

theorem lazyPayload_eq {gap inner post : Bytes} (hgap : IsGap gap) :
    lazyPayload (gap ++ (openBrace :: (inner ++ [closeBrace]) ++ closeBracket :: post)) =
      (splitFirst closing (inner ++ (closing ++ post))).map fun p =>
        (openBrace :: (p.1 ++ [closeBrace]), p.2) := by
  unfold lazyPayload
  rw [List.cons_append, hgap.trimStart]
  simp [closing]

/-- A lazy marker ends at the first brace before a bracket. -/
theorem lazyPayload_object {gap inner post : Bytes} (hgap : IsGap gap)
    (h : ¬closing <:+: openBrace :: (inner ++ [closeBrace])) :
    lazyPayload (gap ++ (openBrace :: (inner ++ [closeBrace]) ++ closeBracket :: post)) =
      some (openBrace :: (inner ++ [closeBrace]), post) := by
  rw [lazyPayload_eq hgap, splitFirst_eq (by decide)]
  · rfl
  · rintro b hne hb ⟨rest, hrest⟩
    -- an earlier end would lie inside the payload
    refine h ?_
    obtain ⟨c, cs, rfl⟩ := List.exists_cons_of_ne_nil hne
    have hc : closeBrace = c := (List.cons.inj hrest).1
    subst hc
    have htail : closeBracket :: rest = cs ++ (closing ++ post) := (List.cons.inj hrest).2
    cases cs with
    | nil => exact absurd (List.cons.inj htail).1 (by decide)
    | cons d ds =>
      obtain rfl := (List.cons.inj htail).1
      obtain ⟨front, rfl⟩ := hb
      exact ⟨openBrace :: front, ds ++ [closeBrace], by simp [closing]⟩

/-- A lazy marker that reads its payload has no such brace inside. -/
theorem lazyPayload_exact {gap inner post after : Bytes} (hgap : IsGap gap)
    (h : lazyPayload (gap ++ (openBrace :: (inner ++ [closeBrace]) ++ closeBracket :: post)) =
      some (openBrace :: (inner ++ [closeBrace]), after)) :
    ¬closing <:+: openBrace :: (inner ++ [closeBrace]) := by
  rw [lazyPayload_eq hgap] at h
  obtain ⟨⟨before, rest⟩, hs, he⟩ := Option.map_eq_some_iff.mp h
  obtain ⟨hbefore, -⟩ := Prod.mk.inj he
  have hinner : before = inner := List.append_cancel_right (List.cons.inj hbefore).2
  subst hinner
  obtain ⟨-, hfirst⟩ := splitFirst_some hs
  rintro ⟨front, back, hin⟩
  cases front with
  | nil => exact absurd (List.cons.inj hin).1 (by decide)
  | cons c front =>
    have htail : front ++ closing ++ back = before ++ [closeBrace] := (List.cons.inj hin).2
    rcases List.eq_nil_or_concat back with rfl | ⟨back, d, rfl⟩
    · have hlast := congrArg List.getLast? htail
      rw [List.append_nil, List.getLast?_concat, List.getLast?_append_of_ne_nil _ (by decide)] at hlast
      exact absurd hlast (by decide)
    · rw [List.concat_eq_append, ← List.append_assoc] at htail
      have hbefore : front ++ closing ++ back = before := (List.append_inj' htail rfl).1
      rw [List.append_assoc] at hbefore
      refine hfirst (closing ++ back) (by simp [closing]) ⟨front, hbefore⟩ ?_
      rw [List.append_assoc]
      exact List.prefix_append _ _

/-! One marker in a text. -/

inductive MarkerKind where
  | farm | salience | schedule | intent | chain
  deriving DecidableEq

namespace MarkerKind

def tag : MarkerKind → Bytes
  | farm => ascii "FARM"
  | salience => ascii "SALIENCE"
  | schedule => ascii "SCHEDULE"
  | intent => ascii "INTENT"
  | chain => ascii "CHAIN"

def pattern : MarkerKind → Pattern
  | farm => farmRe
  | salience => salienceRe
  | schedule => scheduleRe
  | intent => intentRe
  | chain => chainRe

/-- The kinds that are read up to the first brace before a bracket. -/
def isLazy : MarkerKind → Bool
  | farm | salience => false
  | schedule | intent | chain => true

/-- The patterns that are searched for while the marker is still in the text. -/
def others : MarkerKind → List Pattern
  | farm => []
  | salience => [farmRe]
  | schedule => [farmRe, salienceRe, shareRe, callRe, intentRe, chainRe]
  | intent => [farmRe, salienceRe, shareRe, callRe, scheduleRe, chainRe]
  | chain => [farmRe, salienceRe, shareRe, callRe, scheduleRe, intentRe]

end MarkerKind

/-- `[KIND:` with a gap, the payload and the bracket. -/
def marker (kind : MarkerKind) (gap p : Bytes) : Bytes :=
  opening kind.tag ++ (gap ++ (p ++ [closeBracket]))

def tags : List Bytes :=
  ["SHARE", "CALL", "SCHEDULE", "INTENT", "CHAIN", "FARM", "SALIENCE"].map ascii

/-- No marker opens in the text. -/
def Free (text : Bytes) : Prop := ∀ tag ∈ tags, ¬opening tag <:+: text

/-- One payload of the kind, and nothing else. -/
def ParsedOutput.only (kind : MarkerKind) (p clean : Bytes) : ParsedOutput where
  cleanContent := clean
  shareContent := []
  callContent := []
  scheduleRequests := if kind = .schedule then [p] else []
  intentRequests := if kind = .intent then [p] else []
  chainRequests := if kind = .chain then [p] else []
  farmRequests := if kind = .farm then [p] else []
  salienceRequests := if kind = .salience then [p] else []

/-- The text with the marker has exactly this payload, and without it it is the text around it. -/
def RoundTrips (kind : MarkerKind) (gap p pre post : Bytes) : Prop :=
  parseOutput (pre ++ (marker kind gap p ++ post)) = .only kind p (trim (pre ++ post))

/-- No other pattern starts inside the payload, and a lazy one has no brace before a bracket. -/
def Readable (kind : MarkerKind) (p post : Bytes) : Prop :=
  (kind.isLazy = true → ¬closing <:+: p) ∧ ∀ m ∈ kind.others, m.Quiet p (closeBracket :: post)

/-- The pattern of one of the seven tags. -/
def IsTagged (m : Pattern) (tag : Bytes) : Prop :=
  ∃ payload hlen, m = taggedPattern tag payload hlen ∧ tag ∈ tags

theorem MarkerKind.isTagged (kind : MarkerKind) : IsTagged kind.pattern kind.tag := by
  cases kind
  · exact ⟨_, balancedPayload_shortens, rfl, by decide⟩
  · exact ⟨_, balancedPayload_shortens, rfl, by decide⟩
  · exact ⟨_, lazyPayload_shortens, rfl, by decide⟩
  · exact ⟨_, lazyPayload_shortens, rfl, by decide⟩
  · exact ⟨_, lazyPayload_shortens, rfl, by decide⟩

theorem share_isTagged : IsTagged shareRe (ascii "SHARE") :=
  ⟨_, freePayload_shortens, rfl, by decide⟩

theorem call_isTagged : IsTagged callRe (ascii "CALL") := ⟨_, freePayload_shortens, rfl, by decide⟩

theorem tags_plain : ∀ tag ∈ tags, openBracket ∉ tag ∧ Json.colon ∉ tag := by decide

section
variable {m : Pattern} {tag : Bytes} {kind : MarkerKind} {gap p pre post : Bytes}

theorem Free.left (h : Free (pre ++ post)) : Free pre := fun tag hmem hin =>
  h tag hmem (hin.trans (List.prefix_append _ _).isInfix)

theorem Free.right (h : Free (pre ++ post)) : Free post := fun tag hmem hin =>
  h tag hmem (hin.trans (List.suffix_append _ _).isInfix)

/-- A text without markers is quiet, also in front of one. -/
theorem IsTagged.quiet {text rest : Bytes} (h : IsTagged m tag) (hfree : Free text)
    (hrest : rest = [] ∨ rest.head? = some openBracket) : m.Quiet text rest := by
  obtain ⟨payload, hlen, rfl, hmem⟩ := h
  exact quiet_of_free (tags_plain tag hmem).1 (hfree tag hmem) hrest

/-- A pattern of another tag can only start inside the payload. -/
theorem IsTagged.quiet_iff (h : IsTagged m tag) (hne : tag ≠ kind.tag) (hgap : IsGap gap)
    (hfree : Free (pre ++ post)) :
    m.Quiet (pre ++ (marker kind gap p ++ post)) [] ↔ m.Quiet p (closeBracket :: post) := by
  have htext : pre ++ (marker kind gap p ++ post) =
      pre ++ (opening kind.tag ++ (gap ++ (p ++ ([closeBracket] ++ post)))) := by
    simp [marker]
  have hpre : m.Quiet pre (opening kind.tag ++ (gap ++ (p ++ ([closeBracket] ++ post)))) :=
    h.quiet hfree.left (.inr rfl)
  have hpost := h.quiet hfree.right (.inl rfl)
  rw [htext]
  simp only [Pattern.quiet_append, List.append_nil]
  obtain ⟨payload, hlen, rfl, hmem⟩ := h
  obtain ⟨-, hcolon⟩ := tags_plain tag hmem
  obtain ⟨_, _, -, hkind⟩ := kind.isTagged
  obtain ⟨hbracket', hcolon'⟩ := tags_plain kind.tag hkind
  have hopening : ∀ rest, (taggedPattern tag payload hlen).Quiet (opening kind.tag) rest := by
    intro rest
    refine Pattern.quiet_cons.mpr ⟨tagged_none fun hpre => ?_, quiet_of_no_bracket ?_⟩
    · exact hne (opening_isPrefix hcolon hcolon' hpre)
    · rw [List.mem_append, List.mem_singleton]
      exact not_or.mpr ⟨hbracket', by decide⟩
  have hclose : (taggedPattern tag payload hlen).Quiet [closeBracket] post :=
    quiet_of_no_bracket (by decide)
  constructor
  · rintro ⟨-, -, -, hp, -⟩
    exact hp
  · intro hp
    exact ⟨hpre, hopening _, quiet_of_no_bracket hgap.no_bracket, hp, hclose, hpost⟩

/-- The scan for another pattern, if it is quiet. -/
theorem IsTagged.scan_other (h : IsTagged m tag) (hne : tag ≠ kind.tag) (hgap : IsGap gap)
    (hfree : Free (pre ++ post)) (hquiet : m.Quiet p (closeBracket :: post)) :
    m.scan (pre ++ (marker kind gap p ++ post)) = ([], pre ++ (marker kind gap p ++ post)) :=
  Pattern.scan_none ((h.quiet_iff hne hgap hfree).mpr hquiet)

theorem IsTagged.scan_free {text : Bytes} (h : IsTagged m tag) (hfree : Free text) :
    m.scan text = ([], text) :=
  Pattern.scan_none (h.quiet hfree (.inl rfl))

/-- What the own pattern reads where the marker stands. -/
theorem start_marker (kind : MarkerKind) (gap p post : Bytes) :
    kind.pattern.start (marker kind gap p ++ post) =
      (if kind.isLazy then lazyPayload else balancedPayload) (gap ++ (p ++ closeBracket :: post)) := by
  have htext : marker kind gap p ++ post =
      opening kind.tag ++ (gap ++ (p ++ closeBracket :: post)) := by
    simp [marker]
  rw [htext]
  cases kind
  · exact @tagged_opening _ _ balancedPayload_shortens _
  · exact @tagged_opening _ _ balancedPayload_shortens _
  · exact @tagged_opening _ _ lazyPayload_shortens _
  · exact @tagged_opening _ _ lazyPayload_shortens _
  · exact @tagged_opening _ _ lazyPayload_shortens _

/-- The scan for the own pattern. -/
theorem scan_own {inRange : Bytes → Bool} (hgap : IsGap gap) (hp : IsObject inRange p)
    (hfree : Free (pre ++ post)) (hlazy : kind.isLazy = true → ¬closing <:+: p) :
    kind.pattern.scan (pre ++ (marker kind gap p ++ post)) = ([p], pre ++ post) := by
  refine Pattern.scan_one (kind.isTagged.quiet hfree.left (.inr rfl)) ?_
    (kind.isTagged.quiet hfree.right (.inl rfl))
  rw [start_marker]
  obtain ⟨inner, rfl⟩ := IsObject.braces hp
  cases hk : kind.isLazy with
  | true => exact lazyPayload_object hgap (hlazy hk)
  | false => exact balancedPayload_object hgap hp post

/-- A marker whose payload is all that its pattern captures. -/
theorem lazy_of_captures {inRange : Bytes → Bool} (hgap : IsGap gap) (hp : IsObject inRange p)
    (hfree : Free (pre ++ post)) (hk : kind.isLazy = true)
    (h : captures kind.pattern (pre ++ (marker kind gap p ++ post)) = [p]) : ¬closing <:+: p := by
  obtain ⟨inner, rfl⟩ := IsObject.braces hp
  have hstart := start_marker kind gap (openBrace :: (inner ++ [closeBrace])) post
  rw [hk, if_pos rfl] at hstart
  cases hl : lazyPayload
      (gap ++ (openBrace :: (inner ++ [closeBrace]) ++ closeBracket :: post)) with
  | none =>
    rw [lazyPayload_eq hgap] at hl
    exact absurd (List.prefix_append closing post)
      (splitFirst_none (Option.map_eq_none_iff.mp hl) _ (List.suffix_append _ _))
  | some r =>
    obtain ⟨part, after⟩ := r
    have hhead := Pattern.scan_head (kind.isTagged.quiet hfree.left (.inr rfl)) (hstart.trans hl)
    have hpart : part = openBrace :: (inner ++ [closeBrace]) := by
      have hcaptured := congrArg List.head? h
      rw [captures, List.head?_map, hhead] at hcaptured
      have htrim : trim part = part := by
        rw [lazyPayload_eq hgap] at hl
        obtain ⟨⟨before, rest⟩, -, he⟩ := Option.map_eq_some_iff.mp hl
        rw [← (Prod.mk.inj he).1, trim_braces]
      rw [← htrim]
      exact Option.some.inj hcaptured
    exact lazyPayload_exact hgap (hpart ▸ hl)

theorem others_tagged : ∀ m ∈ kind.others, ∃ tag, IsTagged m tag ∧ tag ≠ kind.tag := by
  have hfarm := MarkerKind.farm.isTagged
  have hsalience := MarkerKind.salience.isTagged
  have hschedule := MarkerKind.schedule.isTagged
  have hintent := MarkerKind.intent.isTagged
  have hchain := MarkerKind.chain.isTagged
  intro m hm
  cases kind <;> simp only [MarkerKind.others, List.mem_cons, List.not_mem_nil, or_false] at hm
  · subst hm
    exact ⟨_, hfarm, by decide⟩
  · rcases hm with rfl | rfl | rfl | rfl | rfl | rfl
    exacts [⟨_, hfarm, by decide⟩, ⟨_, hsalience, by decide⟩, ⟨_, share_isTagged, by decide⟩,
      ⟨_, call_isTagged, by decide⟩, ⟨_, hintent, by decide⟩, ⟨_, hchain, by decide⟩]
  · rcases hm with rfl | rfl | rfl | rfl | rfl | rfl
    exacts [⟨_, hfarm, by decide⟩, ⟨_, hsalience, by decide⟩, ⟨_, share_isTagged, by decide⟩,
      ⟨_, call_isTagged, by decide⟩, ⟨_, hschedule, by decide⟩, ⟨_, hchain, by decide⟩]
  · rcases hm with rfl | rfl | rfl | rfl | rfl | rfl
    exacts [⟨_, hfarm, by decide⟩, ⟨_, hsalience, by decide⟩, ⟨_, share_isTagged, by decide⟩,
      ⟨_, call_isTagged, by decide⟩, ⟨_, hschedule, by decide⟩, ⟨_, hintent, by decide⟩]

end

/-- The answer by scans alone. -/
theorem parseOutput_eq (content : Bytes) : parseOutput content =
    let content' := (salienceRe.scan (farmRe.scan content).2).2
    { cleanContent := trim (replaceAll chainRe (replaceAll intentRe (replaceAll scheduleRe
        (replaceAll callRe (replaceAll shareRe content')))))
      shareContent := captures shareRe content'
      callContent := captures callRe content'
      scheduleRequests := captures scheduleRe content'
      intentRequests := captures intentRe content'
      chainRequests := captures chainRe content'
      farmRequests := (farmRe.scan content).1
      salienceRequests := (salienceRe.scan (farmRe.scan content).2).1 } := by
  have hfarm : ∀ text, extractJsonMarkers text (ascii "FARM") = farmRe.scan text := fun _ =>
    extract_eq (by decide)
  have hsalience : ∀ text, extractJsonMarkers text (ascii "SALIENCE") = salienceRe.scan text :=
    fun _ => extract_eq (by decide)
  unfold parseOutput
  simp only [hfarm, hsalience]

theorem quiet_of_captures {m : Pattern} {text : Bytes} (h : captures m text = []) : m.Quiet text [] :=
  Pattern.quiet_of_scan (List.map_eq_nil_iff.mp h)

section
variable {inRange : Bytes → Bool} {kind : MarkerKind} {gap p pre post : Bytes}

theorem round_trips_of_readable (hgap : IsGap gap) (hp : IsObject inRange p)
    (hfree : Free (pre ++ post)) (h : Readable kind p post) : RoundTrips kind gap p pre post := by
  obtain ⟨hlazy, hothers⟩ := h
  have hown := scan_own hgap hp hfree hlazy
  have hother : ∀ m ∈ kind.others, m.scan (pre ++ (marker kind gap p ++ post)) =
      ([], pre ++ (marker kind gap p ++ post)) := by
    intro m hm
    obtain ⟨tag, htag, hne⟩ := others_tagged m hm
    exact htag.scan_other hne hgap hfree (hothers m hm)
  have htrim : trim p = p := by
    obtain ⟨inner, rfl⟩ := IsObject.braces hp
    exact trim_braces
  have hfarm := MarkerKind.farm.isTagged.scan_free hfree
  have hsalience := MarkerKind.salience.isTagged.scan_free hfree
  have hschedule := MarkerKind.schedule.isTagged.scan_free hfree
  have hintent := MarkerKind.intent.isTagged.scan_free hfree
  have hchain := MarkerKind.chain.isTagged.scan_free hfree
  have hshare := share_isTagged.scan_free hfree
  have hcall := call_isTagged.scan_free hfree
  unfold RoundTrips
  rw [parseOutput_eq]
  generalize pre ++ (marker kind gap p ++ post) = text at *
  cases kind <;> simp only [MarkerKind.pattern, MarkerKind.others, List.forall_mem_cons] at *
  · simp [hown, hsalience, hschedule, hintent, hchain, hshare, hcall, captures, replaceAll,
      ParsedOutput.only]
  · simp [hown, hother, hschedule, hintent, hchain, hshare, hcall, captures, replaceAll,
      ParsedOutput.only]
  · simp [hown, hother, hintent, hchain, captures, replaceAll, ParsedOutput.only, htrim]
  · simp [hown, hother, hchain, captures, replaceAll, ParsedOutput.only, htrim]
  · simp [hown, hother, captures, replaceAll, ParsedOutput.only, htrim]

/-- What the lists of a parse with one lazy payload say of the patterns. -/
theorem captures_of_only {text clean : Bytes} (hfarm : kind ≠ .farm) (hsalience : kind ≠ .salience)
    (h : parseOutput text = .only kind p clean) :
    farmRe.Quiet text [] ∧ salienceRe.Quiet text [] ∧ shareRe.Quiet text [] ∧ callRe.Quiet text [] ∧
      captures scheduleRe text = (if kind = .schedule then [p] else []) ∧
      captures intentRe text = (if kind = .intent then [p] else []) ∧
      captures chainRe text = (if kind = .chain then [p] else []) := by
  rw [parseOutput_eq] at h
  have hquiet := congrArg ParsedOutput.farmRequests h
  simp only [ParsedOutput.only, if_neg hfarm] at hquiet
  have hfarmQuiet := Pattern.quiet_of_scan hquiet
  rw [Pattern.scan_none hfarmQuiet] at h
  have hquiet := congrArg ParsedOutput.salienceRequests h
  simp only [ParsedOutput.only, if_neg hsalience] at hquiet
  have hsalienceQuiet := Pattern.quiet_of_scan hquiet
  simp only [Pattern.scan_none hsalienceQuiet] at h
  exact ⟨hfarmQuiet, hsalienceQuiet, quiet_of_captures (congrArg ParsedOutput.shareContent h),
    quiet_of_captures (congrArg ParsedOutput.callContent h),
    congrArg ParsedOutput.scheduleRequests h, congrArg ParsedOutput.intentRequests h,
    congrArg ParsedOutput.chainRequests h⟩

theorem readable_of_round_trips (hgap : IsGap gap) (hp : IsObject inRange p)
    (hfree : Free (pre ++ post)) (h : RoundTrips kind gap p pre post) : Readable kind p post := by
  -- a pattern that is quiet in the whole text is quiet in the payload
  have hinside : (∀ m ∈ kind.others, m.Quiet (pre ++ (marker kind gap p ++ post)) []) →
      ∀ m ∈ kind.others, m.Quiet p (closeBracket :: post) := by
    intro hall m hm
    obtain ⟨tag, htag, hne⟩ := others_tagged m hm
    exact (htag.quiet_iff hne hgap hfree).mp (hall m hm)
  cases kind with
  | farm => exact ⟨nofun, nofun⟩
  | salience =>
    refine ⟨nofun, hinside ?_⟩
    have hnone := congrArg ParsedOutput.farmRequests h
    rw [parseOutput_eq] at hnone
    exact List.forall_mem_singleton.mpr (Pattern.quiet_of_scan hnone)
  | schedule =>
    obtain ⟨hfarm, hsalience, hshare, hcall, hown, hintent, hchain⟩ :=
      captures_of_only (by decide) (by decide) h
    refine ⟨fun hk => lazy_of_captures hgap hp hfree hk hown, hinside ?_⟩
    simp only [MarkerKind.others, List.forall_mem_cons]
    exact ⟨hfarm, hsalience, hshare, hcall, quiet_of_captures hintent, quiet_of_captures hchain, nofun⟩
  | intent =>
    obtain ⟨hfarm, hsalience, hshare, hcall, hschedule, hown, hchain⟩ :=
      captures_of_only (by decide) (by decide) h
    refine ⟨fun hk => lazy_of_captures hgap hp hfree hk hown, hinside ?_⟩
    simp only [MarkerKind.others, List.forall_mem_cons]
    exact ⟨hfarm, hsalience, hshare, hcall, quiet_of_captures hschedule, quiet_of_captures hchain,
      nofun⟩
  | chain =>
    obtain ⟨hfarm, hsalience, hshare, hcall, hschedule, hintent, hown⟩ :=
      captures_of_only (by decide) (by decide) h
    refine ⟨fun hk => lazy_of_captures hgap hp hfree hk hown, hinside ?_⟩
    simp only [MarkerKind.others, List.forall_mem_cons]
    exact ⟨hfarm, hsalience, hshare, hcall, quiet_of_captures hschedule, quiet_of_captures hintent,
      nofun⟩

/-- A marker in a text without others is read as it was written exactly if no other pattern starts
inside its payload and, for the lazy kinds, no brace inside is followed by a bracket. -/
theorem marker_round_trip_iff (hgap : IsGap gap) (hp : IsObject inRange p)
    (hfree : Free (pre ++ post)) : RoundTrips kind gap p pre post ↔ Readable kind p post :=
  ⟨readable_of_round_trips hgap hp hfree, round_trips_of_readable hgap hp hfree⟩

end

def samplePre : Bytes := ascii "Noted. "
def samplePost : Bytes := ascii " Done."

theorem sample_free : Free (samplePre ++ samplePost) := by
  have hno : openBracket ∉ samplePre ++ samplePost := by decide +kernel
  exact fun tag _ hin => hno (hin.mem List.mem_cons_self)

def sampleFarm : Bytes :=
  ascii "\x7b\"id\":\"f\",\"subtasks\":[\x7b\"prompt\":\"say \x7d] [SHARE: a]\"\x7d]\x7d"

/-- A farm keeps its payload. -/
theorem marker_round_trip_iff_sample :
    RoundTrips .farm (ascii " ") sampleFarm samplePre samplePost := by
  have hobject : IsObject (fun _ => true) sampleFarm :=
    ⟨by decide +kernel, by decide +kernel, by decide +kernel⟩
  exact (marker_round_trip_iff (.inr rfl) hobject sample_free).mpr ⟨nofun, nofun⟩

def sampleSchedule : Bytes :=
  ascii "\x7b\"name\":\"n\",\"cron\":\"0 9 * * *\",\"prompt\":\"say \x7d] now\"\x7d"

/-- A task whose prompt has a brace before a bracket is cut there. -/
theorem schedule_cut : ¬∀ inRange kind gap p pre post, IsGap gap → IsObject inRange p →
    Free (pre ++ post) → RoundTrips kind gap p pre post := by
  intro hclaim
  have hobject : IsObject (fun _ => true) sampleSchedule :=
    ⟨by decide +kernel, by decide +kernel, by decide +kernel⟩
  have htrip := hclaim _ .schedule (ascii " ") _ _ _ (.inr rfl) hobject sample_free
  have hcut : ¬RoundTrips .schedule (ascii " ") sampleSchedule samplePre samplePost := by
    unfold RoundTrips
    decide +kernel
  exact hcut htrip

end PulseNull.Scheduler
