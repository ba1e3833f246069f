import PulseNull.Scheduler.Markers
import PulseNull.Tension.Markers
import PulseNull.Text.Cuts
import PulseNull.Text.Trim

/-! Text stripped of its markers. A marker that is left was put together by cutting another one. -/
namespace PulseNull.Scheduler
open Text (ascii trim trimStart blank Pattern Parser Live Joined stripAll IsInk)
open Json (openBrace closeBrace openBracket closeBracket)

/-! What a marker matches is up to its own bytes. -/

theorem isInk_closeBracket : IsInk closeBracket := ⟨by decide, by decide⟩

theorem isInk_openBracket : IsInk openBracket := ⟨by decide, by decide⟩

/-- A payload is read up to a bracket, whatever follows. -/
def LocalPayload (payload : Bytes → Option (Bytes × Bytes)) : Prop :=
  ∀ text part after, payload text = some (part, after) → ∃ v, text = v ++ closeBracket :: after ∧
    ∀ rest, payload (v ++ closeBracket :: rest) = some (part, rest)

theorem splitFirst_local {part text before after : Bytes} (hpart : part ≠ [])
    (h : splitFirst part text = some (before, after)) : text = before ++ (part ++ after) ∧
      ∀ rest, splitFirst part (before ++ (part ++ rest)) = some (before, rest) := by
  obtain ⟨htext, hfirst⟩ := splitFirst_some h
  refine ⟨htext, fun rest => splitFirst_eq hpart fun b hne hb hpre => hfirst b hne hb ?_⟩
  have hlen : part.length ≤ (b ++ part).length := by simp
  rw [← List.append_assoc] at hpre ⊢
  exact (List.prefix_of_prefix_length_le hpre (List.prefix_append _ _) hlen).trans
    (List.prefix_append _ _)

theorem freePayload_local : LocalPayload freePayload := by
  intro text part after h
  obtain ⟨htrim, hsplit⟩ := splitFirst_local (by decide) h
  obtain ⟨ws, -, htext, hws⟩ := Text.trimStart_local isInk_closeBracket htrim
  refine ⟨ws ++ part, by simpa using htext, fun rest => ?_⟩
  rw [freePayload, List.append_assoc, hws rest]
  exact hsplit rest

theorem lazyPayload_local : LocalPayload lazyPayload := by
  intro text part after h
  unfold lazyPayload at h
  split at h
  · next inner hinner =>
    obtain ⟨⟨before, tail⟩, hp, he⟩ := Option.map_eq_some_iff.mp h
    obtain ⟨rfl, rfl⟩ : openBrace :: (before ++ [closeBrace]) = part ∧ tail = after := Prod.mk.inj he
    obtain ⟨rfl, hsplit⟩ := splitFirst_local (by decide) hp
    have htrim : trimStart text =
        (openBrace :: (before ++ [closeBrace])) ++ closeBracket :: tail := by
      rw [hinner]
      simp [openBrace]
    obtain ⟨ws, -, htext, hws⟩ := Text.trimStart_local isInk_closeBracket htrim
    refine ⟨ws ++ (openBrace :: (before ++ [closeBrace])), by simpa using htext, fun rest => ?_⟩
    have := hsplit rest
    rw [lazyPayload, List.append_assoc, hws rest]
    simp only [List.cons_append, List.append_assoc, List.nil_append] at this ⊢
    rw [this]
    rfl
  · cases h

theorem balanced_local {b : Json.Braces} {text part after : Bytes}
    (h : Json.balanced b text = some (part, after)) : text = part ++ after ∧ part ≠ [] ∧
      ∀ rest, Json.balanced b (part ++ rest) = some (part, rest) := by
  induction text generalizing b part with
  | nil => exact nomatch h
  | cons c text ih =>
    unfold Json.balanced at h
    split at h
    · next hc =>
      obtain ⟨rfl, rfl⟩ := Prod.mk.inj (Option.some.inj h)
      exact ⟨rfl, List.cons_ne_nil c [], fun rest => by
        rw [List.singleton_append, Json.balanced, if_pos hc]⟩
    · next hc =>
      obtain ⟨p, hp, he⟩ := Option.map_eq_some_iff.mp h
      obtain ⟨rfl, rfl⟩ := Prod.mk.inj he
      obtain ⟨rfl, -, hrest⟩ := ih hp
      refine ⟨rfl, List.cons_ne_nil c p.1, fun rest => ?_⟩
      rw [List.cons_append, Json.balanced, if_neg hc, hrest]
      rfl

/-- A bracket after whitespace. -/
private theorem bracket_local {text tail : Bytes} (h : trimStart text = closeBracket :: tail) :
    ∃ ws, closeBracket ∉ ws ∧ text = ws ++ closeBracket :: tail ∧
      ∀ rest, trimStart (ws ++ closeBracket :: rest) = closeBracket :: rest :=
  @Text.trimStart_local _ [] _ _ isInk_closeBracket h

private theorem head_bracket {text : Bytes} (h : (trimStart text).head? = some closeBracket) :
    trimStart text = closeBracket :: (trimStart text).tail := by
  cases ht : trimStart text with
  | nil => simp [ht] at h
  | cons d tail =>
    rw [ht] at h
    rw [Option.some.inj h, List.tail_cons]

/-- The text up to the first byte, and from there on. -/
private theorem takeDrop_split {stop : UInt8} {before rest : Bytes} (h : stop ∉ before) :
    (before ++ stop :: rest).takeWhile (· ≠ stop) = before ∧
      (before ++ stop :: rest).dropWhile (· ≠ stop) = stop :: rest := by
  have hbefore : ∀ c ∈ before, (decide (c ≠ stop)) = true := fun c hc =>
    decide_eq_true fun he => h (he ▸ hc)
  rw [List.takeWhile_append_of_pos hbefore, List.dropWhile_append_of_pos hbefore]
  simp

theorem balancedPayload_local : LocalPayload balancedPayload := by
  intro text part after h
  unfold balancedPayload at h
  dsimp only at h
  split at h
  next hbefore =>
    split at h
    · next payload after0 hbal =>
      split at h
      · next hclose =>
        obtain ⟨rfl, hafter⟩ := Prod.mk.inj (Option.some.inj h)
        obtain ⟨hcand, hpart, hbalanced⟩ := balanced_local hbal
        have hhead := head_bracket hclose
        generalize (trimStart after0).tail = tail at hhead
        obtain ⟨ws, hws, rfl, htrim⟩ := bracket_local hhead
        rw [(takeDrop_split hws).2, List.drop_one, List.tail_cons] at hafter
        obtain ⟨c, inner, rfl⟩ := List.exists_cons_of_ne_nil hpart
        have hc : c = openBrace := by
          have := List.head?_dropWhile_not (fun c : UInt8 => decide (c ≠ openBrace)) text
          rw [hcand] at this
          simpa using this
        subst hc
        have hmem : openBrace ∉ text.takeWhile (· ≠ openBrace) := fun hm => by
          simpa using List.mem_takeWhile_imp hm
        have htext := (List.takeWhile_append_dropWhile (p := fun c : UInt8 => c ≠ openBrace)
          (l := text)).symm
        rw [hcand] at htext
        generalize text.takeWhile (· ≠ openBrace) = before at hbefore hmem htext
        refine ⟨before ++ (openBrace :: inner ++ ws), by simpa [← hafter] using htext, fun rest => ?_⟩
        have hsplit := @takeDrop_split openBrace before (inner ++ (ws ++ closeBracket :: rest)) hmem
        have hbal' := hbalanced (ws ++ closeBracket :: rest)
        simp only [Bool.and_eq_true] at hbefore
        unfold balancedPayload
        simp only [List.append_assoc, List.cons_append] at hbal' ⊢
        simp only [hsplit, hbal', htrim rest, hbefore.2, List.head?_cons, ne_eq, reduceCtorEq,
          not_false_eq_true, decide_true, Bool.and_self, if_true, (takeDrop_split hws).2,
          List.drop_one, List.tail_cons]
      · cases h
    · cases h
  next => cases h

private theorem closeMarker_cons (c : UInt8) (text : Bytes) : Tension.closeMarker (c :: text) =
    if c = closeBrace ∧ (trimStart text).head? = some closeBracket then
      some ([c], (trimStart text).tail)
    else (Tension.closeMarker text).map fun p => (c :: p.1, p.2) := by
  rw [Tension.closeMarker.eq_def]
  dsimp only
  split
  · next after hclose => rw [if_pos ⟨rfl, by rw [hclose]; rfl⟩, hclose, List.tail_cons]
  · next hno =>
    rw [if_neg]
    rintro ⟨rfl, hhead⟩
    cases ht : trimStart text with
    | nil => simp [ht] at hhead
    | cons d after =>
      rw [ht] at hhead
      exact hno after rfl (ht.trans (congrArg (· :: after) (Option.some.inj hhead)))

theorem closeMarker_local {text part after : Bytes}
    (h : Tension.closeMarker text = some (part, after)) : ∃ v, text = v ++ closeBracket :: after ∧
      ∀ rest, Tension.closeMarker (v ++ closeBracket :: rest) = some (part, rest) := by
  induction text generalizing part with
  | nil => exact nomatch h
  | cons c text ih =>
    rw [closeMarker_cons] at h
    split at h
    · next hclose =>
      obtain ⟨rfl, hhead⟩ := hclose
      obtain ⟨rfl, htail⟩ := Prod.mk.inj (Option.some.inj h)
      obtain ⟨ws, -, heq, hws⟩ := bracket_local (head_bracket hhead)
      refine ⟨closeBrace :: ws, by rw [List.cons_append, ← htail, ← heq], fun rest => ?_⟩
      rw [List.cons_append, closeMarker_cons, hws rest, if_pos ⟨rfl, rfl⟩, List.tail_cons]
    · next hno =>
      obtain ⟨⟨inner, tail⟩, hp, he⟩ := Option.map_eq_some_iff.mp h
      obtain ⟨rfl, rfl⟩ : c :: inner = part ∧ tail = after := Prod.mk.inj he
      obtain ⟨v, rfl, hv⟩ := ih hp
      refine ⟨c :: v, rfl, fun rest => ?_⟩
      rw [List.cons_append, closeMarker_cons, if_neg, hv rest]
      · rfl
      · -- the first bracket is in the part that does not change
        rintro ⟨hc, hhead⟩
        obtain ⟨ws, hmem, heq, hws⟩ := bracket_local (head_bracket hhead)
        refine hno ⟨hc, ?_⟩
        rcases List.append_eq_append_iff.mp heq with ⟨d, rfl, hd⟩ | ⟨d, rfl, hd⟩
        · cases d with
          | nil =>
            rw [List.append_nil] at hws
            rw [hws tail, List.head?_cons]
          | cons x d =>
            obtain ⟨rfl, -⟩ := List.cons.inj hd
            exact absurd (by simp) hmem
        · cases d with
          | nil => rw [List.append_nil, hws tail, List.head?_cons]
          | cons x d =>
            obtain ⟨rfl, -⟩ := List.cons.inj hd
            rw [List.append_assoc, List.cons_append, hws, List.head?_cons]

/-- `\s*(\{[\s\S]*?\})\s*\]` -/
def spacedPayload (afterTag : Bytes) : Option (Bytes × Bytes) :=
  match trimStart afterTag with
  | 123 :: rest => (Tension.closeMarker rest).map fun p => (openBrace :: p.1, p.2)
  | _ => none

theorem spacedPayload_local : LocalPayload spacedPayload := by
  intro text part after h
  unfold spacedPayload at h
  split at h
  · next inner hinner =>
    obtain ⟨⟨payload, tail⟩, hp, he⟩ := Option.map_eq_some_iff.mp h
    obtain ⟨rfl, rfl⟩ : openBrace :: payload = part ∧ tail = after := Prod.mk.inj he
    obtain ⟨v, rfl, hv⟩ := closeMarker_local hp
    obtain ⟨ws, -, htext, hws⟩ := @Text.trimStart_local _ (openBrace :: v) _ _ isInk_closeBracket hinner
    refine ⟨ws ++ openBrace :: v, by simpa using htext, fun rest => ?_⟩
    rw [spacedPayload, List.append_assoc, hws rest]
    simp only [List.cons_append, hv rest, Option.map_some]
  · cases h

theorem LocalPayload.shortens {payload : Bytes → Option (Bytes × Bytes)} (h : LocalPayload payload) :
    Shortens payload := by
  intro text part after hp
  obtain ⟨v, rfl, -⟩ := h text part after hp
  simp only [List.length_append, List.length_cons]
  omega

section
variable {tag : Bytes} {payload : Bytes → Option (Bytes × Bytes)} {hlen : Shortens payload}

private theorem tagged_some {text part after : Bytes} (hp : LocalPayload payload)
    (h : (taggedPattern tag payload hlen).start text = some (part, after)) :
    ∃ v, text = opening tag ++ (v ++ closeBracket :: after) ∧ ∀ rest,
      (taggedPattern tag payload hlen).start (opening tag ++ (v ++ closeBracket :: rest)) =
        some (part, rest) := by
  have hpre : opening tag <+: text := by
    by_contra hno
    rw [tagged_none hno] at h
    cases h
  obtain ⟨afterTag, rfl⟩ := hpre
  rw [tagged_opening] at h
  obtain ⟨v, rfl, hv⟩ := hp _ _ _ h
  exact ⟨v, rfl, fun rest => (tagged_opening _).trans (hv rest)⟩

theorem tagged_local (hp : LocalPayload payload) : (taggedPattern tag payload hlen).Local := by
  intro text part after h
  obtain ⟨v, rfl, hv⟩ := tagged_some hp h
  refine ⟨opening tag ++ (v ++ [closeBracket]), by simp, fun rest => ?_⟩
  simpa using hv rest

/-- A match stands between brackets. -/
def Framed (m : Pattern) : Prop := ∀ w part, m.start w = some (part, []) →
  ∃ mid, w = openBracket :: (mid ++ [closeBracket])

theorem tagged_framed (hp : LocalPayload payload) : Framed (taggedPattern tag payload hlen) := by
  intro w part h
  obtain ⟨v, rfl, -⟩ := tagged_some hp h
  exact ⟨tag ++ [Json.colon] ++ v, by simp [opening]⟩

end

/-! The patterns. -/

def predictRe : Pattern := taggedPattern (ascii "PREDICT") spacedPayload spacedPayload_local.shortens
def resolveRe : Pattern := taggedPattern (ascii "RESOLVE") spacedPayload spacedPayload_local.shortens
def threadRe : Pattern := taggedPattern (ascii "THREAD") spacedPayload spacedPayload_local.shortens
def threadWorkRe : Pattern :=
  taggedPattern (ascii "THREAD-WORK") spacedPayload spacedPayload_local.shortens
def threadResolveRe : Pattern :=
  taggedPattern (ascii "THREAD-RESOLVE") spacedPayload spacedPayload_local.shortens

structure MarkerCounts where
  predict : Nat
  resolve : Nat
  deriving DecidableEq

def countPredictionMarkers (text : Bytes) : MarkerCounts :=
  ⟨(predictRe.scan text).1.length, (resolveRe.scan text).1.length⟩

def stripPredictionMarkers (text : Bytes) : Bytes :=
  let noPredict := replaceAll predictRe text
  trim (replaceAll resolveRe noPredict)

def stripThreadMarkers (text : Bytes) : Bytes :=
  let a := replaceAll threadResolveRe text
  let b := replaceAll threadWorkRe a
  trim (replaceAll threadRe b)

/-- A pattern all of whose captures are taken. -/
def Parser.all (m : Pattern) : Parser := ⟨m, fun _ => true⟩

def outputParsers : List Parser :=
  [farmRe, salienceRe, shareRe, callRe, scheduleRe, intentRe, chainRe].map Parser.all

def predictionParsers : List Parser := [predictRe, resolveRe].map Parser.all

def threadGrammar : List Parser := [threadResolveRe, threadWorkRe, threadRe].map Parser.all

section
open Tension (PayloadReader parsePayload parsedResolution parsedWork threadDraft parseThreads
  parseWorkClaims parseResolutions)

/-- A capture counts when its payload is read and its fields pass. -/
def threadParsers (reader : PayloadReader) : List Parser :=
  [⟨threadResolveRe, fun p => ((parsePayload reader.resolve p).bind parsedResolution).isSome⟩,
   ⟨threadWorkRe, fun p => ((parsePayload reader.work p).bind parsedWork).isSome⟩,
   ⟨threadRe, fun p => ((parsePayload reader.thread p).bind threadDraft).isSome⟩]

/-- Nothing was read. -/
structure ParsedOutput.Silent (o : ParsedOutput) : Prop where
  share : o.shareContent = []
  call : o.callContent = []
  schedule : o.scheduleRequests = []
  intent : o.intentRequests = []
  chain : o.chainRequests = []
  farm : o.farmRequests = []
  salience : o.salienceRequests = []

theorem outputParsers_local : ∀ p ∈ outputParsers, p.pattern.Local ∧ Framed p.pattern := by
  have hbalanced := balancedPayload_local
  have hlazy := lazyPayload_local
  have hfree := freePayload_local
  simp only [outputParsers, Parser.all, List.map_cons, List.map_nil, List.forall_mem_cons]
  exact ⟨⟨tagged_local hbalanced, tagged_framed hbalanced⟩,
    ⟨tagged_local hbalanced, tagged_framed hbalanced⟩, ⟨tagged_local hfree, tagged_framed hfree⟩,
    ⟨tagged_local hfree, tagged_framed hfree⟩, ⟨tagged_local hlazy, tagged_framed hlazy⟩,
    ⟨tagged_local hlazy, tagged_framed hlazy⟩, ⟨tagged_local hlazy, tagged_framed hlazy⟩, nofun⟩

theorem predictionParsers_local : ∀ p ∈ predictionParsers, p.pattern.Local ∧ Framed p.pattern := by
  have h := spacedPayload_local
  simp only [predictionParsers, Parser.all, List.map_cons, List.map_nil, List.forall_mem_cons]
  exact ⟨⟨tagged_local h, tagged_framed h⟩, ⟨tagged_local h, tagged_framed h⟩, nofun⟩

theorem threadParsers_local (reader : PayloadReader) :
    ∀ p ∈ threadParsers reader, p.pattern.Local ∧ Framed p.pattern := by
  have h := spacedPayload_local
  simp only [threadParsers, List.forall_mem_cons]
  exact ⟨⟨tagged_local h, tagged_framed h⟩, ⟨tagged_local h, tagged_framed h⟩,
    ⟨tagged_local h, tagged_framed h⟩, nofun⟩

theorem threadGrammar_local : ∀ p ∈ threadGrammar, p.pattern.Local ∧ Framed p.pattern := by
  have h := spacedPayload_local
  simp only [threadGrammar, Parser.all, List.map_cons, List.map_nil, List.forall_mem_cons]
  exact ⟨⟨tagged_local h, tagged_framed h⟩, ⟨tagged_local h, tagged_framed h⟩,
    ⟨tagged_local h, tagged_framed h⟩, nofun⟩

/-! The results. -/

variable {parsers : List Parser} (h : ∀ p ∈ parsers, p.pattern.Local ∧ Framed p.pattern)
include h

theorem live_trim_iff (text : Bytes) : Live parsers (trim text) ↔ Live parsers text := by
  have hlocal : ∀ p ∈ parsers, p.pattern.Local := fun p hp => (h p hp).1
  constructor
  · rintro ⟨p, hp, s, hs, hlive⟩
    obtain ⟨cs, -, htext, -⟩ := Text.trimStart_spec text
    obtain ⟨ws, -, htrim⟩ := Text.trimEnd_append (trimStart text)
    have hin : trim text <:+: text := by
      refine ⟨cs.flatten, ws, ?_⟩
      rw [List.append_assoc, trim, ← htrim, ← htext]
    exact ⟨p, hp, s, hs.trans hin, hlive⟩
  · intro hlive
    rw [Text.live_iff hlocal (List.Subset.refl _)] at hlive ⊢
    obtain ⟨p, hp, w, hw, part, hmatch, hacc⟩ := hlive
    obtain ⟨mid, rfl⟩ := (h p hp).2 w part hmatch
    exact ⟨p, hp, _, Text.infix_trim isInk_openBracket isInk_closeBracket hw, part, hmatch, hacc⟩

/-- A marker of the stripped text was put together by a cut. -/
theorem live_stripped_iff (text : Bytes) :
    Live parsers (trim (stripAll parsers text)) ↔ Joined parsers text :=
  (live_trim_iff h _).trans (Text.live_strip_iff (fun p hp => (h p hp).1) text)

theorem strip_idempotent (hall : ∀ p ∈ parsers, ∀ part, p.accepts part = true) {text : Bytes}
    (hj : ¬Joined parsers text) : trim (stripAll parsers (trim (stripAll parsers text))) =
      trim (stripAll parsers text) := by
  rw [Text.stripAll_of_dead hall (mt (live_stripped_iff h text).mp hj), Text.trim_trim]

omit h in
/-- No part of the text is taken by any of the parsers. -/
private theorem dead_iff {text : Bytes} : ¬Live parsers text ↔ ∀ s, s <:+: text →
    ∀ p ∈ parsers, ∀ part ∈ (p.pattern.scan s).1, p.accepts part = false := by
  unfold Live
  push Not
  constructor
  · intro hdead s hs p hp part hpart
    simpa using hdead p hp s hs part hpart
  · intro hdead p hp s hs part hpart
    simp [hdead s hs p hp part hpart]

omit h in
private theorem all_accepts (patterns : List Pattern) :
    ∀ p ∈ patterns.map Parser.all, ∀ part, p.accepts part = true := by
  simp [Parser.all]

omit h in
private theorem dead_all_iff {patterns : List Pattern} {text : Bytes} :
    ¬Live (patterns.map Parser.all) text ↔ ∀ s, s <:+: text →
      ∀ m ∈ patterns, (m.scan s).1 = [] := by
  rw [dead_iff]
  refine forall₂_congr fun s _ => ?_
  simp only [List.forall_mem_map, Parser.all]
  refine forall₂_congr fun m _ => ?_
  rw [List.eq_nil_iff_forall_not_mem]
  constructor
  · intro hno part hpart
    exact Bool.noConfusion (hno part hpart)
  · intro hno part hpart
    exact absurd hpart (hno part)

end

theorem silent_iff {text : Bytes} : (parseOutput text).Silent ↔
    ∀ m ∈ [farmRe, salienceRe, shareRe, callRe, scheduleRe, intentRe, chainRe],
      (m.scan text).1 = [] := by
  have hquiet : ∀ {m : Pattern} {text : Bytes}, (m.scan text).1 = [] → (m.scan text).2 = text :=
    fun h => by rw [Pattern.scan_none (Pattern.quiet_of_scan h)]
  have hmap : ∀ {m : Pattern} {text : Bytes}, captures m text = [] ↔ (m.scan text).1 = [] :=
    List.map_eq_nil_iff
  rw [parseOutput_eq]
  simp only [List.forall_mem_cons]
  constructor
  · rintro ⟨hshare, hcall, hschedule, hintent, hchain, hfarm, hsalience⟩
    dsimp only at hshare hcall hschedule hintent hchain hfarm hsalience
    rw [hquiet hfarm] at hsalience hshare hcall hschedule hintent hchain
    rw [hquiet hsalience, hmap] at hshare hcall hschedule hintent hchain
    exact ⟨hfarm, hsalience, hshare, hcall, hschedule, hintent, hchain, nofun⟩
  · rintro ⟨hfarm, hsalience, hshare, hcall, hschedule, hintent, hchain, -⟩
    rw [hquiet hfarm, hquiet hsalience]
    exact ⟨hmap.mpr hshare, hmap.mpr hcall, hmap.mpr hschedule, hmap.mpr hintent,
      hmap.mpr hchain, hfarm, hsalience⟩

private theorem capturesFrom_eq (name : Bytes) : ∀ (n : Nat) (text : Bytes),
    Tension.capturesFrom name n text =
      ((taggedPattern name spacedPayload spacedPayload_local.shortens).scanFrom n text).1
  | 0, _ => rfl
  | _ + 1, [] => rfl
  | n + 1, c :: rest => by
    have hstart : Tension.markerAt name (c :: rest) =
        (taggedPattern name spacedPayload spacedPayload_local.shortens).start (c :: rest) := rfl
    rw [Tension.capturesFrom, Pattern.scanFrom, hstart]
    cases (taggedPattern name spacedPayload spacedPayload_local.shortens).start (c :: rest) with
    | none => exact capturesFrom_eq name n rest
    | some hit =>
      obtain ⟨payload, after⟩ := hit
      exact congrArg (payload :: ·) (capturesFrom_eq name n after)

theorem thread_captures (name text : Bytes) : Tension.captures name text =
    ((taggedPattern name spacedPayload spacedPayload_local.shortens).scan text).1 :=
  capturesFrom_eq name text.length text

private theorem filterMap_nil_iff {α β γ : Type} {l : List α} {f : α → Option β}
    {g : β → Option γ} :
    l.filterMap (fun a => (f a).bind g) = [] ↔ ∀ a ∈ l, ((f a).bind g).isSome = false := by
  simp [List.filterMap_eq_nil_iff]

end PulseNull.Scheduler
