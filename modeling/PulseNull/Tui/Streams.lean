import PulseNull.Tui.Arrival
import PulseNull.Wire.Comms

/-! The chat stream and the stream of a dialogue as the screen reads them. -/
namespace PulseNull.Tui
open Json (openBrace)
open Text (ascii joinLines newline utf8Valid)
open Wire (ChatStreamEvent CommsEvent)

/-- Segments and resets are for a speech client, and not decoded. -/
def chatRead (inRange : Bytes → Bool) (name data : Bytes) : Option ChatStreamEvent :=
  if name = ascii "segment" ∨ name = ascii "reset" then none
  else ChatStreamEvent.fromSseParts inRange name data

/-- Decode a raw event of the chat stream. -/
def chatEventFromSse (inRange : Bytes → Bool) (ev : SseEvent) : Option ChatStreamEvent :=
  ev.event.bind fun name => chatRead inRange name ev.data

def chatReading (inRange : Bytes → Bool) : Reading ChatStreamEvent :=
  ⟨ChatStreamEvent.toSseParts, chatRead inRange⟩

theorem chatReading_readEvent (inRange : Bytes → Bool) (ev : SseEvent) :
    (chatReading inRange).readEvent ev = chatEventFromSse inRange ev := rfl

/-- What the screen shows of an event. -/
def chatShown : ChatStreamEvent → Option ChatStreamEvent
  | .segment .. | .reset .. => none
  | event => some event

/-- A line of visible bytes. -/
private theorem free_of_visible {line : Bytes} (h : ∀ c ∈ line, 32 ≤ c) : Free line := by
  refine ⟨fun c hc => ?_⟩
  have hvisible := h c hc
  have hline : c ≠ 10 := by
    rintro rfl
    exact absurd hvisible (by decide)
  have hreturn : c ≠ 13 := by
    rintro rfl
    exact absurd hvisible (by decide)
  simp [isLineEnd, carriageReturn, hline, hreturn]

/-- A name out of a list of free names is free. -/
private theorem free_of_listed {names : List String} {name : Bytes}
    (hk : ∀ k ∈ names, (∀ c ∈ ascii k, isLineEnd c = false) ∧ utf8Valid (ascii k) = true)
    (hname : ∃ k ∈ names, name = ascii k) : Free name ∧ utf8Valid name = true := by
  obtain ⟨k, hmem, hk'⟩ := hname
  rw [hk']
  exact ⟨⟨(hk k hmem).1⟩, (hk k hmem).2⟩

private theorem eventName_free (event : ChatStreamEvent) :
    Free event.eventName ∧ utf8Valid event.eventName = true := by
  have hk : ∀ k ∈ ["status", "delta", "segment", "reset", "done", "error"],
      (∀ c ∈ ascii k, isLineEnd c = false) ∧ utf8Valid (ascii k) = true := by
    simp only [List.forall_mem_cons]
    refine ⟨?_, ?_, ?_, ?_, ?_, ?_, List.forall_mem_nil _⟩
    all_goals
      rw [ascii, String.toList_ofList]
      exact ⟨by simp [isLineEnd, newline, carriageReturn], rfl⟩
  have hname : ∃ k ∈ ["status", "delta", "segment", "reset", "done", "error"], event.eventName = ascii k := by
    cases event <;> exact ⟨_, by simp, rfl⟩
  exact free_of_listed hk hname

/-- The events that are not decoded are those that are not shown. -/
private theorem silent_or_shown (event : ChatStreamEvent) :
    (event.eventName = ascii "segment" ∨ event.eventName = ascii "reset") ∧ chatShown event = none ∨
      ¬ (event.eventName = ascii "segment" ∨ event.eventName = ascii "reset") ∧ chatShown event = some event := by
  cases event with
  | segment index tool => exact .inl ⟨.inl rfl, rfl⟩
  | reset reason => exact .inl ⟨.inr rfl, rfl⟩
  | status | delta | done | error =>
    simp only [ChatStreamEvent.eventName]
    exact .inr ⟨by decide, rfl⟩

private theorem chatReading_lawful (inRange : Bytes → Bool) :
    (chatReading inRange).Lawful ChatStreamEvent.Texts chatShown where
  name event _ := eventName_free event
  data event h := by
    obtain ⟨ms, text, -, htext, hparts, -⟩ := event.written inRange h
    have hdata : ((chatReading inRange).parts event).2 = text := congrArg Prod.snd hparts
    rw [hdata]
    exact ⟨free_of_visible htext.visible, htext.utf8⟩
  full event h := by
    change chatRead inRange event.eventName event.toSseParts.2 = chatShown event
    unfold chatRead
    rcases silent_or_shown event with ⟨hs, hshown⟩ | ⟨hs, hshown⟩
    · rw [if_pos hs, hshown]
    · rw [if_neg hs, hshown]
      exact event.fromSseParts_toSseParts inRange h
  empty name := by
    have hnone : ChatStreamEvent.fromSseParts inRange name [] = none := rfl
    change chatRead inRange name [] = none
    rw [chatRead, hnone, ite_self]
  cut event h a b hab hb := by
    obtain ⟨ms, text, -, htext, hparts, -⟩ := event.written inRange h
    have hdata : ((chatReading inRange).parts event).2 = text := congrArg Prod.snd hparts
    have hnone : ChatStreamEvent.fromSseParts inRange event.eventName (Text.fromUtf8Lossy a) = none := by
      rw [ChatStreamEvent.fromSseParts, htext.cut a b (hdata ▸ hab) hb]
      rfl
    change chatRead inRange event.eventName (Text.fromUtf8Lossy a) = none
    rw [chatRead, hnone, ite_self]

/-- However the stream of a turn is cut into chunks and wherever the connection ends, the screen is given
the first of the events the daemon sent for it, in order: all that came in whole, and nothing else. -/
theorem chat_stream_arrives {ε : Type} (inRange : Bytes → Bool) {f : SseFraming} (hf : f.Lawful)
    {items : List (Sent ChatStreamEvent)} (h : ∀ item ∈ items, item.Ok ChatStreamEvent.Texts)
    (chunks : List (Except ε Bytes)) (hin : (received chunks).1 <+: f.body (chatReading inRange) items) :
    (chatReading inRange).stream chunks <+: items.filterMap (Sent.shown chatShown) ∧
      ∀ j, f.body (chatReading inRange) (items.take j) <+: (received chunks).1 →
        (items.take j).filterMap (Sent.shown chatShown) <+: (chatReading inRange).stream chunks :=
  stream_arrives hf (chatReading_lawful inRange) h chunks hin

/-- Frames as they are. -/
def plainFraming : SseFraming := ⟨fun name data => joinLines (eventLines name data) ++ lf, ascii ":" ++ lf⟩

def sampleItems : List (Sent ChatStreamEvent) :=
  [.event (.delta (ascii "h" ++ [195, 169])), .keepAlive, .event (.segment 0 false),
   .event (.done (ascii "h" ++ [195, 169]) (ascii "m") (some 3) none false false)]

def sampleBody : Bytes := plainFraming.body (chatReading fun _ => true) sampleItems

/-- The first cut is inside a character, the second inside a separator, and the last event comes in
without its separator. -/
def sampleChunks : List (Except Unit Bytes) :=
  [.ok (sampleBody.take 30), .ok ((sampleBody.drop 30).take 4), .ok ((sampleBody.drop 34).dropLast)]

theorem chat_stream_arrives_sample :
    (chatReading fun _ => true).stream sampleChunks <+: sampleItems.filterMap (Sent.shown chatShown) ∧
      (chatReading fun _ => true).stream sampleChunks =
        [.delta (ascii "h" ++ [195, 169]),
         .done (ascii "h" ++ [195, 169]) (ascii "m") (some 3) none false false] := by
  have hf : plainFraming.Lawful := ⟨fun _ _ _ _ => rfl, rfl⟩
  have htexts : ∀ item ∈ sampleItems, item.Ok ChatStreamEvent.Texts := by
    simp only [sampleItems, List.forall_mem_cons, Sent.Ok, ChatStreamEvent.Texts]
    exact ⟨by decide +kernel, trivial, trivial, ⟨by decide +kernel, by decide +kernel⟩,
      List.forall_mem_nil _⟩
  have hin : (received sampleChunks).1 <+: sampleBody := by
    have htake : (received sampleChunks).1 = sampleBody.dropLast := by decide +kernel
    rw [htake]
    exact List.dropLast_prefix _
  exact ⟨(chat_stream_arrives (fun _ => true) hf htexts sampleChunks hin).1, by decide +kernel⟩

/-! A dialogue. -/

/-- Decode a raw event of a dialogue's stream. -/
def commsEventFromSse (inRange : Bytes → Bool) (ev : SseEvent) : Option CommsEvent :=
  ev.event.bind fun name => CommsEvent.fromSseParts inRange name ev.data

def commsReading (inRange : Bytes → Bool) : Reading CommsEvent :=
  ⟨CommsEvent.toSseParts, CommsEvent.fromSseParts inRange⟩

theorem commsReading_readEvent (inRange : Bytes → Bool) (ev : SseEvent) :
    (commsReading inRange).readEvent ev = commsEventFromSse inRange ev := rfl

private theorem commsName_free (event : CommsEvent) :
    Free event.eventName ∧ utf8Valid event.eventName = true := by
  have hk : ∀ k ∈ ["turn", "status", "done", "error"],
      (∀ c ∈ ascii k, isLineEnd c = false) ∧ utf8Valid (ascii k) = true := by
    simp only [List.forall_mem_cons]
    refine ⟨?_, ?_, ?_, ?_, List.forall_mem_nil _⟩
    all_goals
      rw [ascii, String.toList_ofList]
      exact ⟨by simp [isLineEnd, newline, carriageReturn], rfl⟩
  have hname : ∃ k ∈ ["turn", "status", "done", "error"], event.eventName = ascii k := by
    cases event <;> exact ⟨_, by simp, rfl⟩
  exact free_of_listed hk hname

/-- Data that begins as an object is not blank, whole or cut. -/
private theorem trim_object {text : Bytes} (h : text.head? = some openBrace) : Text.trim text ≠ [] := by
  obtain ⟨rest, rfl⟩ : ∃ rest, text = openBrace :: rest := ⟨_, List.eq_cons_of_mem_head? h⟩
  have hstart : Text.trimStart (openBrace :: rest) = openBrace :: rest := rfl
  have hblank : ¬ Text.blank (openBrace :: rest) = true := by
    intro hb
    have hspace := Text.blank_ascii hb List.mem_cons_self (by decide)
    exact absurd hspace (by decide)
  rw [Text.trim, hstart, Text.trimEnd, if_neg hblank]
  exact List.cons_ne_nil _ _

private theorem fromUtf8Lossy_head {text : Bytes} (h : text.head? = some openBrace) :
    (Text.fromUtf8Lossy text).head? = some openBrace := by
  obtain ⟨rest, rfl⟩ : ∃ rest, text = openBrace :: rest := ⟨_, List.eq_cons_of_mem_head? h⟩
  rw [Text.fromUtf8Lossy.eq_def]
  rfl

private theorem comms_blank (inRange : Bytes → Bool) (name : Bytes) :
    CommsEvent.fromSseParts inRange name [] = none := by
  have hnull : (Wire.decodeComms name .null).toOption = none := by
    unfold Wire.decodeComms
    split_ifs <;> rfl
  exact hnull

private theorem commsReading_lawful (inRange : Bytes → Bool) :
    (commsReading inRange).Lawful CommsEvent.Texts some where
  name event _ := commsName_free event
  data event h := by
    obtain ⟨ms, text, -, htext, hparts, -⟩ := event.written inRange h
    have hdata : ((commsReading inRange).parts event).2 = text := congrArg Prod.snd hparts
    rw [hdata]
    exact ⟨free_of_visible htext.visible, htext.utf8⟩
  full event h := by
    obtain ⟨ms, text, hflat, htext, hparts, hdecode⟩ := event.written inRange h
    change CommsEvent.fromSseParts inRange event.toSseParts.1 event.toSseParts.2 = some event
    rw [hparts, CommsEvent.fromSseParts, if_neg (trim_object htext.opens), htext.parse]
    simp only [Option.map_some, Option.bind_eq_bind, Option.bind_some, hflat.normalize, hdecode]
    rfl
  empty name := comms_blank inRange name
  cut event h a b hab hb := by
    obtain ⟨ms, text, -, htext, hparts, -⟩ := event.written inRange h
    have hdata : ((commsReading inRange).parts event).2 = text := congrArg Prod.snd hparts
    rw [hdata] at hab
    change CommsEvent.fromSseParts inRange event.eventName (Text.fromUtf8Lossy a) = none
    cases a with
    | nil => exact comms_blank inRange event.eventName
    | cons c a =>
      have hopens : (c :: a).head? = some openBrace := by
        have := htext.opens
        rwa [hab] at this
      have hnone := htext.cut (c :: a) b hab hb
      rw [CommsEvent.fromSseParts, if_neg (trim_object (fromUtf8Lossy_head hopens)), hnone]
      rfl

/-- The same of the stream of a dialogue, every event of which is shown. -/
theorem comms_stream_arrives {ε : Type} (inRange : Bytes → Bool) {f : SseFraming} (hf : f.Lawful)
    {items : List (Sent CommsEvent)} (h : ∀ item ∈ items, item.Ok CommsEvent.Texts)
    (chunks : List (Except ε Bytes)) (hin : (received chunks).1 <+: f.body (commsReading inRange) items) :
    (commsReading inRange).stream chunks <+: items.filterMap (Sent.shown some) ∧
      ∀ j, f.body (commsReading inRange) (items.take j) <+: (received chunks).1 →
        (items.take j).filterMap (Sent.shown some) <+: (commsReading inRange).stream chunks :=
  stream_arrives hf (commsReading_lawful inRange) h chunks hin

def sampleDialogue : List (Sent CommsEvent) :=
  [.event (.turn (ascii "Echo") (ascii "hi") 1), .keepAlive, .event (.done true)]

/-- The connection ends inside the last event. -/
theorem comms_stream_arrives_sample :
    let chunks : List (Except Unit Bytes) :=
      [.ok ((plainFraming.body (commsReading fun _ => true) sampleDialogue).take 70)]
    (commsReading fun _ => true).stream chunks <+: sampleDialogue.filterMap (Sent.shown some) ∧
      (commsReading fun _ => true).stream chunks = [.turn (ascii "Echo") (ascii "hi") 1] := by
  have hf : plainFraming.Lawful := ⟨fun _ _ _ _ => rfl, rfl⟩
  have htexts : ∀ item ∈ sampleDialogue, item.Ok CommsEvent.Texts := by
    simp only [sampleDialogue, List.forall_mem_cons, Sent.Ok, CommsEvent.Texts]
    exact ⟨⟨by decide +kernel, by decide +kernel⟩, trivial, trivial, List.forall_mem_nil _⟩
  refine ⟨(comms_stream_arrives (fun _ => true) hf htexts _ ?_).1, by decide +kernel⟩
  have hone : (received [Except.ok (ε := Unit)
      ((plainFraming.body (commsReading fun _ => true) sampleDialogue).take 70)]).1 =
      (plainFraming.body (commsReading fun _ => true) sampleDialogue).take 70 := by decide +kernel
  rw [hone]
  exact List.take_prefix _ _

end PulseNull.Tui
