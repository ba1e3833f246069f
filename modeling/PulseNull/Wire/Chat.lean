import PulseNull.Json.Flat
import PulseNull.Server.TurnStream
import PulseNull.Word

/-! The events of a streamed chat turn as they cross the wire: a name and one JSON object. -/
namespace PulseNull.Wire
open Text (ascii)
open Json (Decoder)
open Server.TurnStream (ResetReason)

abbrev U32 := Fin (2^32)
abbrev U16 := Fin (2^16)

inductive TurnPhase where
  | thinking | tool | responding
  deriving DecidableEq

inductive ChatStreamEvent where
  | status (status : TurnPhase) (name : Option Bytes)
  | delta (text : Bytes)
  | segment (index : U32) (tool : Bool)
  | reset (reason : ResetReason)
  | done (text model : Bytes) (tokensIn tokensOut : Option U32) (isolation truncated : Bool)
  | error (status : U16) (message : Bytes)
  deriving DecidableEq

def phaseName : TurnPhase → Bytes
  | .thinking => ascii "thinking"
  | .tool => ascii "tool"
  | .responding => ascii "responding"

def resetName : ResetReason → Bytes
  | .fallback => ascii "fallback"
  | .guard => ascii "guard"
  | .budget => ascii "budget"
  | .refusal => ascii "refusal"
  | .error => ascii "error"

def jsonU32 (n : U32) : Json := .num (.pos ⟨n.val, u32_lt_u64 n⟩)

def jsonU16 (n : U16) : Json := .num (.pos ⟨n.val, n.isLt.trans (by decide)⟩)

def jsonOptU32 : Option U32 → Json
  | some n => jsonU32 n
  | none => .null

def ChatStreamEvent.eventName : ChatStreamEvent → Bytes
  | .status .. => ascii "status"
  | .delta .. => ascii "delta"
  | .segment .. => ascii "segment"
  | .reset .. => ascii "reset"
  | .done .. => ascii "done"
  | .error .. => ascii "error"

def ChatStreamEvent.fields : ChatStreamEvent → List (Bytes × Json)
  | .status phase name =>
    (ascii "status", .str (phaseName phase)) ::
      match name with
      | some name => [(ascii "name", .str name)]
      | none => []
  | .delta text => [(ascii "text", .str text)]
  | .segment index tool => [(ascii "index", jsonU32 index), (ascii "tool", .bool tool)]
  | .reset reason => [(ascii "reason", .str (resetName reason))]
  | .done text model tokensIn tokensOut isolation truncated =>
    [(ascii "isolation", .bool isolation), (ascii "model", .str model), (ascii "text", .str text),
     (ascii "tokens_in", jsonOptU32 tokensIn), (ascii "tokens_out", jsonOptU32 tokensOut),
     (ascii "truncated", .bool truncated)]
  | .error code message => [(ascii "message", .str message), (ascii "status", jsonU16 code)]

/-- The event name and its JSON data, with the object's keys in order. -/
def ChatStreamEvent.toSseParts (event : ChatStreamEvent) : Bytes × Bytes :=
  (event.eventName, (Json.print (Json.ofFields event.fields)).getD (ascii "\x7b\x7d"))

/-! Reading. -/

def decodeU16 : Decoder U16
  | .num (.pos n) => if h : n.val < 2^16 then .ok ⟨n.val, h⟩ else .error .other
  | v => .error (Json.mismatch v)

def decodePhase : Decoder TurnPhase := Json.decodeName fun name =>
  if name = ascii "thinking" then some .thinking
  else if name = ascii "tool" then some .tool
  else if name = ascii "responding" then some .responding
  else none

def decodeReset : Decoder ResetReason := Json.decodeName fun name =>
  if name = ascii "fallback" then some .fallback
  else if name = ascii "guard" then some .guard
  else if name = ascii "budget" then some .budget
  else if name = ascii "refusal" then some .refusal
  else if name = ascii "error" then some .error
  else none

/-- A member that may be missing. -/
def defaulted {α : Type} (d : Decoder α) (k : Bytes) (default : α) (ms : List (Bytes × Json)) :
    Except Json.DecodeError α :=
  match Json.lookup k ms with
  | some v => d v
  | none => .ok default

def decodeStatus : Decoder ChatStreamEvent := fun v => do
  let ms ← Json.openMembers
    [.of (ascii "status") decodePhase, .of (ascii "name") (Json.decodeOption Json.decodeStr)] v
  return .status (← Json.required decodePhase (ascii "status") ms)
    (← Json.optional Json.decodeStr (ascii "name") ms)

def decodeDelta : Decoder ChatStreamEvent := fun v => do
  let ms ← Json.openMembers [.of (ascii "text") Json.decodeStr] v
  return .delta (← Json.required Json.decodeStr (ascii "text") ms)

def decodeSegment : Decoder ChatStreamEvent := fun v => do
  let ms ← Json.openMembers
    [.of (ascii "index") Json.decodeU32, .of (ascii "tool") Json.decodeBool] v
  return .segment (← Json.required Json.decodeU32 (ascii "index") ms)
    (← Json.required Json.decodeBool (ascii "tool") ms)

def decodeResetEvent : Decoder ChatStreamEvent := fun v => do
  let ms ← Json.openMembers [.of (ascii "reason") decodeReset] v
  return .reset (← Json.required decodeReset (ascii "reason") ms)

def decodeDone : Decoder ChatStreamEvent := fun v => do
  let ms ← Json.openMembers
    [.of (ascii "text") Json.decodeStr, .of (ascii "model") Json.decodeStr,
     .of (ascii "tokens_in") (Json.decodeOption Json.decodeU32),
     .of (ascii "tokens_out") (Json.decodeOption Json.decodeU32),
     .of (ascii "isolation") Json.decodeBool, .of (ascii "truncated") Json.decodeBool] v
  return .done (← Json.required Json.decodeStr (ascii "text") ms)
    (← Json.required Json.decodeStr (ascii "model") ms)
    (← Json.optional Json.decodeU32 (ascii "tokens_in") ms)
    (← Json.optional Json.decodeU32 (ascii "tokens_out") ms)
    (← defaulted Json.decodeBool (ascii "isolation") false ms)
    (← defaulted Json.decodeBool (ascii "truncated") false ms)

def decodeError : Decoder ChatStreamEvent := fun v => do
  let ms ← Json.openMembers
    [.of (ascii "status") decodeU16, .of (ascii "message") Json.decodeStr] v
  return .error (← Json.required decodeU16 (ascii "status") ms)
    (← Json.required Json.decodeStr (ascii "message") ms)

/-- The content of an event of this name. -/
def decodeChat (name : Bytes) : Decoder ChatStreamEvent := fun v =>
  if name = ascii "status" then decodeStatus v
  else if name = ascii "delta" then decodeDelta v
  else if name = ascii "segment" then decodeSegment v
  else if name = ascii "reset" then decodeResetEvent v
  else if name = ascii "done" then decodeDone v
  else if name = ascii "error" then decodeError v
  else .error .unknown

def ChatStreamEvent.fromSseParts (inRange : Bytes → Bool) (name data : Bytes) : Option ChatStreamEvent := do
  let v ← Json.parse inRange data
  (decodeChat name v.normalize).toOption

/-! What was written is what is read. -/

/-- The strings of an event are UTF-8. -/
def ChatStreamEvent.Texts : ChatStreamEvent → Prop
  | .status _ (some name) => Text.utf8Valid name = true
  | .status _ none | .segment .. | .reset .. => True
  | .delta text => Text.utf8Valid text = true
  | .done text model .. => Text.utf8Valid text = true ∧ Text.utf8Valid model = true
  | .error _ message => Text.utf8Valid message = true

/-- The object of an event, its keys in order. -/
private def members : ChatStreamEvent → List (Bytes × Json)
  | .status phase (some name) => [(ascii "name", .str name), (ascii "status", .str (phaseName phase))]
  | .status phase none => [(ascii "status", .str (phaseName phase))]
  | event => event.fields

private theorem ofFields_fields (event : ChatStreamEvent) :
    Json.ofFields event.fields = .obj (members event) := by
  rcases event with ⟨phase, _ | name⟩ | _ | _ | _ | _ | _ <;> rfl

private theorem simple_name (phase : TurnPhase) : Json.Simple (.str (phaseName phase)) :=
  Json.simple_str (by cases phase <;> (rw [phaseName, ascii, String.toList_ofList]; rfl))

private theorem simple_reason (reason : ResetReason) : Json.Simple (.str (resetName reason)) :=
  Json.simple_str (by cases reason <;> (rw [resetName, ascii, String.toList_ofList]; rfl))

private theorem simple_optU32 : ∀ n : Option U32, Json.Simple (jsonOptU32 n)
  | some _ => Json.simple_pos _
  | none => Json.simple_null

private theorem members_flat {event : ChatStreamEvent} (h : event.Texts) : Json.Flat (members event) := by
  have hk : ∀ k ∈ ["name", "status", "text", "index", "tool", "reason", "isolation", "model", "tokens_in",
      "tokens_out", "truncated", "message"], Text.utf8Valid (ascii k) = true := by
    simp only [List.forall_mem_cons]
    refine ⟨?_, ?_, ?_, ?_, ?_, ?_, ?_, ?_, ?_, ?_, ?_, ?_, List.forall_mem_nil _⟩
    all_goals
      rw [ascii, String.toList_ofList]
      rfl
  simp only [List.forall_mem_cons] at hk
  obtain ⟨k1, k2, k3, k4, k5, k6, k7, k8, k9, k10, k11, k12, -⟩ := hk
  constructor
  · cases event with
    | status phase name =>
      cases name with
      | none => simpa [members, ChatStreamEvent.fields] using ⟨k2, simple_name phase⟩
      | some name => simpa [members] using ⟨⟨k1, Json.simple_str h⟩, k2, simple_name phase⟩
    | delta text => simpa [members, ChatStreamEvent.fields] using ⟨k3, Json.simple_str h⟩
    | segment index tool =>
      simpa [members, ChatStreamEvent.fields] using ⟨⟨k4, Json.simple_pos _⟩, k5, Json.simple_bool tool⟩
    | reset reason => simpa [members, ChatStreamEvent.fields] using ⟨k6, simple_reason reason⟩
    | done text model tokensIn tokensOut isolation truncated =>
      simpa [members, ChatStreamEvent.fields] using ⟨⟨k7, Json.simple_bool _⟩, ⟨k8, Json.simple_str h.2⟩,
        ⟨k3, Json.simple_str h.1⟩, ⟨k9, simple_optU32 _⟩, ⟨k10, simple_optU32 _⟩, k11, Json.simple_bool _⟩
    | error code message =>
      simpa [members, ChatStreamEvent.fields] using ⟨⟨k12, Json.simple_str h⟩, k2, Json.simple_pos _⟩
  · rcases event with ⟨phase, _ | name⟩ | _ | _ | _ | _ | _ <;>
      simp +decide [members, ChatStreamEvent.fields, Json.SortedKeys]

private theorem decodePhase_name (phase : TurnPhase) : decodePhase (.str (phaseName phase)) = .ok phase := by
  cases phase <;> decide

private theorem decodeReset_name (reason : ResetReason) :
    decodeReset (.str (resetName reason)) = .ok reason := by
  cases reason <;> decide

private theorem decodeU32_json (n : U32) : Json.decodeU32 (jsonU32 n) = .ok n := Json.decodeU32_eq_ok.mpr rfl

private theorem decodeU16_json (n : U16) : decodeU16 (jsonU16 n) = .ok n := by
  rw [jsonU16, decodeU16, dif_pos n.isLt]

private theorem decodeOpt_json (n : Option U32) : Json.decodeOption Json.decodeU32 (jsonOptU32 n) = .ok n := by
  cases n with
  | none => rfl
  | some n =>
    have : Json.decodeOption Json.decodeU32 (jsonU32 n) = (Json.decodeU32 (jsonU32 n)).map some := rfl
    rw [jsonOptU32, this, decodeU32_json]
    rfl

private theorem decodeChat_members (event : ChatStreamEvent) :
    decodeChat event.eventName (.obj (members event)) = .ok event := by
  have hs (s : Bytes) : Json.decodeStr (.str s) = .ok s := rfl
  have hb (b : Bool) : Json.decodeBool (.bool b) = .ok b := rfl
  cases event with
  | status phase name =>
    cases name <;>
      simp +decide [decodeChat, decodeStatus, ChatStreamEvent.eventName, members, Json.openMembers,
        Json.recordMembers, Json.visit, Json.Field.of, ensure, Json.required, Json.optional, Json.lookup,
        Json.decodeOption, hs, decodePhase_name, Except.map, bind, Except.bind, pure, Except.pure]
  | delta text =>
    simp +decide [decodeChat, decodeDelta, ChatStreamEvent.eventName, members, ChatStreamEvent.fields,
      Json.openMembers, Json.recordMembers, Json.visit, Json.Field.of, ensure, Json.required, Json.lookup,
      hs, Except.map, bind, Except.bind, pure, Except.pure]
  | segment index tool =>
    simp +decide [decodeChat, decodeSegment, ChatStreamEvent.eventName, members, ChatStreamEvent.fields,
      Json.openMembers, Json.recordMembers, Json.visit, Json.Field.of, ensure, Json.required, Json.lookup,
      hb, decodeU32_json, Except.map, bind, Except.bind, pure, Except.pure]
  | reset reason =>
    simp +decide [decodeChat, decodeResetEvent, ChatStreamEvent.eventName, members, ChatStreamEvent.fields,
      Json.openMembers, Json.recordMembers, Json.visit, Json.Field.of, ensure, Json.required, Json.lookup,
      decodeReset_name, Except.map, bind, Except.bind, pure, Except.pure]
  | done text model tokensIn tokensOut isolation truncated =>
    simp +decide [decodeChat, decodeDone, ChatStreamEvent.eventName, members, ChatStreamEvent.fields,
      Json.openMembers, Json.recordMembers, Json.visit, Json.Field.of, ensure, Json.required, Json.optional,
      defaulted, Json.lookup, hs, hb, decodeOpt_json, -Nat.reducePow, Except.map, bind, Except.bind, pure,
      Except.pure]
  | error code message =>
    simp +decide [decodeChat, decodeError, ChatStreamEvent.eventName, members, ChatStreamEvent.fields,
      Json.openMembers, Json.recordMembers, Json.visit, Json.Field.of, ensure, Json.required, Json.lookup,
      hs, decodeU16_json, Except.map, bind, Except.bind, pure, Except.pure]

/-- The data of an event is the text of its object. -/
theorem ChatStreamEvent.written (inRange : Bytes → Bool) {event : ChatStreamEvent} (h : event.Texts) :
    ∃ ms text, Json.Flat ms ∧ Json.FlatText inRange ms text ∧ event.toSseParts = (event.eventName, text) ∧
      decodeChat event.eventName (.obj ms) = .ok event := by
  have hflat := members_flat h
  obtain ⟨text, htext⟩ := hflat.text inRange
  refine ⟨_, text, hflat, htext, ?_, decodeChat_members event⟩
  rw [toSseParts, ofFields_fields, htext.print]
  rfl

/-- An event is read back from its name and data. -/
theorem ChatStreamEvent.fromSseParts_toSseParts (inRange : Bytes → Bool) {event : ChatStreamEvent}
    (h : event.Texts) : fromSseParts inRange event.toSseParts.1 event.toSseParts.2 = some event := by
  obtain ⟨ms, text, hflat, htext, hparts, hdecode⟩ := event.written inRange h
  rw [hparts, fromSseParts, htext.parse, Option.bind_eq_bind, Option.bind_some, hflat.normalize, hdecode]
  rfl

end PulseNull.Wire
