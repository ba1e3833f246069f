import PulseNull.Text.Trim
import PulseNull.Wire.Chat

/-! The events of a dialogue's stream as they cross the wire. -/
namespace PulseNull.Wire
open Text (ascii)
open Json (Decoder)

structure CommsStatus where
  id : Bytes
  peer : Bytes
  topic : Option Bytes
  turn : U32
  maxTurns : U32
  phase : Bytes
  error : Option Bytes
  archived : Bool
  deriving DecidableEq

inductive CommsEvent where
  | turn (who text : Bytes) (n : U32)
  | status (status : CommsStatus)
  | done (archived : Bool)
  | error (message : Bytes) (archived : Bool)
  deriving DecidableEq

def CommsEvent.eventName : CommsEvent → Bytes
  | .turn .. => ascii "turn"
  | .status .. => ascii "status"
  | .done .. => ascii "done"
  | .error .. => ascii "error"

/-- A member that is left out when there is nothing. -/
def someField (key : String) : Option Bytes → List (Bytes × Json)
  | some value => [(ascii key, .str value)]
  | none => []

def CommsStatus.fields (status : CommsStatus) : List (Bytes × Json) :=
  [(ascii "id", .str status.id), (ascii "peer", .str status.peer)] ++ someField "topic" status.topic ++
    [(ascii "turn", jsonU32 status.turn), (ascii "max_turns", jsonU32 status.maxTurns),
     (ascii "phase", .str status.phase)] ++ someField "error" status.error ++
    [(ascii "archived", .bool status.archived)]

def CommsEvent.fields : CommsEvent → List (Bytes × Json)
  | .turn who text n => [(ascii "who", .str who), (ascii "text", .str text), (ascii "n", jsonU32 n)]
  | .status s => s.fields
  | .done archived => [(ascii "archived", .bool archived)]
  | .error message archived => [(ascii "message", .str message), (ascii "archived", .bool archived)]

/-- The event name and its data, as the text of a map value. -/
def CommsEvent.toSseParts (event : CommsEvent) : Bytes × Bytes :=
  (event.eventName, (Json.print (Json.ofFields event.fields)).getD (ascii "\x7b\x7d"))

/-! Reading. -/

def decodeTurn : Decoder CommsEvent := fun v => do
  let ms ← Json.openMembers
    [.of (ascii "who") Json.decodeStr, .of (ascii "text") Json.decodeStr, .of (ascii "n") Json.decodeU32] v
  return .turn (← Json.required Json.decodeStr (ascii "who") ms)
    (← Json.required Json.decodeStr (ascii "text") ms) (← Json.required Json.decodeU32 (ascii "n") ms)

def decodeCommsStatus : Decoder CommsStatus := fun v => do
  let ms ← Json.openMembers
    [.of (ascii "id") Json.decodeStr, .of (ascii "peer") Json.decodeStr,
     .of (ascii "topic") (Json.decodeOption Json.decodeStr), .of (ascii "turn") Json.decodeU32,
     .of (ascii "max_turns") Json.decodeU32, .of (ascii "phase") Json.decodeStr,
     .of (ascii "error") (Json.decodeOption Json.decodeStr), .of (ascii "archived") Json.decodeBool] v
  return {
    id := ← Json.required Json.decodeStr (ascii "id") ms
    peer := ← Json.required Json.decodeStr (ascii "peer") ms
    topic := ← Json.optional Json.decodeStr (ascii "topic") ms
    turn := ← Json.required Json.decodeU32 (ascii "turn") ms
    maxTurns := ← Json.required Json.decodeU32 (ascii "max_turns") ms
    phase := ← Json.required Json.decodeStr (ascii "phase") ms
    error := ← Json.optional Json.decodeStr (ascii "error") ms
    archived := ← defaulted Json.decodeBool (ascii "archived") false ms }

def decodeCommsDone : Decoder CommsEvent := fun v => do
  let ms ← Json.openMembers [.of (ascii "archived") Json.decodeBool] v
  return .done (← defaulted Json.decodeBool (ascii "archived") false ms)

def decodeCommsError : Decoder CommsEvent := fun v => do
  let ms ← Json.openMembers
    [.of (ascii "message") Json.decodeStr, .of (ascii "archived") Json.decodeBool] v
  return .error (← Json.required Json.decodeStr (ascii "message") ms)
    (← defaulted Json.decodeBool (ascii "archived") false ms)

def decodeComms (name : Bytes) : Decoder CommsEvent := fun v =>
  if name = ascii "turn" then decodeTurn v
  else if name = ascii "status" then (decodeCommsStatus v).map .status
  else if name = ascii "done" then decodeCommsDone v
  else if name = ascii "error" then decodeCommsError v
  else .error .unknown

/-- Blank data is null. -/
def CommsEvent.fromSseParts (inRange : Bytes → Bool) (name data : Bytes) : Option CommsEvent := do
  let v ← if Text.trim data = [] then some .null else (Json.parse inRange data).map Json.normalize
  (decodeComms name v).toOption

/-! What was written is what is read. -/

def CommsEvent.Texts : CommsEvent → Prop
  | .turn who text _ => Text.utf8Valid who = true ∧ Text.utf8Valid text = true
  | .status s => Text.utf8Valid s.id = true ∧ Text.utf8Valid s.peer = true ∧
      (∀ topic ∈ s.topic, Text.utf8Valid topic = true) ∧ Text.utf8Valid s.phase = true ∧
      ∀ error ∈ s.error, Text.utf8Valid error = true
  | .done _ => True
  | .error message _ => Text.utf8Valid message = true

/-- The object of an event, its keys in order. -/
private def commsMembers : CommsEvent → List (Bytes × Json)
  | .turn who text n => [(ascii "n", jsonU32 n), (ascii "text", .str text), (ascii "who", .str who)]
  | .status s => [(ascii "archived", .bool s.archived)] ++ someField "error" s.error ++
      [(ascii "id", .str s.id), (ascii "max_turns", jsonU32 s.maxTurns), (ascii "peer", .str s.peer),
       (ascii "phase", .str s.phase)] ++ someField "topic" s.topic ++ [(ascii "turn", jsonU32 s.turn)]
  | .done archived => [(ascii "archived", .bool archived)]
  | .error message archived => [(ascii "archived", .bool archived), (ascii "message", .str message)]

private theorem comms_ofFields (event : CommsEvent) : Json.ofFields event.fields = .obj (commsMembers event) := by
  cases event with
  | status s =>
    obtain ⟨id, peer, topic, turn, maxTurns, phase, error, archived⟩ := s
    cases topic <;> cases error <;> rfl
  | _ => rfl

private theorem someField_simple {key : String} {value : Option Bytes} (hk : Text.utf8Valid (ascii key) = true)
    (h : ∀ v ∈ value, Text.utf8Valid v = true) :
    ∀ m ∈ someField key value, Text.utf8Valid m.1 = true ∧ Json.Simple m.2 := by
  cases value with
  | none => exact nofun
  | some v => exact List.forall_mem_singleton.mpr ⟨hk, Json.simple_str (h v rfl)⟩

private theorem comms_flat {event : CommsEvent} (h : event.Texts) : Json.Flat (commsMembers event) := by
  have hk : ∀ k ∈ ["n", "text", "who", "archived", "error", "id", "max_turns", "peer", "phase", "topic", "turn",
      "message"], Text.utf8Valid (ascii k) = true := by
    simp only [List.forall_mem_cons]
    refine ⟨?_, ?_, ?_, ?_, ?_, ?_, ?_, ?_, ?_, ?_, ?_, ?_, List.forall_mem_nil _⟩
    all_goals
      rw [ascii, String.toList_ofList]
      rfl
  simp only [List.forall_mem_cons] at hk
  obtain ⟨k1, k2, k3, k4, k5, k6, k7, k8, k9, k10, k11, k12, -⟩ := hk
  constructor
  · cases event with
    | turn who text n =>
      simpa [commsMembers] using ⟨⟨k1, Json.simple_pos _⟩, ⟨k2, Json.simple_str h.2⟩, k3, Json.simple_str h.1⟩
    | status s =>
      obtain ⟨hid, hpeer, htopic, hphase, herror⟩ := h
      simp only [commsMembers, List.forall_mem_append]
      refine ⟨⟨⟨⟨?_, someField_simple k5 herror⟩, ?_⟩, someField_simple k10 htopic⟩, ?_⟩
      · simpa using ⟨k4, Json.simple_bool _⟩
      · simpa using ⟨⟨k6, Json.simple_str hid⟩, ⟨k7, Json.simple_pos _⟩, ⟨k8, Json.simple_str hpeer⟩, k9,
          Json.simple_str hphase⟩
      · simpa using ⟨k11, Json.simple_pos _⟩
    | done archived => simpa [commsMembers] using ⟨k4, Json.simple_bool _⟩
    | error message archived =>
      simpa [commsMembers] using ⟨⟨k4, Json.simple_bool _⟩, k12, Json.simple_str h⟩
  · cases event with
    | status s =>
      obtain ⟨id, peer, topic, turn, maxTurns, phase, error, archived⟩ := s
      cases topic <;> cases error <;> simp +decide [commsMembers, someField, Json.SortedKeys]
    | _ => simp +decide [commsMembers, Json.SortedKeys]

private theorem decodeComms_members (event : CommsEvent) :
    decodeComms event.eventName (.obj (commsMembers event)) = .ok event := by
  have hs (s : Bytes) : Json.decodeStr (.str s) = .ok s := rfl
  have hb (b : Bool) : Json.decodeBool (.bool b) = .ok b := rfl
  have hn (n : U32) : Json.decodeU32 (jsonU32 n) = .ok n := Json.decodeU32_eq_ok.mpr rfl
  cases event with
  | turn who text n =>
    simp +decide [decodeComms, decodeTurn, CommsEvent.eventName, commsMembers, Json.openMembers,
      Json.recordMembers, Json.visit, Json.Field.of, ensure, Json.required, Json.lookup, hs, hn,
      -Nat.reducePow, Except.map, bind, Except.bind, pure, Except.pure]
  | status s =>
    obtain ⟨id, peer, topic, turn, maxTurns, phase, error, archived⟩ := s
    cases topic <;> cases error <;>
      simp +decide [decodeComms, decodeCommsStatus, CommsEvent.eventName, commsMembers, someField,
        Json.openMembers, Json.recordMembers, Json.visit, Json.Field.of, ensure, Json.required, Json.optional,
        defaulted, Json.lookup, Json.decodeOption, hs, hb, hn, -Nat.reducePow, Except.map, bind, Except.bind,
        pure, Except.pure]
  | done archived =>
    simp +decide [decodeComms, decodeCommsDone, CommsEvent.eventName, commsMembers, Json.openMembers,
      Json.recordMembers, Json.visit, Json.Field.of, ensure, defaulted, Json.lookup, hb, Except.map, bind,
      Except.bind, pure, Except.pure]
  | error message archived =>
    simp +decide [decodeComms, decodeCommsError, CommsEvent.eventName, commsMembers, Json.openMembers,
      Json.recordMembers, Json.visit, Json.Field.of, ensure, Json.required, defaulted, Json.lookup, hs, hb,
      Except.map, bind, Except.bind, pure, Except.pure]

/-- The data of an event is the text of its object. -/
theorem CommsEvent.written (inRange : Bytes → Bool) {event : CommsEvent} (h : event.Texts) :
    ∃ ms text, Json.Flat ms ∧ Json.FlatText inRange ms text ∧ event.toSseParts = (event.eventName, text) ∧
      decodeComms event.eventName (.obj ms) = .ok event := by
  have hflat := comms_flat h
  obtain ⟨text, htext⟩ := hflat.text inRange
  refine ⟨_, text, hflat, htext, ?_, decodeComms_members event⟩
  rw [toSseParts, comms_ofFields, htext.print]
  rfl

end PulseNull.Wire
