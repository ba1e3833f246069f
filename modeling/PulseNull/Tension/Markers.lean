import PulseNull.Tension.Store
import PulseNull.Json.Decode
import PulseNull.Json.Parse

/-! The three marker grammars of cycle output, and what survives their sanitizers. -/
namespace PulseNull.Tension
open Text (ascii trim trimStart takeChars eqIgnoreAsciiCase)

def maxMarkerPayloadLen : Nat := 4096
def maxLabelLen : Nat := 120
def maxContentLen : Nat := 800
def maxIdLen : Nat := 64
def maxReasonLen : Nat := 300

/-! Captures. -/

/-- The rest of a payload up to the first brace that closes the marker, and what follows it. -/
def closeMarker : Bytes → Option (Bytes × Bytes)
  | [] => none
  | c :: rest =>
    match c, trimStart rest with
    | 125, 93 :: after => some ([c], after)
    | _, _ => (closeMarker rest).map fun p => (c :: p.1, p.2)

/-- A marker at the start of the text: its payload, and what follows it. -/
def markerAt (name text : Bytes) : Option (Bytes × Bytes) :=
  let opening := ascii "[" ++ name ++ ascii ":"
  if opening.isPrefixOf text then
    match trimStart (text.drop opening.length) with
    | 123 :: rest => (closeMarker rest).map fun p => (123 :: p.1, p.2)
    | _ => none
  else none

/-- All payloads, leftmost first and without overlap. -/
def capturesFrom (name : Bytes) : Nat → Bytes → List Bytes
  | 0, _ | _, [] => []
  | n + 1, c :: rest =>
    match markerAt name (c :: rest) with
    | some (payload, after) => payload :: capturesFrom name n after
    | none => capturesFrom name n rest

def captures (name text : Bytes) : List Bytes := capturesFrom name text.length text

/-! Sanitizers. -/

/-- Characters that could leave the block or forge a marker. -/
def isBreakout (c : UInt8) : Bool :=
  c = 91 || c = 93 || c = 60 || c = 62 || c = 96 || c = 10 || c = 13 || c = 0

def sanitizeField (s : Bytes) (maxLen : Nat) : Bytes :=
  trim (takeChars maxLen (s.filter fun c => !isBreakout c))

def isIdChar (c : UInt8) : Bool :=
  Text.isDigit c || (65 ≤ c && c ≤ 90) || (97 ≤ c && c ≤ 122) || c = 45 || c = 95

def sanitizeId (s : Bytes) : Bytes := (s.filter isIdChar).take maxIdLen

def truncateChars (s : Bytes) (maxLen : Nat) : Bytes := sanitizeField s maxLen

/-! Payloads. -/

/-- The thing outside the text that a claim points at. -/
structure EvidenceClaim where
  file : Option Bytes
  prediction : Option Bytes
  tool : Option Bytes
  deriving DecidableEq

def EvidenceClaim.isEmpty (claim : EvidenceClaim) : Bool :=
  claim.file.isNone && claim.prediction.isNone && claim.tool.isNone

structure ThreadMarker where
  label : Bytes
  content : Bytes
  origin : Option Bytes
  reference : Option Bytes

structure WorkMarker where
  id : Bytes
  claim : EvidenceClaim

structure ResolveMarker where
  id : Bytes
  resolution : Bytes
  reason : Option Bytes
  by_ : Option Bytes
  claim : EvidenceClaim

/-- The JSON reader of the three payloads. -/
structure PayloadReader where
  thread : Bytes → Option ThreadMarker
  work : Bytes → Option WorkMarker
  resolve : Bytes → Option ResolveMarker

section
open Json (Field Decoder decodeStr decodeOption required optional openMembers)

def optionalStr (name : String) : Field := .of (ascii name) (decodeOption decodeStr)

def claimFields : List Field := ["file", "prediction", "tool"].map optionalStr

def decodeClaim (ms : List (Bytes × Json)) : Except Json.DecodeError EvidenceClaim := do
  let file ← optional decodeStr (ascii "file") ms
  let prediction ← optional decodeStr (ascii "prediction") ms
  let tool ← optional decodeStr (ascii "tool") ms
  return ⟨file, prediction, tool⟩

def decodeThread : Decoder ThreadMarker := fun v => do
  let ms ← openMembers [.of (ascii "label") decodeStr, .of (ascii "content") decodeStr,
    optionalStr "origin", optionalStr "ref"] v
  let label ← required decodeStr (ascii "label") ms
  let content ← required decodeStr (ascii "content") ms
  let origin ← optional decodeStr (ascii "origin") ms
  let reference ← optional decodeStr (ascii "ref") ms
  return ⟨label, content, origin, reference⟩

/-- A record with flattened members is read from an object only. -/
def objectMembers (fields : List Field) : Decoder (List (Bytes × Json))
  | .obj ms => openMembers fields (.obj ms)
  | v => .error (Json.mismatch v)

def decodeWork : Decoder WorkMarker := fun v => do
  let ms ← objectMembers (.of (ascii "id") decodeStr :: claimFields) v
  let id ← required decodeStr (ascii "id") ms
  let claim ← decodeClaim ms
  return ⟨id, claim⟩

def decodeResolve : Decoder ResolveMarker := fun v => do
  let ms ← objectMembers ([.of (ascii "id") decodeStr, .of (ascii "resolution") decodeStr,
    optionalStr "reason", optionalStr "by"] ++ claimFields) v
  let id ← required decodeStr (ascii "id") ms
  let resolution ← required decodeStr (ascii "resolution") ms
  let reason ← optional decodeStr (ascii "reason") ms
  let by_ ← optional decodeStr (ascii "by") ms
  let claim ← decodeClaim ms
  return ⟨id, resolution, reason, by_, claim⟩

/-- The reader of `serde_json`, up to what it overlooks in members it ignores. -/
def PayloadReader.serde (inRange : Bytes → Bool) : PayloadReader where
  thread payload := (Json.parse inRange payload).bind fun v => (decodeThread v).toOption
  work payload := (Json.parse inRange payload).bind fun v => (decodeWork v).toOption
  resolve payload := (Json.parse inRange payload).bind fun v => (decodeResolve v).toOption

end

def parsePayload {α : Type} (read : Bytes → Option α) (payload : Bytes) : Option α :=
  if maxMarkerPayloadLen < payload.length then none else read payload

structure ParsedWork where
  id : Bytes
  claim : EvidenceClaim

inductive ResolutionKind where
  | answered | dissolved | superseded | abandoned
  deriving DecidableEq

structure ParsedResolution where
  id : Bytes
  kind : ResolutionKind
  reason : Option Bytes
  by_ : Option Bytes
  claim : EvidenceClaim

/-- A field that is trimmed, sanitized and dropped when nothing is left. -/
def optionalField (field : Option Bytes) (maxLen : Nat) : Option Bytes :=
  (field.map fun s => sanitizeField (trim s) maxLen).filter (· ≠ [])

/-- An origin the text may claim. Any other name is user-raised. -/
def claimedOrigin (origin : Option Bytes) (reference : Bytes) : ThreadOrigin :=
  match origin.map trim with
  | none => .userRaised reference
  | some o =>
    if eqIgnoreAsciiCase o (ascii "open_question") then .openQuestion reference
    else if eqIgnoreAsciiCase o (ascii "callback") then .callback reference
    else if eqIgnoreAsciiCase o (ascii "adverse") then .adverse reference
    else .userRaised reference

def threadDraft (marker : ThreadMarker) : Option ThreadDraft :=
  let label := sanitizeField (trim marker.label) maxLabelLen
  let content := sanitizeField (trim marker.content) maxContentLen
  if label = [] || content = [] then none
  else
    let reference := (optionalField marker.reference maxIdLen).getD label
    some ⟨label, content, claimedOrigin marker.origin reference⟩

def parseThreads (reader : PayloadReader) (text : Bytes) : List ThreadDraft :=
  (captures (ascii "THREAD") text).filterMap fun payload =>
    (parsePayload reader.thread payload).bind threadDraft

def parsedWork (marker : WorkMarker) : Option ParsedWork :=
  let id := sanitizeId (trim marker.id)
  if id = [] then none else some ⟨id, marker.claim⟩

def parseWorkClaims (reader : PayloadReader) (text : Bytes) : List ParsedWork :=
  (captures (ascii "THREAD-WORK") text).filterMap fun payload =>
    (parsePayload reader.work payload).bind parsedWork

def resolutionKind (resolution : Bytes) : Option ResolutionKind :=
  let k := trim resolution
  if eqIgnoreAsciiCase k (ascii "answered") then some .answered
  else if eqIgnoreAsciiCase k (ascii "dissolved") then some .dissolved
  else if eqIgnoreAsciiCase k (ascii "superseded") then some .superseded
  else if eqIgnoreAsciiCase k (ascii "abandoned") then some .abandoned
  else none

def parsedResolution (marker : ResolveMarker) : Option ParsedResolution :=
  let id := sanitizeId (trim marker.id)
  if id = [] then none
  else (resolutionKind marker.resolution).map fun kind =>
    ⟨id, kind, optionalField marker.reason maxReasonLen, optionalField marker.by_ maxIdLen,
      marker.claim⟩

def parseResolutions (reader : PayloadReader) (text : Bytes) : List ParsedResolution :=
  (captures (ascii "THREAD-RESOLVE") text).filterMap fun payload =>
    (parsePayload reader.resolve payload).bind parsedResolution

theorem optionalField_ne_nil {field : Option Bytes} {maxLen : Nat} {s : Bytes}
    (h : optionalField field maxLen = some s) : s ≠ [] := by
  rw [optionalField, Option.filter_eq_some_iff] at h
  simpa using h.2

end PulseNull.Tension
