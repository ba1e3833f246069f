import PulseNull.Coordinator.Lease
import PulseNull.Json.RoundTrip
import PulseNull.Json.Size

/-! Lines of the lease log: a version and an event as compact JSON. -/
namespace PulseNull.Coordinator
open Text (ascii)
open Json (Decoder)
open Time (DateTime Duration)

/-- The text of an instant: short, ASCII, and read back as the same instant. -/
structure Chrono where
  fmt : DateTime → Bytes
  parse : Bytes → Option DateTime
  parse_fmt : ∀ t, parse (fmt t) = some t
  fmt_ascii : ∀ t, ∀ c ∈ fmt t, c < 128
  fmt_short : ∀ t, (fmt t).length ≤ 64

def walVersion : Fin (2^32) := 1

variable (chrono : Chrono)

/-! To a value. -/

def u64 (n : U64) : Json := .num (.pos n)

def u32 (n : Fin (2^32)) : Json := .num (.pos ⟨n.val, u32_lt_u64 n⟩)

def Duration.toValue (d : Duration) : Json :=
  .obj [(ascii "secs", u64 d.secs), (ascii "nanos", u32 ⟨d.subsec.val, by omega⟩)]

def DateTime.toValue (t : DateTime) : Json := .str (chrono.fmt t)

def Lease.toValue (l : Lease) : Json :=
  .obj [(ascii "resource_id", .str l.resourceId), (ascii "holder_id", .str l.holderId),
    (ascii "fencing_token", u64 l.fencingToken), (ascii "granted_at", DateTime.toValue chrono l.grantedAt),
    (ascii "ttl", Duration.toValue l.ttl)]

def LeaseEvent.toValue : LeaseEvent → Json
  | .acquired ts lease =>
    .obj [(ascii "event", .str (ascii "acquired")), (ascii "ts", DateTime.toValue chrono ts),
      (ascii "lease", lease.toValue chrono)]
  | .reclaimed ts lease =>
    .obj [(ascii "event", .str (ascii "reclaimed")), (ascii "ts", DateTime.toValue chrono ts),
      (ascii "lease", lease.toValue chrono)]
  | .renewed ts lease =>
    .obj [(ascii "event", .str (ascii "renewed")), (ascii "ts", DateTime.toValue chrono ts),
      (ascii "lease", lease.toValue chrono)]
  | .released ts resourceId holderId =>
    .obj [(ascii "event", .str (ascii "released")), (ascii "ts", DateTime.toValue chrono ts),
      (ascii "resource_id", .str resourceId), (ascii "holder_id", .str holderId)]

def WalLineRef.toValue (event : LeaseEvent) : Json :=
  .obj [(ascii "v", u32 walVersion), (ascii "e", event.toValue chrono)]

/-! From a value. -/

/-- Nanoseconds past a second carry into the seconds, which must hold them. -/
def Duration.ofParts (secs : U64) (nanos : Fin (2^32)) : Except Json.DecodeError Duration :=
  match secs.checkedAdd (nanos.val / 1000000000) with
  | some secs => .ok ⟨secs, ⟨nanos.val % 1000000000, Nat.mod_lt _ (by decide)⟩⟩
  | none => .error .other

def Duration.ofValue : Decoder Duration := fun v => do
  let ms ← Json.recordMembers
    [.of (ascii "secs") Json.decodeU64, .of (ascii "nanos") Json.decodeU32] v
  Duration.ofParts (← Json.required Json.decodeU64 (ascii "secs") ms)
    (← Json.required Json.decodeU32 (ascii "nanos") ms)

def DateTime.ofValue : Decoder DateTime := fun v => do
  let text ← Json.decodeStr v
  (chrono.parse text).elim (.error .other) .ok

def Lease.ofValue : Decoder Lease := fun v => do
  let ms ← Json.recordMembers
    [.of (ascii "resource_id") Json.decodeStr, .of (ascii "holder_id") Json.decodeStr,
     .of (ascii "fencing_token") Json.decodeU64, .of (ascii "granted_at") (DateTime.ofValue chrono),
     .of (ascii "ttl") Duration.ofValue] v
  return {
    resourceId := ← Json.required Json.decodeStr (ascii "resource_id") ms
    holderId := ← Json.required Json.decodeStr (ascii "holder_id") ms
    fencingToken := ← Json.required Json.decodeU64 (ascii "fencing_token") ms
    grantedAt := ← Json.required (DateTime.ofValue chrono) (ascii "granted_at") ms
    ttl := ← Json.required Duration.ofValue (ascii "ttl") ms }

def grantOfValue (event : DateTime → Lease → LeaseEvent) : Decoder LeaseEvent := fun v => do
  let ms ← Json.openMembers
    [.of (ascii "ts") (DateTime.ofValue chrono), .of (ascii "lease") (Lease.ofValue chrono)] v
  return event (← Json.required (DateTime.ofValue chrono) (ascii "ts") ms)
    (← Json.required (Lease.ofValue chrono) (ascii "lease") ms)

def releasedOfValue : Decoder LeaseEvent := fun v => do
  let ms ← Json.openMembers
    [.of (ascii "ts") (DateTime.ofValue chrono), .of (ascii "resource_id") Json.decodeStr,
     .of (ascii "holder_id") Json.decodeStr] v
  return .released (← Json.required (DateTime.ofValue chrono) (ascii "ts") ms)
    (← Json.required Json.decodeStr (ascii "resource_id") ms)
    (← Json.required Json.decodeStr (ascii "holder_id") ms)

def LeaseEvent.ofValue : Decoder LeaseEvent := fun v => do
  Json.tagOnce (ascii "event") v
  let (event, content) ← Json.splitTag (ascii "event") v
  if event = ascii "acquired" then grantOfValue chrono .acquired content
  else if event = ascii "reclaimed" then grantOfValue chrono .reclaimed content
  else if event = ascii "renewed" then grantOfValue chrono .renewed content
  else if event = ascii "released" then releasedOfValue chrono content
  else .error .unknown

structure WalLine where
  v : Fin (2^32)
  e : LeaseEvent
  deriving DecidableEq

def WalLine.ofValue : Decoder WalLine := fun v => do
  let ms ← Json.recordMembers
    [.of (ascii "v") Json.decodeU32, .of (ascii "e") (LeaseEvent.ofValue chrono)] v
  return {
    v := ← Json.required Json.decodeU32 (ascii "v") ms
    e := ← Json.required (LeaseEvent.ofValue chrono) (ascii "e") ms }

/-! The text. -/

/-- An event's line, without its newline. -/
def walLine (event : LeaseEvent) : Option Bytes := Json.print (WalLineRef.toValue chrono event)

/-- A line that is UTF-8 and one JSON document of a versioned event. -/
def parseWalLine (inRange : Bytes → Bool) (bytes : Bytes) : Option WalLine :=
  if Text.utf8Valid bytes then
    (Json.parse inRange bytes).bind fun v => (WalLine.ofValue chrono v).toOption
  else none

end PulseNull.Coordinator
