import PulseNull.Oneself.Event
import PulseNull.Text.Lines
import PulseNull.Json.RoundTrip

/-! A receipt file is one JSON object per line, each hashed into the next. A torn
line is not a row; the next row must be a `recover` that names those bytes. -/
namespace PulseNull.Oneself
open Text (ascii)
open Json (Decoder DecodeError)

/-- SHA-256, and which float texts the JSON reader has in range. -/
structure Env where
  sha256 : Bytes → { digest : Bytes // digest.length = 32 }
  floatInRange : Bytes → Bool

def maxLineBytes : Nat := 64 * 1024

/-- `prev` of the first row. -/
def genesisPrev : Bytes := List.replicate 64 48

/-- One receipt row. `e` is the event object. -/
structure Row where
  v : Fin (2^32)
  seq : U64
  prev : Bytes
  ts : Bytes
  e : Json

theorem Row.v_lt (row : Row) : row.v.val < 2^64 := u32_lt_u64 row.v

def Row.toValue (row : Row) : Json :=
  Json.ofFields (field "v" (.num (.pos ⟨row.v.val, row.v_lt⟩)) ++ field "seq" (u64 row.seq) ++
    field "prev" (.str row.prev) ++ field "ts" (.str row.ts) ++ field "e" row.e)

def decodeValue : Decoder Json := fun v => .ok v.normalize

def Row.ofValue : Decoder Row := fun v => do
  let ms ← Json.recordMembers
    [.of (ascii "v") Json.decodeU32, .of (ascii "seq") Json.decodeU64,
     .of (ascii "prev") Json.decodeStr, .of (ascii "ts") Json.decodeStr,
     .of (ascii "e") decodeValue] v
  return {
    v := ← Json.required Json.decodeU32 (ascii "v") ms
    seq := ← Json.required Json.decodeU64 (ascii "seq") ms
    prev := ← Json.required Json.decodeStr (ascii "prev") ms
    ts := ← Json.required Json.decodeStr (ascii "ts") ms
    e := ← Json.required decodeValue (ascii "e") ms }

/-- Why a line is not the next row, or why a file is broken at a line. -/
inductive Reason where
  | oversize | seq | tornLine | recover | empty | notARow | sig | float | unknownField
  | badVersion | prev | ts | genesis | sha256 | notCanonical
  deriving DecidableEq, Repr

def Reason.text : Reason → String
  | .oversize => "oversize"
  | .seq => "seq"
  | .tornLine => "torn line"
  | .recover => "recover"
  | .empty => "empty"
  | .notARow => "not a row"
  | .sig => "sig"
  | .float => "float"
  | .unknownField => "unknown field"
  | .badVersion => "bad version"
  | .prev => "prev"
  | .ts => "ts"
  | .genesis => "genesis"
  | .sha256 => "sha256"
  | .notCanonical => "not canonical"

inductive ChainError where
  | float
  deriving DecidableEq

structure VerifyNote where
  line : Nat
  reason : Reason
  deriving DecidableEq, Repr

structure VerifyReport where
  rows : Nat
  seq : Option U64
  head : Bytes
  warns : List VerifyNote
  firstBreak : Option VerifyNote
  deriving DecidableEq, Repr

inductive VerifyState where
  | ok | warn | broken
  deriving DecidableEq, Repr

def VerifyReport.state (r : VerifyReport) : VerifyState :=
  if r.firstBreak.isSome then .broken else if r.warns = [] then .ok else .warn

def VerifyReport.empty : VerifyReport :=
  { rows := 0, seq := none, head := genesisPrev, warns := [], firstBreak := none }

/-! Canonical JSON: keys sorted at every level, no whitespace, integers only. -/

def sortMembers (ps : List (Bytes × Bytes)) : List (Bytes × Bytes) :=
  ps.insertionSort fun a b => a.1 ≤ b.1

mutual
def canonical : Json → Except ChainError Bytes
  | .obj members => do return Json.brace (sortMembers (← canonicalMembers members))
  | .arr items => do return Json.bracket (← canonicalItems items)
  | .num n => (Json.printNum n).elim (.error .float) .ok
  | .null => .ok (ascii "null")
  | .bool true => .ok (ascii "true")
  | .bool false => .ok (ascii "false")
  | .str s => .ok (Json.quote s)
def canonicalItems : List Json → Except ChainError (List Bytes)
  | [] => .ok []
  | v :: vs => do return (← canonical v) :: (← canonicalItems vs)
def canonicalMembers : List (Bytes × Json) → Except ChainError (List (Bytes × Bytes))
  | [] => .ok []
  | (k, v) :: ms => do return (k, ← canonical v) :: (← canonicalMembers ms)
end

def Env.sha256Hex (env : Env) (bytes : Bytes) : Bytes := Text.hex (env.sha256 bytes).val

/-- Hex SHA-256 of the canonical row. -/
def Env.rowHash (env : Env) (row : Row) : Except ChainError Bytes := do
  return env.sha256Hex (← canonical row.toValue)

/-! Lines. -/

structure Phys where
  number : Nat
  offset : Nat
  bytes : Bytes
  hasNewline : Bool

def physFrom : Nat → Nat → List Text.Line → List Phys
  | _, _, [] => []
  | number, offset, l :: ls =>
    ⟨number, offset, l.bytes, l.terminated⟩ :: physFrom (number + 1) (offset + l.text.length) ls

def splitLines (buf : Bytes) : List Phys := physFrom 1 0 (Text.lines buf)

/-- UTF-8 that is one JSON value. -/
def Env.fromStr (env : Env) (bytes : Bytes) : Option Json :=
  if Text.utf8Valid bytes then (Json.parse env.floatInRange bytes).map Json.normalize else none

def Env.validJsonValue (env : Env) (bytes : Bytes) : Bool := (env.fromStr bytes).isSome

/-- Not a JSON value, or the final line of a file that has no trailing newline. -/
def Env.tornPayload (env : Env) (line : Phys) : Bool :=
  !line.hasNewline || !env.validJsonValue line.bytes

/-! Checks of one row. -/

def contains (part text : Bytes) : Bool := text.tails.any part.isPrefixOf

def schemaReason : DecodeError → Reason
  | .unknown => .unknownField
  | .quoted s =>
    if contains (ascii "unknown field") s || contains (ascii "unknown variant") s then .unknownField
    else .notARow
  | .other => .notARow

mutual
def hasSig : Json → Bool
  | .obj members => members.any (fun m => m.1 = ascii "sig") || hasSigMembers members
  | .arr items => hasSigItems items
  | .null | .bool _ | .num _ | .str _ => false
def hasSigItems : List Json → Bool
  | [] => false
  | v :: vs => hasSig v || hasSigItems vs
def hasSigMembers : List (Bytes × Json) → Bool
  | [] => false
  | (_, v) :: ms => hasSig v || hasSigMembers ms
end

def isObject : Json → Bool
  | .obj _ => true
  | _ => false

/-- 64 lowercase hex digits. -/
def digestOk (value : Bytes) : Bool := value.length = 64 && value.all Text.isLowerHex

def optDigest (value : Option Bytes) : Bool := value.all digestOk

def digestsOk : ReceiptEvent → Bool
  | .boot b => optDigest b.identity.selfMd && optDigest b.identity.rules && optDigest b.identity.config
  | .opened o => optDigest o.principalSha256
  | .close c => optDigest c.inputSha256 && optDigest c.outputSha256
  | .recover _ _ sha => digestOk sha
  | .genesis _ | .shutdown _ | .gap .. => true

def isLeapYear (y : Nat) : Bool := y % 4 = 0 && (y % 100 ≠ 0 || y % 400 = 0)

def daysInMonth (y m : Nat) : Nat :=
  if m = 2 then if isLeapYear y then 29 else 28
  else if m = 4 || m = 6 || m = 9 || m = 11 then 30 else 31

/-- The instant exists. A second may be a leap second. -/
def realInstant (ts : Bytes) : Bool :=
  let number (i n : Nat) := Text.digitsValue ((ts.drop i).take n)
  let month := number 5 2
  1 ≤ month && month ≤ 12 && 1 ≤ number 8 2 && number 8 2 ≤ daysInMonth (number 0 4) month &&
    number 11 2 ≤ 23 && number 14 2 ≤ 59 && number 17 2 ≤ 60

/-- `YYYY-MM-DDTHH:MM:SS.mmmZ`, and a real instant. -/
def tsOk (ts : Bytes) : Bool :=
  ts.length = 24 &&
    ([(4, 45), (7, 45), (10, 84), (13, 58), (16, 58), (19, 46), (23, 90)] : List (Nat × UInt8)).all
      (fun m => ts[m.1]? = some m.2) &&
    [0, 1, 2, 3, 5, 6, 8, 9, 11, 12, 14, 15, 17, 18, 20, 21, 22].all
      (fun i => (ts[i]?).any Text.isDigit) &&
    realInstant ts

/-- The clock of a gap: two timestamps in order. -/
def gapOk : ReceiptEvent → Bool
  | .gap _ first last => tsOk first && tsOk last && first ≤ last
  | _ => true

structure Accepted where
  seq : U64
  hash : Bytes
  ts : Bytes
  event : ReceiptEvent

/-- The stored bytes are the canonical form of their value. -/
def storedLineIsCanonical (value : Json) (text : Bytes) : Except Reason Unit :=
  match canonical value with
  | .ok canon => ensure (canon = text) .notCanonical
  | .error .float => .error .float

def Env.checkRow (env : Env) (bytes : Bytes) (expectedSeq : U64) (expectedPrev : Bytes) :
    Except Reason Accepted := do
  let value ← (env.fromStr bytes).elim (.error .notARow) .ok
  ensure (isObject value) .notARow
  ensure (hasSig value = false) .sig
  ensure (value.hasFloat = false) .float
  let row ← (Row.ofValue value).mapError schemaReason
  ensure (row.v = 1) .badVersion
  ensure (row.seq = expectedSeq) .seq
  ensure (row.prev = expectedPrev ∧ digestOk row.prev) .prev
  ensure (tsOk row.ts) .ts
  let event ← (ReceiptEvent.ofValue row.e).mapError schemaReason
  ensure (event.isGenesis ↔ row.seq = 0) .genesis
  ensure (gapOk event) .ts
  ensure (digestsOk event) .sha256
  storedLineIsCanonical value bytes
  let hash ← (env.rowHash row).mapError fun | .float => .float
  return ⟨row.seq, hash, row.ts, event⟩

/-- Whether `bytes` is the next canonical row. -/
def Env.acceptsLine (env : Env) (bytes : Bytes) (seq : U64) (prev : Bytes) : Bool :=
  match env.checkRow bytes seq prev with
  | .ok _ => true
  | .error _ => false

/-- The row after a torn line, when it names exactly those bytes. -/
def Env.matchingRecover (env : Env) (next torn : Phys) (expectedSeq : U64) (expectedPrev : Bytes) :
    Option Accepted :=
  if !next.hasNewline || maxLineBytes < next.bytes.length then none
  else match env.checkRow next.bytes expectedSeq expectedPrev with
    | .error _ => none
    | .ok accepted =>
      match accepted.event with
      | .recover offset len sha =>
        if offset.val = torn.offset ∧ len.val = torn.bytes.length ∧ sha = env.sha256Hex torn.bytes
        then some accepted else none
      | _ => none

/-! The walk over a file. -/

structure IndexedRow where
  seq : U64
  hash : Bytes
  ts : Bytes
  deriving DecidableEq, Repr

/-- The chain check plus the accepted rows an anchor compares. -/
structure ChainIndex where
  report : VerifyReport
  pulse : Option Bytes
  genesisHash : Option Bytes
  rows : List IndexedRow

structure Walk where
  index : ChainIndex
  expectedSeq : Option U64
  expectedPrev : Bytes

def Walk.start : Walk := ⟨⟨.empty, none, none, []⟩, some 0, genesisPrev⟩

def Walk.breakAt (w : Walk) (line : Nat) (reason : Reason) : ChainIndex :=
  { w.index with report := { w.index.report with firstBreak := some ⟨line, reason⟩ } }

def Walk.warn (w : Walk) (line : Nat) (reason : Reason) : Walk :=
  { w with index.report.warns := w.index.report.warns ++ [⟨line, reason⟩] }

def ChainIndex.keepRow (index : ChainIndex) (a : Accepted) : ChainIndex :=
  let index := match a.event with
    | .genesis pulse => { index with pulse := some pulse, genesisHash := some a.hash }
    | _ => index
  { index with rows := index.rows ++ [⟨a.seq, a.hash, a.ts⟩] }

def Walk.accept (keep : Bool) (w : Walk) (a : Accepted) : Walk :=
  let index := if keep then w.index.keepRow a else w.index
  { index := { index with report := { index.report with
      rows := index.report.rows + 1, seq := some a.seq, head := a.hash } }
    expectedSeq := a.seq.checkedAdd 1
    expectedPrev := a.hash }

/-- What a line is, given the line after it. -/
inductive Verdict where
  | broken (reason : Reason)
  | row (accepted : Accepted)
  | recovered (accepted : Accepted)

def Env.verdict (env : Env) (w : Walk) (line : Phys) (next : Option Phys) : Verdict :=
  if maxLineBytes < line.bytes.length then .broken .oversize
  else match w.expectedSeq with
    | none => .broken .seq
    | some seq =>
      if env.tornPayload line then
        match next.bind fun n => env.matchingRecover n line seq w.expectedPrev with
        | some accepted => .recovered accepted
        | none => .broken .tornLine
      else match env.checkRow line.bytes seq w.expectedPrev with
        | .ok accepted => if accepted.event.isRecover then .broken .recover else .row accepted
        | .error reason => .broken reason

/-- The rows of `lines`. A recovered pair is two lines. -/
def Env.walkLines (env : Env) (keep : Bool) : Walk → List Phys → ChainIndex
  | w, [] => w.index
  | w, [line] =>
    match env.verdict w line none with
    | .broken reason => w.breakAt line.number reason
    | .row a | .recovered a => (w.accept keep a).index
  | w, line :: next :: rest =>
    match env.verdict w line (some next) with
    | .broken reason => w.breakAt line.number reason
    | .row a => env.walkLines keep (w.accept keep a) (next :: rest)
    | .recovered a => env.walkLines keep ((w.warn line.number .tornLine).accept keep a) rest

def Env.walk (env : Env) (buf : Bytes) (keep : Bool) : ChainIndex :=
  if splitLines buf = [] then (Walk.start.warn 1 .empty).index
  else env.walkLines keep .start (splitLines buf)

def Env.verifyLines (env : Env) (buf : Bytes) : VerifyReport := (env.walk buf false).report

def Env.indexBytes (env : Env) (buf : Bytes) : ChainIndex := env.walk buf true

end PulseNull.Oneself
