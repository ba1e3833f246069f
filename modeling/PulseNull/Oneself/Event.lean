import PulseNull.Json.Decode
import PulseNull.Word

/-! Receipt events carried in a row's `e` object. `kind` is the tag. -/
namespace PulseNull.Oneself
open Text (ascii)
open Json (Decoder DecodeError Field)

/-- SHA-256 digests of identity files. -/
structure Identity where
  selfMd : Option Bytes
  rules : Option Bytes
  config : Option Bytes

inductive FdSource where
  | systemd | selfOpened
  deriving DecidableEq

inductive Outcome where
  | acted | silent | error | aborted | lost | isolated | refused
  deriving DecidableEq

inductive ActionClass where
  | reply | none
  deriving DecidableEq

structure Boot where
  pulse : Bytes
  version : Bytes
  provider : Bytes
  adapter : Bytes
  model : Bytes
  fallbackModel : Option Bytes
  identity : Identity
  fdSource : FdSource
  protectedFile : Bool
  appendOnly : Bool

structure Open where
  stream : Bytes
  channel : Bytes
  principal : Bytes
  principalSha256 : Option Bytes
  taskId : Option Bytes
  parent : Option Bytes

/-- A finished stream. The three reserved members are always null. -/
structure Close where
  stream : Bytes
  outcome : Outcome
  actionClass : ActionClass
  provider : Bytes
  adapter : Bytes
  model : Option Bytes
  fallback : Bool
  inputSha256 : Option Bytes
  outputSha256 : Option Bytes
  tokensIn : Option U64
  tokensOut : Option U64
  durationMs : U64

/-- What a stream did, or a chain note. -/
inductive ReceiptEvent where
  | genesis (pulse : Bytes)
  | boot (b : Boot)
  | opened (o : Open)
  | close (c : Close)
  | shutdown (reason : Bytes)
  | recover (tornOffset tornLen : U64) (tornSha256 : Bytes)
  | gap (dropped : U64) (firstAt lastAt : Bytes)

def ReceiptEvent.isGenesis : ReceiptEvent → Bool
  | .genesis _ => true
  | _ => false

def ReceiptEvent.isRecover : ReceiptEvent → Bool
  | .recover .. => true
  | _ => false

def ReceiptEvent.isGap : ReceiptEvent → Bool
  | .gap .. => true
  | _ => false

/-! Names. -/

def FdSource.name : FdSource → Bytes
  | .systemd => ascii "systemd"
  | .selfOpened => ascii "self"

def Outcome.name : Outcome → Bytes
  | .acted => ascii "acted"
  | .silent => ascii "silent"
  | .error => ascii "error"
  | .aborted => ascii "aborted"
  | .lost => ascii "lost"
  | .isolated => ascii "isolated"
  | .refused => ascii "refused"

def ActionClass.name : ActionClass → Bytes
  | .reply => ascii "reply"
  | .none => ascii "none"

def FdSource.ofName (s : Bytes) : Option FdSource :=
  [FdSource.systemd, .selfOpened].find? fun x => x.name = s

def Outcome.ofName (s : Bytes) : Option Outcome :=
  [Outcome.acted, .silent, .error, .aborted, .lost, .isolated, .refused].find? fun x => x.name = s

def ActionClass.ofName (s : Bytes) : Option ActionClass :=
  [ActionClass.reply, .none].find? fun x => x.name = s

/-! Principals. -/

def isNameByte (c : UInt8) : Bool :=
  Text.isDigit c || (65 ≤ c && c ≤ 90) || (97 ≤ c && c ≤ 122) || c = 45 || c = 95

/-- `value` is `prefix_` and a nonempty plain name. -/
def named (value start : Bytes) : Bool :=
  start.isPrefixOf value && value.length ≠ start.length &&
    (value.drop start.length).all isNameByte

def isPrincipal (value : Bytes) : Bool :=
  value ∈ ["owner", "guest", "task", "intent", "farm", "comms"].map ascii ||
    named value (ascii "peer:") || named value (ascii "plugin:")

def dePrincipal : Decoder Bytes := fun v => do
  let value ← Json.decodeStr v
  if isPrincipal value then return value else .error .other

/-! To a map value. An absent option is not a member. -/

def optField {α : Type} (k : String) (f : α → Json) : Option α → List (Bytes × Json)
  | none => []
  | some a => [(ascii k, f a)]

def field (k : String) (v : Json) : List (Bytes × Json) := [(ascii k, v)]

def u64 (n : U64) : Json := .num (.pos n)

def Identity.toValue (i : Identity) : Json :=
  Json.ofFields (optField "self_md" .str i.selfMd ++ optField "rules" .str i.rules ++
    optField "config" .str i.config)

def ReceiptEvent.toValue : ReceiptEvent → Json
  | .genesis pulse =>
    Json.ofFields (field "kind" (.str (ascii "genesis")) ++ field "pulse" (.str pulse))
  | .boot b =>
    Json.ofFields (field "kind" (.str (ascii "boot")) ++ field "pulse" (.str b.pulse) ++
      field "version" (.str b.version) ++ field "provider" (.str b.provider) ++
      field "adapter" (.str b.adapter) ++ field "model" (.str b.model) ++
      optField "fallback_model" .str b.fallbackModel ++ field "identity" b.identity.toValue ++
      field "fd_source" (.str b.fdSource.name) ++ field "protected" (.bool b.protectedFile) ++
      field "append_only" (.bool b.appendOnly))
  | .opened o =>
    Json.ofFields (field "kind" (.str (ascii "open")) ++ field "stream" (.str o.stream) ++
      field "channel" (.str o.channel) ++ field "principal" (.str o.principal) ++
      optField "principal_sha256" .str o.principalSha256 ++ optField "task_id" .str o.taskId ++
      optField "parent" .str o.parent)
  | .close c =>
    Json.ofFields (field "kind" (.str (ascii "close")) ++ field "stream" (.str c.stream) ++
      field "outcome" (.str c.outcome.name) ++ field "action_class" (.str c.actionClass.name) ++
      field "provider" (.str c.provider) ++ field "adapter" (.str c.adapter) ++
      optField "model" .str c.model ++ field "fallback" (.bool c.fallback) ++
      optField "input_sha256" .str c.inputSha256 ++ optField "output_sha256" .str c.outputSha256 ++
      optField "tokens_in" u64 c.tokensIn ++ optField "tokens_out" u64 c.tokensOut ++
      field "duration_ms" (u64 c.durationMs) ++ field "mailbox_head" .null ++
      field "folded" .null ++ field "fence" .null)
  | .shutdown reason =>
    Json.ofFields (field "kind" (.str (ascii "shutdown")) ++ field "reason" (.str reason))
  | .recover offset len sha =>
    Json.ofFields (field "kind" (.str (ascii "recover")) ++ field "torn_offset" (u64 offset) ++
      field "torn_len" (u64 len) ++ field "torn_sha256" (.str sha))
  | .gap dropped first last =>
    Json.ofFields (field "kind" (.str (ascii "gap")) ++ field "dropped" (u64 dropped) ++
      field "first_at" (.str first) ++ field "last_at" (.str last))

/-! From a map value. -/

def Identity.ofValue : Decoder Identity := fun v => do
  let ms ← Json.recordMembers
    [.of (ascii "self_md") (Json.decodeOption Json.decodeStr),
     .of (ascii "rules") (Json.decodeOption Json.decodeStr),
     .of (ascii "config") (Json.decodeOption Json.decodeStr)] v
  return {
    selfMd := ← Json.optional Json.decodeStr (ascii "self_md") ms
    rules := ← Json.optional Json.decodeStr (ascii "rules") ms
    config := ← Json.optional Json.decodeStr (ascii "config") ms }

def genesisOfValue : Decoder ReceiptEvent := fun v => do
  let ms ← Json.recordMembers [.of (ascii "pulse") Json.decodeStr] v
  return .genesis (← Json.required Json.decodeStr (ascii "pulse") ms)

def Boot.ofValue : Decoder Boot := fun v => do
  let ms ← Json.recordMembers
    [.of (ascii "pulse") Json.decodeStr, .of (ascii "version") Json.decodeStr,
     .of (ascii "provider") Json.decodeStr, .of (ascii "adapter") Json.decodeStr,
     .of (ascii "model") Json.decodeStr,
     .of (ascii "fallback_model") (Json.decodeOption Json.decodeStr),
     .of (ascii "identity") Identity.ofValue,
     .of (ascii "fd_source") (Json.decodeName FdSource.ofName),
     .of (ascii "protected") Json.decodeBool, .of (ascii "append_only") Json.decodeBool] v
  return {
    pulse := ← Json.required Json.decodeStr (ascii "pulse") ms
    version := ← Json.required Json.decodeStr (ascii "version") ms
    provider := ← Json.required Json.decodeStr (ascii "provider") ms
    adapter := ← Json.required Json.decodeStr (ascii "adapter") ms
    model := ← Json.required Json.decodeStr (ascii "model") ms
    fallbackModel := ← Json.optional Json.decodeStr (ascii "fallback_model") ms
    identity := ← Json.required Identity.ofValue (ascii "identity") ms
    fdSource := ← Json.required (Json.decodeName FdSource.ofName) (ascii "fd_source") ms
    protectedFile := ← Json.required Json.decodeBool (ascii "protected") ms
    appendOnly := ← Json.required Json.decodeBool (ascii "append_only") ms }

def Open.ofValue : Decoder Open := fun v => do
  let ms ← Json.recordMembers
    [.of (ascii "stream") Json.decodeStr, .of (ascii "channel") Json.decodeStr,
     .of (ascii "principal") dePrincipal,
     .of (ascii "principal_sha256") (Json.decodeOption Json.decodeStr),
     .of (ascii "task_id") (Json.decodeOption Json.decodeStr),
     .of (ascii "parent") (Json.decodeOption Json.decodeStr)] v
  return {
    stream := ← Json.required Json.decodeStr (ascii "stream") ms
    channel := ← Json.required Json.decodeStr (ascii "channel") ms
    principal := ← Json.required dePrincipal (ascii "principal") ms
    principalSha256 := ← Json.optional Json.decodeStr (ascii "principal_sha256") ms
    taskId := ← Json.optional Json.decodeStr (ascii "task_id") ms
    parent := ← Json.optional Json.decodeStr (ascii "parent") ms }

def Close.ofValue : Decoder Close := fun v => do
  let ms ← Json.recordMembers
    [.of (ascii "stream") Json.decodeStr,
     .of (ascii "outcome") (Json.decodeName Outcome.ofName),
     .of (ascii "action_class") (Json.decodeName ActionClass.ofName),
     .of (ascii "provider") Json.decodeStr, .of (ascii "adapter") Json.decodeStr,
     .of (ascii "model") (Json.decodeOption Json.decodeStr),
     .of (ascii "fallback") Json.decodeBool,
     .of (ascii "input_sha256") (Json.decodeOption Json.decodeStr),
     .of (ascii "output_sha256") (Json.decodeOption Json.decodeStr),
     .of (ascii "tokens_in") (Json.decodeOption Json.decodeU64),
     .of (ascii "tokens_out") (Json.decodeOption Json.decodeU64),
     .of (ascii "duration_ms") Json.decodeU64, .of (ascii "mailbox_head") Json.decodeNull,
     .of (ascii "folded") Json.decodeNull, .of (ascii "fence") Json.decodeNull] v
  let stream ← Json.required Json.decodeStr (ascii "stream") ms
  let outcome ← Json.required (Json.decodeName Outcome.ofName) (ascii "outcome") ms
  let actionClass ← Json.required (Json.decodeName ActionClass.ofName) (ascii "action_class") ms
  let provider ← Json.required Json.decodeStr (ascii "provider") ms
  let adapter ← Json.required Json.decodeStr (ascii "adapter") ms
  let model ← Json.optional Json.decodeStr (ascii "model") ms
  let fallback ← Json.required Json.decodeBool (ascii "fallback") ms
  let inputSha256 ← Json.optional Json.decodeStr (ascii "input_sha256") ms
  let outputSha256 ← Json.optional Json.decodeStr (ascii "output_sha256") ms
  let tokensIn ← Json.optional Json.decodeU64 (ascii "tokens_in") ms
  let tokensOut ← Json.optional Json.decodeU64 (ascii "tokens_out") ms
  let durationMs ← Json.required Json.decodeU64 (ascii "duration_ms") ms
  Json.required Json.decodeNull (ascii "mailbox_head") ms
  Json.required Json.decodeNull (ascii "folded") ms
  Json.required Json.decodeNull (ascii "fence") ms
  return ⟨stream, outcome, actionClass, provider, adapter, model, fallback, inputSha256,
    outputSha256, tokensIn, tokensOut, durationMs⟩

def shutdownOfValue : Decoder ReceiptEvent := fun v => do
  let ms ← Json.recordMembers [.of (ascii "reason") Json.decodeStr] v
  return .shutdown (← Json.required Json.decodeStr (ascii "reason") ms)

def recoverOfValue : Decoder ReceiptEvent := fun v => do
  let ms ← Json.recordMembers
    [.of (ascii "torn_offset") Json.decodeU64, .of (ascii "torn_len") Json.decodeU64,
     .of (ascii "torn_sha256") Json.decodeStr] v
  return .recover (← Json.required Json.decodeU64 (ascii "torn_offset") ms)
    (← Json.required Json.decodeU64 (ascii "torn_len") ms)
    (← Json.required Json.decodeStr (ascii "torn_sha256") ms)

def gapOfValue : Decoder ReceiptEvent := fun v => do
  let ms ← Json.recordMembers
    [.of (ascii "dropped") Json.decodeU64, .of (ascii "first_at") Json.decodeStr,
     .of (ascii "last_at") Json.decodeStr] v
  return .gap (← Json.required Json.decodeU64 (ascii "dropped") ms)
    (← Json.required Json.decodeStr (ascii "first_at") ms)
    (← Json.required Json.decodeStr (ascii "last_at") ms)

def ReceiptEvent.ofValue : Decoder ReceiptEvent := fun v => do
  let (kind, content) ← Json.splitTag (ascii "kind") v
  if kind = ascii "genesis" then genesisOfValue content
  else if kind = ascii "boot" then return .boot (← Boot.ofValue content)
  else if kind = ascii "open" then return .opened (← Open.ofValue content)
  else if kind = ascii "close" then return .close (← Close.ofValue content)
  else if kind = ascii "shutdown" then shutdownOfValue content
  else if kind = ascii "recover" then recoverOfValue content
  else if kind = ascii "gap" then gapOfValue content
  else .error .unknown

end PulseNull.Oneself
