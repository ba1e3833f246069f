import PulseNull.Session.Key
import PulseNull.Checked
import PulseNull.Text.Chars

/-! One admission for every turn entry point: who a request authenticated as, what is refused,
and the session key the turn runs as. -/
namespace PulseNull.Server
open Text (ascii blank contains eqIgnoreAsciiCase isAsciiControl)
open Session (SessionKey)

inductive StatusCode where
  | badRequest | unauthorized | forbidden | payloadTooLarge
  deriving DecidableEq, Repr

abbrev HttpError := StatusCode × Bytes

structure OwnerConfig where
  name : Option Bytes
  discordId : Option Bytes
  phone : Option Bytes

/-- What a peer must present, if it has a credential of its own. -/
structure PeerConfig where
  secret : Option Bytes

structure SecurityConfig where
  secret : Option Bytes
  voiceSecret : Option Bytes

structure Config where
  owner : OwnerConfig
  peers : List (Bytes × PeerConfig)
  security : SecurityConfig

def Config.peer (config : Config) (name : Bytes) : Option PeerConfig := config.peers.lookup name

structure ChatRequest where
  message : Bytes
  channel : Bytes
  sender : Option Bytes

/-! Who a request authenticated as. -/

inductive AuthIdentity where
  | owner
  | peer (name : Bytes)
  | plugin (name channel : Bytes)
  | voice
  deriving DecidableEq

/-- The voice-stream credential, when one is set and it is not the owner's. -/
def SecurityConfig.voiceCredential (s : SecurityConfig) : Option Bytes :=
  match s.voiceSecret with
  | none => none
  | some voice =>
    if blank voice then none
    else if s.secret.any (fun owner => !blank owner && owner = voice) then none
    else some voice

def identityForGlobalSecret (s : SecurityConfig) (presented : Option Bytes) :
    Except StatusCode AuthIdentity :=
  if s.voiceCredential.any (fun voice => presented = some voice) then .ok .voice
  else match s.secret with
    | some secret =>
      if blank secret then .ok .owner
      else if presented = some secret then .ok .owner
      else .error .unauthorized
    | none => .ok .owner

/-- The identity the middleware attaches, from `X-Peer-Name` and `X-Echo-Secret`. -/
def requireAuth (config : Config) (peerName presented : Option Bytes) :
    Except StatusCode AuthIdentity :=
  match peerName.bind fun name => (config.peer name).bind fun peer =>
      peer.secret.map fun secret => (name, secret) with
  | some (name, secret) => if presented = some secret then .ok (.peer name) else .error .unauthorized
  | none => identityForGlobalSecret config.security presented

/-! Senders. -/

/-- TUI, system and reflection are always the owner. -/
def isOwnerChannel (channel : Bytes) : Bool :=
  channel = ascii "tui" || channel = ascii "system" || channel = ascii "reflection"

/-- A known owner identity, on any channel. -/
def isOwnerIdentity (sender : Bytes) (owner : OwnerConfig) : Bool :=
  owner.discordId = some sender || owner.phone = some sender ||
    owner.name.any (eqIgnoreAsciiCase sender)

def resolveSender (config : Config) (channel : Bytes) (sender : Option Bytes) : SessionKey :=
  if isOwnerChannel channel then .owner
  else match sender with
    | none => .guest (ascii "anonymous")
    | some sender =>
      if isOwnerIdentity sender config.owner then .owner
      else if channel = ascii "comms" && (config.peer sender).isSome then .peer sender
      else .guest sender

/-! Channels. -/

def voiceChannel : Bytes := ascii "voice"

def isVoice (channel : Bytes) : Bool := eqIgnoreAsciiCase channel voiceChannel

/-- Channels no plugin may be bound to. -/
def reservedChannels : List Bytes :=
  ["tui", "system", "reflection", "comms", "chat", "tui-chat"].map ascii

def isReservedChannel (channel : Bytes) : Bool := reservedChannels.any (eqIgnoreAsciiCase · channel)

def maxMessageLen : Nat := 100000
def maxChannelLen : Nat := 64
def maxSenderLen : Nat := 64

inductive BindError where
  | invalidChannel (plugin channel : Bytes)
  | reservedChannel (plugin channel : Bytes)

/-- The identity of a plugin's turns on `channel`. -/
def forPlugin (name channel : Bytes) : Except BindError AuthIdentity :=
  if channel = [] || maxChannelLen < channel.length || contains (ascii "..") channel ||
      contains (ascii "/") channel then .error (.invalidChannel name channel)
  else if isReservedChannel channel then .error (.reservedChannel name channel)
  else .ok (.plugin name channel)

/-! Refusals. -/

def tooLong (what : String) (len max : Nat) : Bytes :=
  ascii what ++ Text.decimal len ++ ascii " bytes (max " ++ Text.decimal max ++ ascii ")"

def validateRequest (req : ChatRequest) : Except HttpError Unit :=
  if maxMessageLen < req.message.length then
    .error (.payloadTooLarge, tooLong "Message too large: " req.message.length maxMessageLen)
  else if maxChannelLen < req.channel.length then
    .error (.badRequest, tooLong "Channel name too long: " req.channel.length maxChannelLen)
  else if contains (ascii "..") req.channel || contains (ascii "/") req.channel then
    .error (.badRequest, ascii "Channel name contains invalid characters")
  else match req.sender with
    | none => .ok ()
    | some sender =>
      if maxSenderLen < sender.length then
        .error (.badRequest, tooLong "Sender name too long: " sender.length maxSenderLen)
      else if sender.any isAsciiControl then
        .error (.badRequest, ascii "Sender name contains invalid characters")
      else .ok ()

def refusePeerOnOwnerChannel (who : AuthIdentity) (channel : Bytes) : Except HttpError Unit :=
  match who with
  | .peer _ =>
    if isOwnerChannel channel then
      .error (.forbidden, ascii "this channel is reserved for the owner")
    else .ok ()
  | _ => .ok ()

def refuseVoiceOffChannel (who : AuthIdentity) (channel : Bytes) : Except HttpError Unit :=
  if who = .voice && !isVoice channel then
    .error (.forbidden, ascii "a voice credential may only speak on the voice channel")
  else .ok ()

def refuseVoiceWithoutSender (who : AuthIdentity) (sender : Option Bytes) : Except HttpError Unit :=
  if who = .voice && blank (sender.getD []) then
    .error (.badRequest, ascii "a voice turn needs a sender")
  else .ok ()

/-- The session key for a plugin's turn. -/
def resolvePluginKey (config : Config) (boundChannel : Bytes) (req : ChatRequest) :
    Except HttpError SessionKey :=
  if req.channel ≠ boundChannel || isReservedChannel req.channel then
    .error (.forbidden, ascii "a plugin may only speak on its own channel")
  else if isVoice req.channel then .ok (.guest (req.sender.getD (ascii "anonymous")))
  else .ok (resolveSender config req.channel req.sender)

/-! Admission. -/

inductive GuestKind where
  | call | sender
  deriving DecidableEq, Repr

inductive GuestRefusal where
  | dailyBudgetSpent | callTurnsSpent | senderRateLimited
  deriving DecidableEq, Repr

/-- Whose guest turns are counted: a plugin's, or the HTTP voice credential's. -/
inductive LedgerName where
  | plugin (name : Bytes)
  | httpVoice

/-- What the guest ledgers answer for this turn. -/
abbrev GuestLedgers := LedgerName → SessionKey → GuestKind → Option GuestRefusal

inductive AdmitError where
  | http (error : HttpError)
  | guest (refusal : GuestRefusal)

/-- A request that was admitted. -/
structure Admitted where
  key : SessionKey
  isCall : Bool
  request : ChatRequest
  identity : AuthIdentity

def resolveKey (config : Config) (who : AuthIdentity) (req : ChatRequest) :
    Except HttpError SessionKey :=
  match who with
  | .owner =>
    .ok (if isVoice req.channel then .owner else resolveSender config req.channel req.sender)
  | .peer name => .ok (.peer name)
  | .plugin _ channel => resolvePluginKey config channel req
  | .voice => .ok (.guest (req.sender.getD []))

/-- The call set is only a voice identity. -/
def isCall : AuthIdentity → Bool
  | .voice => true
  | .plugin _ channel => isVoice channel
  | .owner | .peer _ => false

def countGuest (ledgers : GuestLedgers) (who : AuthIdentity) (key : SessionKey) (call : Bool) :
    Except GuestRefusal Unit :=
  let count (ledger : LedgerName) : Except GuestRefusal Unit :=
    if key.isGuest then
      match ledgers ledger key (if call then .call else .sender) with
      | some refusal => .error refusal
      | none => .ok ()
    else .ok ()
  match who with
  | .plugin name _ => count (.plugin name)
  | .voice => count .httpVoice
  | .owner | .peer _ => .ok ()

def admitTurn (config : Config) (ledgers : GuestLedgers) (who : AuthIdentity) (req : ChatRequest) :
    Except AdmitError Admitted := do
  (validateRequest req).mapError .http
  (refusePeerOnOwnerChannel who req.channel).mapError .http
  (refuseVoiceOffChannel who req.channel).mapError .http
  (refuseVoiceWithoutSender who req.sender).mapError .http
  let key ← (resolveKey config who req).mapError .http
  let call := isCall who
  (countGuest ledgers who key call).mapError .guest
  return ⟨key, call, req, who⟩

end PulseNull.Server
