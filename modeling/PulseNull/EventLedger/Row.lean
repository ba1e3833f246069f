import PulseNull.Session.Archive
import PulseNull.Outreach.Store
import PulseNull.Time

/-! Rows of the event ledger, and the row an event of the pulse becomes. -/
namespace PulseNull.EventLedger
open Text

abbrev SalienceKind := Outreach.SalienceKind
abbrev DateTime := Time.DateTime

inductive LedgerKind where
  | task | intent | chat | comms | alert | error | provider
  deriving DecidableEq

/-- `partly` is the source's `Partial`. -/
inductive LedgerOutcome where
  | ok | partly | failed | running | none
  deriving DecidableEq

structure LedgerRow where
  id : Nat
  time : DateTime
  kind : LedgerKind
  name : Bytes
  actor : Option Bytes
  outcome : LedgerOutcome
  tokens : Option Nat
  durationMs : Option Nat
  journalDelta : List (Bytes × Int)
  detailRef : Option Bytes
  deriving DecidableEq

inductive InteractionSource where
  | chat (channel : Bytes)
  | comms (peer : Bytes)
  | scheduledTask (taskName : Bytes)
  | research (topic : Bytes)

/-- `everyone` is the source's `Public`. -/
inductive ConversationTrust where
  | owner | localPeer | remotePeer | everyone

inductive PluginStateChange where
  | failed | recovered

inductive PulseEvent where
  | postInteraction (source : InteractionSource) (trust : ConversationTrust) (summary : Bytes)
      (inputTokens outputTokens : Nat)
  | pipelineAlert (document : Bytes) (count hardLimit : Nat)
  | pipelineFrozen (sessionsWithoutMovement : Nat)
  | cognitiveHealthChanged (previous current : Bytes) (suggestions : List Bytes)
  | pipelineConversionLow (conversations7d pipelineUpdates7d : Nat)
  | pluginStateChanged (pluginName : Bytes) (newState : PluginStateChange)
  | providerError (error errorKind taskId : Bytes)
  | salience (kind : SalienceKind) (headline : Bytes)

def nameMaxBytes : Nat := 120
def errorMaxBytes : Nat := 200

def trustLabel : ConversationTrust → Bytes
  | .owner => ascii "owner"
  | .localPeer => ascii "local_peer"
  | .remotePeer => ascii "remote_peer"
  | .everyone => ascii "public"

def PluginStateChange.show : PluginStateChange → Bytes
  | .failed => ascii "failed"
  | .recovered => ascii "recovered"

def salienceLabel : SalienceKind → Bytes
  | .finding => ascii "finding"
  | .development => ascii "development"
  | .blocking => ascii "blocking"
  | .callback => ascii "callback"

/-- The bytes of an arrow between blanks. -/
def arrow : Bytes := [32, 0xe2, 0x86, 0x92, 32]

def truncated (s : Bytes) (maxBytes : Nat) : Bytes := Session.safeTruncate s maxBytes

/-- An alert as it stands, its name uncut. -/
def notice (id : Nat) (now : DateTime) (name : Bytes) : LedgerRow :=
  ⟨id, now, .alert, name, none, .none, none, none, [], none⟩

def alertRow (id : Nat) (time : DateTime) (name : Bytes) : LedgerRow :=
  notice id time (truncated name nameMaxBytes)

/-- Kind, name and actor of an interaction. -/
def InteractionSource.columns (trust : ConversationTrust) :
    InteractionSource → LedgerKind × Bytes × Option Bytes
  | .chat channel => (.chat, channel, some (trustLabel trust))
  | .comms peer => (.comms, peer, none)
  | .scheduledTask taskName => (.task, taskName, none)
  | .research topic => (.intent, topic, none)

def project (event : PulseEvent) (id : Nat) (time : DateTime) : Option LedgerRow :=
  match event with
  | .postInteraction source trust _ inputTokens outputTokens =>
    let (kind, name, actor) := source.columns trust
    some ⟨id, time, kind, truncated name nameMaxBytes, actor, .ok,
      some (inputTokens + outputTokens), none, [], none⟩
  | .pipelineAlert document count hardLimit => some (alertRow id time
      (document ++ ascii " at hard limit " ++ decimal count ++ ascii "/" ++ decimal hardLimit))
  | .pipelineFrozen sessions => some (alertRow id time
      (ascii "pipeline frozen for " ++ decimal sessions ++ ascii " sessions"))
  | .cognitiveHealthChanged previous current _ => some (alertRow id time
      (ascii "cognitive " ++ previous ++ arrow ++ current))
  | .pipelineConversionLow conversations updates => some (alertRow id time
      (ascii "pipeline conversion low: " ++ decimal conversations ++ ascii " conversations, " ++
        decimal updates ++ ascii " updates (7d)"))
  | .pluginStateChanged pluginName newState => some (alertRow id time
      (ascii "plugin " ++ pluginName ++ ascii " " ++ newState.show))
  | .providerError _ errorKind taskId => some
      ⟨id, time, .provider, truncated (ascii "provider error: " ++ errorKind) errorMaxBytes,
        some taskId, .failed, none, none, [], none⟩
  | .salience kind headline => some (alertRow id time
      (salienceLabel kind ++ ascii ": " ++ headline))

/-- Every event becomes a row, under the id it was given. -/
theorem project_id (event : PulseEvent) (id : Nat) (time : DateTime) :
    ∃ row, project event id time = some row ∧ row.id = id := by
  cases event <;> exact ⟨_, rfl, rfl⟩

end PulseNull.EventLedger
