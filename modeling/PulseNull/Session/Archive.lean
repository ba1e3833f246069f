import PulseNull.Session.Message

/-! Where a finished conversation goes: the conversation archive, the EPHEMERAL summary, and the
dead-end file of the quarantine lane. -/
namespace PulseNull.Session
open Text (ascii)

def topicTruncateLen : Nat := 80

def isCharBoundary (s : Bytes) (n : Nat) : Bool :=
  n = 0 || match s[n]? with
    | none => n = s.length
    | some c => !Text.isCont c

/-- The last character boundary at or before `n`. -/
def floorBoundary (s : Bytes) : Nat → Nat
  | 0 => 0
  | n + 1 => if isCharBoundary s (n + 1) then n + 1 else floorBoundary s n

def safeTruncate (s : Bytes) (maxBytes : Nat) : Bytes :=
  if s.length ≤ maxBytes then s else s.take (floorBoundary s maxBytes)

structure ArchiveMeta where
  trigger : Bytes
  channel : Bytes
  pulseName : Bytes
  sessionKey : Option Bytes
  deriving DecidableEq

/-- One file of the conversation archive. -/
structure Archive where
  metadata : ArchiveMeta
  conversation : List Message
  deriving DecidableEq

/-- What `EPHEMERAL.md` says of the last session. -/
structure Ephemeral where
  pulseName : Bytes
  messageCount : Nat
  topics : List Bytes
  more : Nat
  deriving DecidableEq

/-- The durable memory a session end writes. -/
structure Memory where
  conversations : List Archive
  quarantine : List (Bytes × List Message)
  ephemeral : Option Ephemeral
  deriving DecidableEq

def Memory.empty : Memory := ⟨[], [], none⟩

/-- How a write ends. A conversation may be written and its INDEX row not. -/
inductive WriteOutcome where
  | written | unindexed | failed
  deriving DecidableEq, Repr

/-- Write a full conversation archive; whether it is reported as written. -/
def archiveConversation (mem : Memory) (outcome : WriteOutcome) (conversation : List Message)
    (metadata : ArchiveMeta) : Memory × Bool :=
  let filed := { mem with conversations := mem.conversations ++ [⟨metadata, conversation⟩] }
  match conversation, outcome with
  | [], _ => (mem, false)
  | _, .written => (filed, true)
  | _, .unindexed => (filed, false)
  | _, .failed => (mem, false)

def userText (m : Message) : Option Bytes :=
  match m.role, m.content with
  | .user, .text t => some t
  | _, _ => none

def showTopic (topic : Bytes) : Bytes :=
  if topicTruncateLen < topic.length then
    safeTruncate topic (topicTruncateLen - 3) ++ ascii "..."
  else topic

/-- The summary of a conversation; `strip` is `strip_system_prefixes`. -/
def summarize (strip : Bytes → Bytes) (pulseName : Bytes) (conversation : List Message) : Ephemeral :=
  let cleaned := ((conversation.filterMap userText).map strip).filter (· ≠ [])
  ⟨pulseName, conversation.length, (cleaned.take 5).map showTopic, cleaned.length - 5⟩

def writeEphemeralSummary (strip : Bytes → Bytes) (mem : Memory) (ok : Bool) (pulseName : Bytes)
    (conversation : List Message) : Memory :=
  if conversation = [] || !ok then mem
  else { mem with ephemeral := some (summarize strip pulseName conversation) }

/-- Outcomes of the two writes of a session end. -/
structure EndOutcome where
  archive : WriteOutcome
  ephemeral : Bool

/-- Full session end: archive the conversation and write the EPHEMERAL summary. -/
def endSession (strip : Bytes → Bytes) (mem : Memory) (outcome : EndOutcome)
    (conversation : List Message) (metadata : ArchiveMeta) : Memory × Bool :=
  if conversation = [] then (mem, false)
  else
    let (archived, filed) := archiveConversation mem outcome.archive conversation metadata
    (writeEphemeralSummary strip archived outcome.ephemeral metadata.pulseName conversation, filed)

/-- The end of a voice call: archived, with no EPHEMERAL summary. -/
def endCall (mem : Memory) (outcome : WriteOutcome) (conversation : List Message)
    (metadata : ArchiveMeta) : Memory :=
  if conversation = [] then mem else (archiveConversation mem outcome conversation metadata).1

/-- The quarantine lane goes to a file of its own, and nowhere else. -/
def archiveQuarantine (mem : Memory) (ok : Bool) (sessionKey : Bytes) (quarantine : List Message) :
    Memory :=
  if quarantine = [] || !ok then mem
  else { mem with quarantine := mem.quarantine ++ [(sessionKey, quarantine)] }

end PulseNull.Session
