import PulseNull.Server.Admission
import PulseNull.Session.Wal
import PulseNull.Word

/-! The session store: the sessions held by key, the file of each, and the paths that end one. -/
namespace PulseNull.Session
open Text (ascii)

/-- One session. A file holds all of it but the two watermarks. Times are in nanoseconds. -/
structure SessionData where
  key : Bytes
  channel : Bytes
  sender : Bytes
  messages : List Message
  createdAt : Int
  lastActive : Int
  messageCount : Nat
  walSeq : Nat
  messagesSinceCheckpoint : Nat
  isolationEphemeralFrom : Option Nat
  isolationQuarantineFrom : Option Nat
  quarantine : List Message

def SessionData.stored (data : SessionData) : SessionData :=
  { data with isolationEphemeralFrom := none, isolationQuarantineFrom := none }

def SessionData.lanes (data : SessionData) : List Message := data.messages ++ data.quarantine

/-- Messages of a lane before its watermark. -/
def beforeMark (mark : Option Nat) (lane : List Message) : List Message :=
  match mark with
  | some n => lane.take n
  | none => lane

/-- The messages of both lanes that were not taken while isolated. -/
def SessionData.settled (data : SessionData) : List Message :=
  beforeMark data.isolationEphemeralFrom data.messages ++
    beforeMark data.isolationQuarantineFrom data.quarantine

/-- A session in memory. -/
structure LiveSession where
  data : SessionData
  dirty : Bool

/-- `as i64`. -/
def asI64 (n : U64) : Int := if n.val < 2^63 then n.val else n.val - 2^64

/-- No activity for more than `ttlSeconds` whole seconds. -/
def LiveSession.isExpired (session : LiveSession) (now : Int) (ttlSeconds : U64) : Bool :=
  asI64 ttlSeconds < (now - session.data.lastActive).tdiv 1000000000

/-- What the store is built with. `strip` is `strip_system_prefixes`; `handoff` is the text of
`build_handoff` on a session with messages. -/
structure StoreEnv where
  strip : Bytes → Bytes
  handoff : SessionData → Bytes
  pulseName : Bytes
  ttlSeconds : U64
  config : Server.Config

/-- How the writes about one session end. -/
structure Outcomes where
  ended : EndOutcome
  quarantine : Bool
  persisted : Bool

/-- A held session is under its own key, and a file is named after the key it holds. -/
structure Store where
  sessions : AList fun _ : Bytes => LiveSession
  files : AList fun _ : Bytes => SessionData
  memory : Memory
  wal : WalDir
  keyed : ∀ key, ∀ session ∈ sessions.lookup key, session.data.key = key
  named : ∀ name, ∀ data ∈ files.lookup name, name = sessionFilename data.key

/-! Both lanes of a session are archived in places of their own. -/

def endedMeta (env : StoreEnv) (trigger : String) (data : SessionData) (key : Bytes) : ArchiveMeta :=
  ⟨ascii trigger, data.channel, env.pulseName, some key⟩

/-- The message a fresh session opens with. -/
def StoreEnv.opening (env : StoreEnv) (data : SessionData) : List Message :=
  if data.messages = [] then [] else [⟨.user, .text (env.handoff data), some .system⟩]

/-- The old session and the fresh one. The WAL counter goes on. -/
def beginFresh (env : StoreEnv) (now : Int) (data : SessionData) :
    Option (SessionData × SessionData) :=
  if data.messages = [] ∧ data.quarantine = [] then none
  else some (data, { data with
    messages := env.opening data
    quarantine := []
    messageCount := 0
    createdAt := now
    lastActive := now
    messagesSinceCheckpoint := 0 })

def resetSession (env : StoreEnv) (now : Int) (o : Outcomes) (data : SessionData) (mem : Memory) :
    SessionData × Memory :=
  match beginFresh env now data with
  | none => (data, mem)
  | some (ended, fresh) =>
    let (mem, _) := endSession env.strip mem o.ended ended.messages
      (endedMeta env "session-reset" ended ended.key)
    (fresh, archiveQuarantine mem o.quarantine ended.key ended.quarantine)

def archiveOnShutdown (env : StoreEnv) (o : Outcomes) (key : Bytes) (data : SessionData)
    (mem : Memory) : Memory :=
  if data.messages = [] ∧ data.quarantine = [] then mem
  else
    let (mem, _) := endSession env.strip mem o.ended data.messages
      (endedMeta env "server-shutdown" data key)
    archiveQuarantine mem o.quarantine key data.quarantine

/-- A loaded session merged into the one held for its key. -/
def mergeLoaded (existing : LiveSession) (data : SessionData) : LiveSession :=
  let messages := existing.data.messages ++ data.messages
  { data := { existing.data with
      messages := messages
      messageCount := max existing.data.messageCount messages.length
      lastActive := max existing.data.lastActive data.lastActive }
    dirty := true }

namespace Store

def empty : Store where
  sessions := ∅
  files := ∅
  memory := .empty
  wal := .empty
  keyed := fun _ _ h => nomatch h
  named := fun _ _ h => nomatch h

/-! Files. -/

def persistData (s : Store) (data : SessionData) (ok : Bool) : Store :=
  if ok then
    { s with
      files := s.files.insert (sessionFilename data.key) data.stored
      named := by
        intro name other h
        by_cases hn : name = sessionFilename data.key
        · rw [hn, AList.lookup_insert, Option.mem_some_iff] at h
          rw [hn, ← h]
          rfl
        · rw [AList.lookup_insert_ne hn] at h
          exact s.named name other h }
  else s

def insertSession (s : Store) (session : LiveSession) : Store :=
  { s with
    sessions := s.sessions.insert session.data.key session
    keyed := by
      intro key other h
      by_cases hk : key = session.data.key
      · rw [hk, AList.lookup_insert, Option.mem_some_iff] at h
        rw [hk, ← h]
      · rw [AList.lookup_insert_ne hk] at h
        exact s.keyed key other h }

/-- Write a session that is dirty. -/
def persist (s : Store) (key : Bytes) (ok : Bool) : Store :=
  match s.sessions.lookup key with
  | some session =>
    if session.dirty then (s.persistData session.data ok).insertSession { session with dirty := false }
    else s
  | none => s

def persistAll (s : Store) (o : Bytes → Outcomes) : Store :=
  s.sessions.keys.foldl (fun s key => s.persist key (o key).persisted) s

def removeFile (s : Store) (name : Bytes) : Store :=
  { s with
    files := s.files.erase name
    named := by
      intro other data h
      by_cases hn : other = name
      · rw [hn, AList.lookup_erase] at h
        exact nomatch h
      · rw [AList.lookup_erase_ne hn] at h
        exact s.named other data h }

def removeSession (s : Store) (key : Bytes) : Store :=
  { s with
    sessions := s.sessions.erase key
    keyed := by
      intro other session h
      by_cases hn : other = key
      · rw [hn, AList.lookup_erase] at h
        exact nomatch h
      · rw [AList.lookup_erase_ne hn] at h
        exact s.keyed other session h }

def setMemory (s : Store) (mem : Memory) : Store := { s with memory := mem }

/-! Paths that end a session. -/

/-- The reset handler: reset the session of a key, mark it dirty and persist it. -/
def reset (env : StoreEnv) (s : Store) (key : Bytes) (now : Int) (o : Outcomes) : Store :=
  match s.sessions.lookup key with
  | none => s
  | some session =>
    if session.data.messages = [] then s
    else
      let (fresh, mem) := resetSession env now o session.data s.memory
      ((s.setMemory mem).insertSession ⟨fresh, true⟩).persist key o.persisted

/-- One expired session of the sweep. -/
def sweepOne (env : StoreEnv) (o : Bytes → Outcomes) (s : Store) (key : Bytes) : Store :=
  match s.sessions.lookup key with
  | none => s
  | some session =>
    let mem := if session.data.messages = [] then s.memory
      else (endSession env.strip s.memory (o key).ended session.data.messages
        (endedMeta env "session-expired" session.data key)).1
    ((s.removeSession key).setMemory mem).removeFile (sessionFilename key)

/-- The keys the sweep finds expired. `clock key` is when it looks at that session. -/
def expiredKeys (env : StoreEnv) (s : Store) (clock : Bytes → Int) : List Bytes :=
  s.sessions.keys.filter fun key =>
    (s.sessions.lookup key).any fun session => session.isExpired (clock key) env.ttlSeconds

def cleanupExpired (env : StoreEnv) (s : Store) (clock : Bytes → Int) (o : Bytes → Outcomes) : Store :=
  (s.expiredKeys env clock).foldl (sweepOne env o) s

/-- Archive every session, then write the dirty ones. -/
def archiveAll (env : StoreEnv) (s : Store) (o : Bytes → Outcomes) : Store :=
  let mem := s.sessions.entries.foldl
    (fun mem entry => archiveOnShutdown env (o entry.1) entry.1 entry.2.data mem) s.memory
  (s.setMemory mem).persistAll o

end Store

/-! Loading a file. -/

/-- A key of the old `channel:sender` format. -/
def isOldFormatKey (key : Bytes) : Bool :=
  key.contains 58 &&
    (["discord", "voice", "chat", "comms", "tui", "tui-chat", "system", "reflection"].map ascii).contains
      (key.takeWhile (· ≠ 58))

/-- The session of a file under its identity key, and whether that is a new key. -/
def migrateKey (env : StoreEnv) (data : SessionData) : SessionData × Bool :=
  if isOldFormatKey data.key then
    ({ data with key := (Server.resolveSender env.config data.channel (some data.sender)).text }, true)
  else (data, false)

/-- The session a file loads as. A migrated one has yet to be written under its new name. -/
def loadedSession (env : StoreEnv) (data : SessionData) : LiveSession :=
  let (data, migrated) := migrateKey env data.stored
  ⟨data, migrated⟩

namespace Store

/-- An expired session: its trunk is archived and its file removed. -/
def archiveExpired (env : StoreEnv) (s : Store) (session : LiveSession) (name : Bytes) (o : Outcomes) :
    Store :=
  let mem := if session.data.messages = [] then s.memory
    else (endSession env.strip s.memory o.ended session.data.messages
      (endedMeta env "session-expired-on-load" session.data session.data.key)).1
  (s.setMemory mem).removeFile name

/-- Add a loaded session, or merge it into the one held for its key. -/
def insertLoaded (s : Store) (session : LiveSession) : Store :=
  match s.sessions.lookup session.data.key with
  | some existing => s.insertSession (mergeLoaded existing session.data)
  | none => s.insertSession session

def loadSessionFile (env : StoreEnv) (s : Store) (name : Bytes) (now : Int) (o : Outcomes) : Store :=
  match s.files.lookup name with
  | none => s
  | some data =>
    let session := loadedSession env data
    let s := if session.dirty then s.removeFile name else s
    if session.isExpired now env.ttlSeconds then s.archiveExpired env session name o
    else s.insertLoaded session

end Store
end PulseNull.Session
