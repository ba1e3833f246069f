import PulseNull.Session.Archive

/-! The session write-ahead log: one file a session, named after its key, and recovery of the
files no live session owns. -/
namespace PulseNull.Session
open Text (ascii)

inductive WalLane where
  | trunk | quarantine
  deriving DecidableEq, Repr

structure WalMeta where
  channel : Option Bytes
  sender : Option Bytes
  deriving DecidableEq, Repr

structure WalEntry where
  seq : Nat
  role : Role
  content : MessageContent
  metadata : WalMeta
  lane : WalLane
  deriving DecidableEq, Repr

/-! File names. -/

/-- `replace(':', "--")`. -/
def encodeKey (key : Bytes) : Bytes := key.flatMap fun c => if c = 58 then [45, 45] else [c]

/-- `replace("--", ":")`. -/
def decodeKey : Bytes → Bytes
  | 45 :: 45 :: rest => 58 :: decodeKey rest
  | c :: rest => c :: decodeKey rest
  | [] => []

def walSuffix : Bytes := ascii ".jsonl"
def checkpointSuffix : Bytes := ascii ".checkpoint"
def sessionSuffix : Bytes := ascii ".json"

/-- The WAL file of a session key. -/
def walFilename (key : Bytes) : Bytes := encodeKey key ++ walSuffix
def checkpointFilename (key : Bytes) : Bytes := encodeKey key ++ checkpointSuffix

/-- The persisted session of a key. -/
def sessionFilename (key : Bytes) : Bytes := encodeKey key ++ sessionSuffix

/-- The longest name a directory entry may have. -/
def maxFileName : Nat := 255

/-- A name that a file of a directory can have; anything else fails to open. -/
def isFileName (name : Bytes) : Bool :=
  name ≠ [] && name.length ≤ maxFileName && !name.any fun c => c = 47 || c = 0

def stripSuffix (suffix name : Bytes) : Option Bytes :=
  if suffix.isSuffixOf name then some (name.take (name.length - suffix.length)) else none

/-! The directory. -/

/-- The files of the WAL directory, by name. -/
structure WalDir where
  wals : AList fun _ : Bytes => List WalEntry
  checkpoints : AList fun _ : Bytes => Nat

namespace WalDir

def empty : WalDir := ⟨∅, ∅⟩

/-- All entries of a session's WAL. -/
def read (d : WalDir) (key : Bytes) : List WalEntry := (d.wals.lookup (walFilename key)).getD []

/-- The last checkpoint of a session, 0 if there is none. -/
def readCheckpoint (d : WalDir) (key : Bytes) : Nat :=
  (d.checkpoints.lookup (checkpointFilename key)).getD 0

/-- Append an entry, creating the file. -/
def append (d : WalDir) (key : Bytes) (entry : WalEntry) : Option WalDir :=
  if isFileName (walFilename key) then
    some { d with wals := d.wals.insert (walFilename key) (d.read key ++ [entry]) }
  else none

def writeCheckpoint (d : WalDir) (key : Bytes) (seq : Nat) : Option WalDir :=
  if isFileName (checkpointFilename key) then
    some { d with checkpoints := d.checkpoints.insert (checkpointFilename key) seq }
  else none

def remove (d : WalDir) (key : Bytes) : WalDir := { d with wals := d.wals.erase (walFilename key) }

def removeCheckpoint (d : WalDir) (key : Bytes) : WalDir :=
  { d with checkpoints := d.checkpoints.erase (checkpointFilename key) }

def filenames (d : WalDir) : List Bytes := d.wals.keys ++ d.checkpoints.keys

/-- The session keys of all WAL files. -/
def listActive (d : WalDir) : List Bytes :=
  d.filenames.filterMap fun name => (stripSuffix walSuffix name).map decodeKey

def readAfterCheckpoint (d : WalDir) (key : Bytes) : List WalEntry :=
  (d.read key).filter fun e => d.readCheckpoint key < e.seq

end WalDir

/-! Recovery. -/

def WalEntry.message (e : WalEntry) : Message := ⟨e.role, e.content, none⟩

/-- The trunk and the quarantine lane of a log. -/
def entriesToLanes (entries : List WalEntry) : List Message × List Message :=
  ((entries.filter (·.lane = .trunk)).map WalEntry.message,
    (entries.filter (·.lane = .quarantine)).map WalEntry.message)

/-- What one orphan's archive holds: the trunk first, then the quarantined tangent. -/
def orphanMessages (entries : List WalEntry) : List Message :=
  (entriesToLanes entries).1 ++ (entriesToLanes entries).2

/-- The channel of the first entry, or the part of the key before the first `:`. -/
def orphanMeta (pulseName key : Bytes) (first : WalEntry) : ArchiveMeta where
  trigger := ascii "crash-recovery"
  channel := first.metadata.channel.getD (key.takeWhile (· ≠ 58))
  pulseName := pulseName
  sessionKey := some key

/-- How the writes for one orphan end. -/
structure OrphanOutcome where
  archive : WriteOutcome
  finish : EndOutcome

structure Recovery where
  dir : WalDir
  memory : Memory

/-- What recovery is given: the text rules, the live sessions, and how its writes end. -/
structure RecoveryEnv where
  strip : Bytes → Bytes
  pulseName : Bytes
  hasSession : Bytes → Bool
  outcome : Bytes → OrphanOutcome

def WalDir.discard (d : WalDir) (key : Bytes) : WalDir := (d.remove key).removeCheckpoint key

def recoverOrphan (env : RecoveryEnv) (r : Recovery) (key : Bytes) : Recovery :=
  if env.hasSession key then r
  else match r.dir.readAfterCheckpoint key with
    | [] => { r with dir := r.dir.discard key }
    | first :: rest =>
      let messages := orphanMessages (first :: rest)
      let metadata := orphanMeta env.pulseName key first
      let outcome := env.outcome key
      match archiveConversation r.memory outcome.archive messages metadata with
      | (memory, true) =>
        ⟨r.dir.discard key, (endSession env.strip memory outcome.finish messages metadata).1⟩
      | (memory, false) => { r with memory := memory }

/-- Archive every orphaned conversation and delete its WAL. -/
def recoverOrphans (env : RecoveryEnv) (d : WalDir) (mem : Memory) : Recovery :=
  d.listActive.foldl (recoverOrphan env) ⟨d, mem⟩

end PulseNull.Session
