import PulseNull.Machine
import PulseNull.Session.Store

/-! Incremental checkpoints: what a turn commits to the counters and the WAL of its session, and when it
archives the conversation so far. -/
namespace PulseNull.Session
open Text (ascii)

/-- The configuration a checkpoint reads. Times are in seconds, sizes in bytes. -/
structure CheckpointConfig where
  walEnabled : Bool
  checkpointEnabled : Bool
  checkpointInterval : U64
  checkpointTime : U64
  walMaxSize : U64

/-- A session with the time of its last checkpoint, the bytes of its WAL file (none when there is no file),
its checkpoint marker and the memory it archives to. -/
structure Ongoing where
  data : SessionData
  lastCheckpointTime : Int
  wal : Bytes
  marker : Option Nat
  memory : Memory

/-- One append to the WAL: what reached the file, and whether the append reported success. -/
structure WalWrite where
  bytes : Bytes
  ok : Bool

/-- A turn that succeeded: the conversation it leaves, how its writes end, and the clock when the triggers
are checked and when they are reset. `mark` is what the marker reads after a sequence number is written. -/
structure Turn where
  channel : Bytes
  isolated : Bool
  isCall : Bool
  conversation : List Message
  user : WalWrite
  assistant : WalWrite
  sizeRead : Bool
  archived : WriteOutcome
  mark : Nat → Option Nat
  checkedAt : Int
  resetAt : Int

/-- A turn whose writes reach the disk. -/
def Turn.persists (turn : Turn) : Bool := !turn.isolated && !turn.isCall

namespace Ongoing

def commitTurnCounters (s : Ongoing) (turn : Turn) : Ongoing :=
  { s with data := { s.data with
      messages := turn.conversation
      messageCount := s.data.messageCount + 1
      messagesSinceCheckpoint := s.data.messagesSinceCheckpoint + if turn.isolated then 0 else 1 } }

/-- The sequence number goes on only when the append succeeds. -/
def appendWal (s : Ongoing) (write : WalWrite) : Ongoing :=
  { s with
    wal := s.wal ++ write.bytes
    data := { s.data with walSeq := s.data.walSeq + if write.ok then 1 else 0 } }

def commitToWal (config : CheckpointConfig) (s : Ongoing) (turn : Turn) : Ongoing :=
  if config.walEnabled && turn.persists then (s.appendWal turn.user).appendWal turn.assistant else s

/-- The session when the triggers are checked. -/
def committed (config : CheckpointConfig) (s : Ongoing) (turn : Turn) : Ongoing :=
  (s.commitTurnCounters turn).commitToWal config turn

def msgCondition (config : CheckpointConfig) (s : Ongoing) : Bool :=
  config.checkpointInterval.val ≤ s.data.messagesSinceCheckpoint

def timeCondition (config : CheckpointConfig) (s : Ongoing) (now : Int) : Bool :=
  asI64 config.checkpointTime ≤ (now - s.lastCheckpointTime).tdiv 1000000000

/-- A size that cannot be read does not count. -/
def sizeCondition (config : CheckpointConfig) (s : Ongoing) (sizeRead : Bool) : Bool :=
  sizeRead && config.walMaxSize.val ≤ s.wal.length

/-- The archive of a checkpoint, and whether it was reported as written. -/
def archive (config : CheckpointConfig) (pulseName : Bytes) (s : Ongoing) (turn : Turn) : Memory × Bool :=
  if !config.checkpointEnabled || !config.walEnabled then (s.memory, false)
  else if !s.msgCondition config && !s.timeCondition config turn.checkedAt &&
      !s.sizeCondition config turn.sizeRead then (s.memory, false)
  else archiveConversation s.memory turn.archived s.data.messages
    ⟨ascii "checkpoint", turn.channel, pulseName, some s.data.key⟩

/-- The triggers are reset once the archive is written. -/
def maybeCheckpoint (config : CheckpointConfig) (pulseName : Bytes) (s : Ongoing) (turn : Turn) : Ongoing :=
  let (memory, archived) := s.archive config pulseName turn
  if archived then
    { s with
      memory := memory
      marker := turn.mark s.data.walSeq
      lastCheckpointTime := turn.resetAt
      data := { s.data with messagesSinceCheckpoint := 0 } }
  else { s with memory := memory }

def commitTurn (config : CheckpointConfig) (pulseName : Bytes) (s : Ongoing) (turn : Turn) : Ongoing :=
  let s := s.committed config turn
  if turn.persists then s.maybeCheckpoint config pulseName turn else s

/-- A reset that ends something starts the triggers again; the WAL file stays. -/
def reset (env : StoreEnv) (now : Int) (o : Outcomes) (s : Ongoing) : Ongoing :=
  let (data, memory) := resetSession env now o s.data s.memory
  { s with
    data := data
    memory := memory
    lastCheckpointTime := if (beginFresh env now s.data).isSome then now else s.lastCheckpointTime }

/-- A turn that takes a checkpoint. -/
def takes (config : CheckpointConfig) (pulseName : Bytes) (s : Ongoing) (turn : Turn) : Bool :=
  turn.persists && ((s.committed config turn).archive config pulseName turn).2

end Ongoing

/-! Checkpoints and what lies between them. -/

/-- What has come since a checkpoint: the messages, counted one a turn, and the bytes of WAL, with the bytes
the WAL held and the time when it was taken. -/
structure Since where
  messages : Nat
  appended : Nat
  held : Nat
  takenAt : Int
  deriving DecidableEq

/-- The messages, the bytes of WAL and the nanoseconds between two checkpoints. -/
structure Gap where
  messages : Nat
  appended : Nat
  passed : Int
  deriving DecidableEq

/-- A gap that earns its checkpoint. -/
def Gap.Spaced (config : CheckpointConfig) (gap : Gap) : Prop :=
  config.checkpointInterval.val ≤ gap.messages ∨
    config.checkpointTime.val ≤ gap.passed.tdiv 1000000000 ∨ config.walMaxSize.val ≤ gap.appended

instance (config : CheckpointConfig) (gap : Gap) : Decidable (gap.Spaced config) :=
  inferInstanceAs (Decidable (_ ∨ _ ∨ _))

/-- A session under watch: what has come since its last checkpoint, and the gaps between the earlier ones. -/
structure Watch where
  session : Ongoing
  since : Option Since
  gaps : List Gap

inductive Step where
  | turn (turn : Turn)
  | reset (now : Int) (o : Outcomes)

/-- The bytes a turn adds to the WAL. -/
def Turn.appended (config : CheckpointConfig) (turn : Turn) : Nat :=
  if config.walEnabled && turn.persists then turn.user.bytes.length + turn.assistant.bytes.length else 0

def Since.add (config : CheckpointConfig) (since : Since) (turn : Turn) : Since :=
  { since with
    messages := since.messages + if turn.isolated then 0 else 1
    appended := since.appended + turn.appended config }

def Since.gap (since : Since) (now : Int) : Gap := ⟨since.messages, since.appended, now - since.takenAt⟩

namespace Watch

def turn (config : CheckpointConfig) (pulseName : Bytes) (w : Watch) (turn : Turn) : Watch :=
  let session := w.session.commitTurn config pulseName turn
  let since := w.since.map (·.add config turn)
  if w.session.takes config pulseName turn then
    { session := session
      since := some ⟨0, 0, session.wal.length, turn.resetAt⟩
      gaps := w.gaps ++ (since.map (·.gap turn.checkedAt)).toList }
  else { w with session := session, since := since }

def step (config : CheckpointConfig) (env : StoreEnv) (w : Watch) : Step → Watch
  | .turn turn => w.turn config env.pulseName turn
  | .reset now o => { w with session := w.session.reset env now o }

end Watch

/-- The turns of a session, from any state of it. -/
def watched (config : CheckpointConfig) (env : StoreEnv) (session : Ongoing) : Machine Watch Step :=
  ⟨⟨session, none, []⟩, .step config env⟩

/-- The triggers were set again by the last checkpoint. A turn that takes a checkpoint on the size of the WAL
alone finds the size reached without what the WAL held at the last one; the time to pass is not negative as
`i64`; and a reset does not set the time back before that checkpoint. -/
def Watch.Rearmed (config : CheckpointConfig) (env : StoreEnv) (w : Watch) : Step → Prop
  | .turn turn => ∀ since ∈ w.since, w.session.takes config env.pulseName turn = true →
      (w.session.committed config turn).msgCondition config = false →
      if (w.session.committed config turn).timeCondition config turn.checkedAt
        then config.checkpointTime.val < 2^63
        else config.walMaxSize.val + since.held ≤ (w.session.committed config turn).wal.length
  | .reset now _ => ∀ since ∈ w.since, since.takenAt ≤ now

instance (config : CheckpointConfig) (env : StoreEnv) (w : Watch) :
    (act : Step) → Decidable (w.Rearmed config env act)
  | .turn _ | .reset .. => by
    unfold Watch.Rearmed
    infer_instance

/-! What a turn and a reset leave of the triggers. -/

variable {config : CheckpointConfig} {env : StoreEnv} {pulseName : Bytes} {s : Ongoing} {turn : Turn}

namespace Ongoing

theorem committed_messages : (s.committed config turn).data.messagesSinceCheckpoint =
    s.data.messagesSinceCheckpoint + if turn.isolated then 0 else 1 := by
  unfold committed commitToWal
  split <;> rfl

theorem committed_time : (s.committed config turn).lastCheckpointTime = s.lastCheckpointTime := by
  unfold committed commitToWal
  split <;> rfl

theorem committed_wal : (s.committed config turn).wal.length = s.wal.length + turn.appended config := by
  unfold committed commitToWal Turn.appended
  split
  · simp [appendWal, commitTurnCounters, Nat.add_assoc]
  · simp [commitTurnCounters]

/-- One of the triggers fires when a checkpoint is archived. -/
theorem archive_due (h : (s.archive config pulseName turn).2 = true) :
    s.msgCondition config = true ∨ s.timeCondition config turn.checkedAt = true ∨
      s.sizeCondition config turn.sizeRead = true := by
  unfold archive at h
  split at h
  · simp at h
  · split at h
    · simp at h
    · next hdue =>
      by_contra hn
      simp only [not_or, Bool.not_eq_true] at hn
      simp [hn] at hdue

theorem commitTurn_takes (h : s.takes config pulseName turn = true) :
    (s.commitTurn config pulseName turn).data.messagesSinceCheckpoint = 0 ∧
    (s.commitTurn config pulseName turn).lastCheckpointTime = turn.resetAt := by
  obtain ⟨hp, ha⟩ := Bool.and_eq_true_iff.mp h
  simp [commitTurn, maybeCheckpoint, hp, ha]

theorem commitTurn_skips (h : s.takes config pulseName turn = false) :
    (s.commitTurn config pulseName turn).data = (s.committed config turn).data ∧
    (s.commitTurn config pulseName turn).lastCheckpointTime = s.lastCheckpointTime := by
  have hskip : turn.persists = true → ((s.committed config turn).archive config pulseName turn).2 = false :=
    fun hp => by simpa [takes, hp] using h
  unfold commitTurn
  split
  · next hp => simp [maybeCheckpoint, hskip hp, committed_time]
  · simp [committed_time]

theorem commitTurn_wal : (s.commitTurn config pulseName turn).wal = (s.committed config turn).wal := by
  unfold commitTurn
  split
  · simp only [maybeCheckpoint]
    split <;> rfl
  · rfl

theorem reset_wal {now : Int} {o : Outcomes} : (s.reset env now o).wal = s.wal := rfl

theorem reset_triggers (env : StoreEnv) (s : Ongoing) (now : Int) (o : Outcomes) :
    ((s.reset env now o).data.messagesSinceCheckpoint = 0 ∧
      (s.reset env now o).lastCheckpointTime = now) ∨
    ((s.reset env now o).data = s.data ∧ (s.reset env now o).lastCheckpointTime = s.lastCheckpointTime) := by
  cases hf : beginFresh env now s.data with
  | none => exact .inr (by simp [reset, resetSession, hf])
  | some p =>
    have hp : p.2.messagesSinceCheckpoint = 0 := by
      unfold beginFresh at hf
      split at hf
      · simp at hf
      · rw [← Option.some.inj hf]
    exact .inl (by simp [reset, resetSession, hf, hp])

/-- The triggers of a session count no more than has come since its checkpoint. -/
structure Follows (s : Ongoing) (since : Since) : Prop where
  messages : s.data.messagesSinceCheckpoint ≤ since.messages
  wal : s.wal.length = since.held + since.appended
  time : since.takenAt ≤ s.lastCheckpointTime

variable {since : Since}

theorem Follows.committed (h : s.Follows since) : (s.committed config turn).Follows (since.add config turn) where
  messages := by
    rw [committed_messages]
    exact Nat.add_le_add_right h.messages _
  wal := by
    rw [committed_wal, h.wal]
    exact Nat.add_assoc ..
  time := by
    rw [committed_time]
    exact h.time

theorem Follows.reset {now : Int} {o : Outcomes} (h : s.Follows since) (hnow : since.takenAt ≤ now) :
    (s.reset env now o).Follows since := by
  obtain ⟨hm, ht⟩ | ⟨hd, ht⟩ := reset_triggers env s now o
  · exact ⟨by rw [hm]; exact Nat.zero_le _, h.wal, by rw [ht]; exact hnow⟩
  · exact ⟨by rw [hd]; exact h.messages, h.wal, by rw [ht]; exact h.time⟩

/-- A gap that ends on a trigger set again by its checkpoint earns the next one. -/
theorem Follows.gap (h : s.Follows since) (htakes : s.takes config pulseName turn = true)
    (hr : (s.committed config turn).msgCondition config = false →
      if (s.committed config turn).timeCondition config turn.checkedAt
        then config.checkpointTime.val < 2^63
        else config.walMaxSize.val + since.held ≤ (s.committed config turn).wal.length) :
    ((since.add config turn).gap turn.checkedAt).Spaced config := by
  have hc : (s.committed config turn).Follows (since.add config turn) := h.committed
  have hdue := archive_due (Bool.and_eq_true_iff.mp htakes).2
  cases hm : (s.committed config turn).msgCondition config with
  | true => exact .inl ((of_decide_eq_true hm).trans hc.messages)
  | false =>
    have hr := hr hm
    cases ht : (s.committed config turn).timeCondition config turn.checkedAt with
    | true =>
      rw [ht, if_pos rfl] at hr
      have hle : asI64 config.checkpointTime ≤ _ := of_decide_eq_true ht
      rw [show asI64 config.checkpointTime = config.checkpointTime.val from if_pos hr] at hle
      have hpassed : turn.checkedAt - (s.committed config turn).lastCheckpointTime ≤
          turn.checkedAt - since.takenAt := Int.sub_le_sub_left hc.time _
      exact .inr (.inl (hle.trans (Int.tdiv_le_tdiv (by decide) hpassed)))
    | false =>
      rw [ht, if_neg (by decide)] at hr
      have hwal : _ = since.held + (since.add config turn).appended := hc.wal
      have happended : config.walMaxSize.val ≤ (since.add config turn).appended := by omega
      exact .inr (.inr happended)

end Ongoing

/-- The gaps so far earned their checkpoints, and the session follows the one that is open. -/
structure Watch.Inv (config : CheckpointConfig) (w : Watch) : Prop where
  spaced : ∀ gap ∈ w.gaps, gap.Spaced config
  follows : ∀ since ∈ w.since, w.session.Follows since

theorem Watch.Inv.commit {w : Watch} (h : w.Inv config) (hr : w.Rearmed config env (.turn turn)) :
    (w.turn config env.pulseName turn).Inv config := by
  unfold Watch.turn
  split
  · next htakes =>
    obtain ⟨hm, ht⟩ := Ongoing.commitTurn_takes htakes
    refine ⟨fun gap hgap => ?_, fun since hs => ?_⟩
    · obtain hgap | hgap := List.mem_append.mp hgap
      · exact h.spaced gap hgap
      · simp only [Option.mem_toList, Option.map_eq_some_iff] at hgap
        obtain ⟨_, ⟨since, hs, rfl⟩, rfl⟩ := hgap
        exact (h.follows since hs).gap htakes (hr since hs htakes)
    · obtain rfl := Option.some.inj hs
      exact ⟨hm.le, rfl, ht.ge⟩
  · next hskips =>
    obtain ⟨hd, ht⟩ := Ongoing.commitTurn_skips (Bool.not_eq_true _ ▸ hskips)
    refine ⟨h.spaced, fun since hs => ?_⟩
    obtain ⟨before, hb, rfl⟩ := Option.map_eq_some_iff.mp hs
    have hc : (w.session.committed config turn).Follows (before.add config turn) := (h.follows before hb).committed
    refine ⟨?_, ?_, ?_⟩
    · rw [hd]
      exact hc.messages
    · rw [Ongoing.commitTurn_wal]
      exact hc.wal
    · rw [ht]
      exact (h.follows before hb).time

theorem Watch.Inv.step {w : Watch} (h : w.Inv config) (act : Step) (hr : w.Rearmed config env act) :
    (w.step config env act).Inv config := by
  cases act with
  | turn turn => exact h.commit hr
  | reset now o => exact ⟨h.spaced, fun since hs => (h.follows since hs).reset (hr since hs)⟩

def turnConfig (interval walMaxSize : U64) : CheckpointConfig := ⟨true, true, interval, 600, walMaxSize⟩

def turnEnv : StoreEnv where
  strip := id
  handoff _ := ascii "handoff"
  pulseName := ascii "echo"
  ttlSeconds := 3600
  config := ⟨⟨none, none, none⟩, [], ⟨none, none⟩⟩

def turnSession : Ongoing where
  data := ⟨ascii "owner", ascii "chat", ascii "owner", [], 0, 0, 0, 0, 0, none, none, []⟩
  lastCheckpointTime := 0
  wal := []
  marker := none
  memory := .empty

def walLine (seq : UInt8) (rest : String) : Bytes :=
  ascii "\x7b\"ts\":\"2026-01-01T00:00:01Z\",\"seq\":" ++ [48 + seq] ++ ascii rest

def userLine (seq : UInt8) : Bytes :=
  walLine seq (",\"role\":\"user\",\"content\":\"Are the backups of both disks done?\"," ++
    "\"meta\":\x7b\"channel\":\"chat\",\"sender\":\"owner\"\x7d\x7d\n")

def replyLine (seq : UInt8) : Bytes :=
  walLine seq ",\"role\":\"assistant\",\"content\":\"Both are done.\"\x7d\n"

/-- The turn of a second, the first one at 1. -/
def shortTurn (second : UInt8) : Step :=
  .turn {
    channel := ascii "chat"
    isolated := false
    isCall := false
    conversation := (List.replicate second.toNat
      [⟨.user, .text (ascii "Are the backups of both disks done?"), none⟩,
        ⟨.assistant, .text (ascii "Both are done."), none⟩]).flatten
    user := ⟨userLine (2 * second - 1), true⟩
    assistant := ⟨replyLine (2 * second), true⟩
    sizeRead := true
    archived := .written
    mark := some
    checkedAt := second.toNat * 1000000000
    resetAt := second.toNat * 1000000000 }

end PulseNull.Session
