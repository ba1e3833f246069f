import PulseNull.Text.Bytes

/-! The outreach log and its file: bounded lists of what was sent and what was turned away, read
and written under one lock. -/
namespace PulseNull.Outreach

/-- Seconds since the epoch. -/
abbrev Instant := Int

def maxSent : Nat := 200
def maxRejections : Nat := 100

inductive SalienceKind where
  | finding | development | blocking | callback
  deriving DecidableEq

inductive Cost where
  | nothing | read | decision
  deriving DecidableEq

inductive Rating where
  | useful | noise
  deriving DecidableEq

structure SentMessage where
  id : Bytes
  kind : SalienceKind
  threadId : Option Bytes
  headline : Bytes
  evidence : Bytes
  cost : Cost
  sentAt : Instant
  respondedAt : Option Instant
  rating : Option Rating
  deriving DecidableEq

/-- The first response sets the time, the newest rating counts. -/
def SentMessage.respond (m : SentMessage) (respondedAt : Instant) (rating : Option Rating) :
    SentMessage :=
  { m with
    respondedAt := m.respondedAt.orElse fun _ => some respondedAt
    rating := rating.orElse fun _ => m.rating }

def SentMessage.responded (m : SentMessage) : Bool := m.respondedAt.isSome

/-- `judged` is a reason of the gate. -/
inductive RejectionReason where
  | disabled
  | judged (detail : Bytes)
  | quietHours (localHour : Nat)
  | dailyCapReached (cap sentToday : Nat)
  | storeUnavailable (detail : Bytes)
  deriving DecidableEq

structure RejectedCandidate where
  kind : SalienceKind
  headline : Bytes
  reason : RejectionReason
  rejectedAt : Instant
  deriving DecidableEq

structure AnnouncedTightening where
  kind : SalienceKind
  tightenedCap : Nat
  announcedAt : Instant
  deriving DecidableEq

structure OutreachStore where
  sent : List SentMessage
  rejections : List RejectedCandidate
  announcedTightenings : List AnnouncedTightening
  deriving DecidableEq

/-- Drop the oldest entries until at most `max` are left. -/
def pruneFront {α : Type} (items : List α) (max : Nat) : List α := items.drop (items.length - max)

/-- A timezone of one offset to UTC, in seconds. -/
structure Tz where
  offset : Int

def Tz.localDay (tz : Tz) (t : Instant) : Int := (t + tz.offset) / 86400

def Tz.localHour (tz : Tz) (t : Instant) : Nat := ((t + tz.offset) / 3600 % 24).toNat

/-- Of the kind, on the local day of `now`. -/
def onDay (tz : Tz) (kind : SalienceKind) (now : Instant) (m : SentMessage) : Bool :=
  m.kind = kind && tz.localDay m.sentAt = tz.localDay now

namespace OutreachStore

def empty : OutreachStore := ⟨[], [], []⟩

def recordSent (s : OutreachStore) (message : SentMessage) : OutreachStore :=
  { s with sent := pruneFront (s.sent ++ [message]) maxSent }

def recordRejection (s : OutreachStore) (rejection : RejectedCandidate) : OutreachStore :=
  { s with rejections := pruneFront (s.rejections ++ [rejection]) maxRejections }

/-- The newest `window` messages of the kind. -/
def recent (s : OutreachStore) (kind : SalienceKind) (window : Nat) : List SentMessage :=
  pruneFront (s.sent.filter (·.kind = kind)) window

def sentToday (s : OutreachStore) (kind : SalienceKind) (tz : Tz) (now : Instant) : Nat :=
  min (s.sent.countP (onDay tz kind now)) (2^32 - 1)

/-- The first message of the id answered. -/
def respondFirst (id : Bytes) (respondedAt : Instant) (rating : Option Rating) :
    List SentMessage → List SentMessage
  | [] => []
  | m :: rest =>
    if m.id = id then m.respond respondedAt rating :: rest
    else m :: respondFirst id respondedAt rating rest

/-- Whether the id is known. -/
def markResponded (s : OutreachStore) (id : Bytes) (respondedAt : Instant)
    (rating : Option Rating) : OutreachStore × Bool :=
  ({ s with sent := respondFirst id respondedAt rating s.sent }, s.sent.any (·.id = id))

def announced (s : OutreachStore) (kind : SalienceKind) : Option AnnouncedTightening :=
  s.announcedTightenings.find? (·.kind = kind)

def clearAnnouncement (s : OutreachStore) (kind : SalienceKind) : OutreachStore :=
  { s with announcedTightenings := s.announcedTightenings.filter (·.kind ≠ kind) }

def recordAnnouncement (s : OutreachStore) (kind : SalienceKind) (tightenedCap : Nat)
    (announcedAt : Instant) : OutreachStore :=
  { s with announcedTightenings :=
      (s.clearAnnouncement kind).announcedTightenings ++ [⟨kind, tightenedCap, announcedAt⟩] }

end OutreachStore

/-! The file. -/

/-- `outreach.json`: the log its text records, if it is there; whether it can be read; whether the
text parses. -/
structure StoreFile where
  records : Option OutreachStore
  readable : Bool
  parses : Bool
  deriving DecidableEq

def StoreFile.missing : StoreFile := ⟨none, true, true⟩

/-- What the file holds, whether or not it can be read now. -/
def StoreFile.log (f : StoreFile) : List SentMessage := (f.records.getD .empty).sent

inductive LoadError where
  | unreadable
  | quarantined
  | stuck
  deriving DecidableEq

/-- A file that is not there is an empty log. One that does not parse is moved aside, if the rename
succeeds, and the load fails. -/
def loadStrict (f : StoreFile) (renamed : Bool) : StoreFile × Except LoadError OutreachStore :=
  match f.records with
  | none => (f, .ok .empty)
  | some store =>
    if !f.readable then (f, .error .unreadable)
    else if f.parses then (f, .ok store)
    else if renamed then (.missing, .error .quarantined)
    else (f, .error .stuck)

/-- Load, apply and save under the lock; `none` where the load or the save fails. -/
def saveDelta {α : Type} (f : StoreFile) (renamed written : Bool)
    (apply : OutreachStore → OutreachStore × α) : StoreFile × Option α :=
  match loadStrict f renamed with
  | (f, .error _) => (f, none)
  | (f, .ok store) =>
    if written then (⟨some (apply store).1, true, true⟩, some (apply store).2) else (f, none)

/-- A delta fails and at most moves the file aside, or is applied to the whole log and saved. -/
theorem saveDelta_cases {α : Type} (f : StoreFile) (renamed written : Bool)
    (apply : OutreachStore → OutreachStore × α) :
    (saveDelta f renamed written apply = (f, none)) ∨
    (saveDelta f renamed written apply = (.missing, none)) ∨
    (∃ store, store.sent = f.log ∧
      saveDelta f renamed written apply = (⟨some (apply store).1, true, true⟩, some (apply store).2)) := by
  unfold saveDelta loadStrict StoreFile.log
  cases hr : f.records with
  | none =>
    cases written with
    | true => exact .inr (.inr ⟨.empty, rfl, rfl⟩)
    | false => exact .inl rfl
  | some store =>
    cases hread : f.readable with
    | false => exact .inl rfl
    | true =>
      cases f.parses with
      | true =>
        cases written with
        | true => exact .inr (.inr ⟨store, rfl, rfl⟩)
        | false => exact .inl rfl
      | false =>
        cases renamed with
        | true => exact .inr (.inl rfl)
        | false => exact .inl rfl

end PulseNull.Outreach
