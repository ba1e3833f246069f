import PulseNull.Text.Chars
import PulseNull.Coordinator.Recovery

/-! The intent queue and its file: a load that falls back to the empty queue, and the locked
load, apply and save every writer goes through. -/
namespace PulseNull.Scheduler
open Time (DateTime Duration)
open Coordinator (DurableLeaseTable AppendOutcome Chrono)

inductive IntentSource where
  | pulseMarker
  | event (event : Bytes)
  | scheduledTask (id : Bytes)
  | userCli
  | chain (parent : Bytes)
  deriving DecidableEq

inductive IntentPriority where
  | low | normal | high | urgent
  deriving DecidableEq

def IntentPriority.rank : IntentPriority → Nat
  | .low => 0
  | .normal => 1
  | .high => 2
  | .urgent => 3

inductive IntentOutput where
  | silent | share | call
  deriving DecidableEq

/-- A follow-up to queue after the intent. -/
structure IntentChain where
  description : Bytes
  prompt : Bytes
  outputRouting : IntentOutput
  deriving DecidableEq

/-- A one-shot task queued for autonomous execution. -/
structure Intent where
  id : Bytes
  description : Bytes
  prompt : Bytes
  source : IntentSource
  priority : IntentPriority
  createdAt : DateTime
  chain : Option IntentChain
  outputRouting : IntentOutput
  depth : Nat
  deriving DecidableEq

structure IntentQueue where
  intents : List Intent
  deriving DecidableEq

def IntentQueue.empty : IntentQueue := ⟨[]⟩

/-- The queue, and whether it took the intent: not when it is full or holds the description twice. -/
def IntentQueue.push (q : IntentQueue) (intent : Intent) (maxSize : Nat) : IntentQueue × Bool :=
  if maxSize ≤ q.intents.length then (q, false)
  else if 2 ≤ (q.intents.filter fun i => i.description = intent.description).length then (q, false)
  else (⟨q.intents ++ [intent]⟩, true)

/-- By priority, the oldest first within one. -/
def IntentQueue.sortedCandidates (q : IntentQueue) : List Intent :=
  q.intents.insertionSort fun a b => b.priority.rank ≤ a.priority.rank

def IntentQueue.removeById (q : IntentQueue) (id : Bytes) : IntentQueue :=
  ⟨q.intents.filter fun i => i.id ≠ id⟩

def IntentQueue.clear (_ : IntentQueue) : IntentQueue := .empty

/-! The file. -/

/-- `intents.json`: the queue its text records, if it is there, and what keeps a reader from it.
The text of a queue parses back as that queue. -/
structure QueueFile where
  records : Option IntentQueue
  readable : Bool
  parses : Bool
  deriving DecidableEq

/-- What is pending on disk, whether or not it can be read now. -/
def QueueFile.pending (f : QueueFile) : List Intent := (f.records.getD .empty).intents

/-- The file is there, and no reader gets a queue from it. -/
def QueueFile.broken (f : QueueFile) : Bool := f.records.isSome && !(f.readable && f.parses)

/-- The empty queue for a file that is not there, cannot be read, or does not parse. -/
def IntentQueue.load (f : QueueFile) : IntentQueue :=
  if f.broken then .empty else f.records.getD .empty

/-- Written beside the file and renamed over it: the file is new, or as it was. -/
def IntentQueue.save (q : IntentQueue) (f : QueueFile) (written : Bool) : Option QueueFile :=
  if written then some { f with records := some q, readable := true, parses := true } else none

/-- Under the lock of the process and of the file. The file, and the merged queue. -/
def saveDelta (f : QueueFile) (apply : IntentQueue → IntentQueue) (written : Bool) :
    Option (QueueFile × IntentQueue) := do
  let disk := apply (.load f)
  let f ← disk.save f written
  return (f, disk)

theorem load_eq {f : QueueFile} (h : f.broken = false) : (IntentQueue.load f).intents = f.pending := by
  simp [IntentQueue.load, QueueFile.pending, h]

theorem saveDelta_eq_some {f f' : QueueFile} {apply : IntentQueue → IntentQueue} {written : Bool}
    {merged : IntentQueue} (h : saveDelta f apply written = some (f', merged)) :
    written = true ∧ merged = apply (.load f) ∧ f' = ⟨some merged, true, true⟩ := by
  cases written with
  | true =>
    obtain ⟨rfl, rfl⟩ := Prod.mk.inj (Option.some.inj h)
    exact ⟨rfl, rfl, rfl⟩
  | false => cases h

/-! Claims on an intent. -/

/-- One byte for each character: itself where a lease id may hold it, else `-`. -/
def sanitized : Bytes → Bytes
  | [] => []
  | c :: cs =>
    if Text.isCont c then sanitized cs else (if Coordinator.isIdByte c then c else 45) :: sanitized cs

def leaseSafe (input : Bytes) : Bytes :=
  let safe := (sanitized input).take 64
  if safe = [] then Text.ascii "unnamed" else safe

def intentResource (intentId : Bytes) : Bytes := Text.ascii "intent-" ++ leaseSafe intentId

def intentLeaseTtl : Duration := ⟨1800, 0⟩

/-- The first candidate whose lease is free; any other failure claims nothing. -/
def claimNextIntent (chrono : Chrono) (holder : Bytes) (now : DateTime) (outcome : AppendOutcome)
    (leases : DurableLeaseTable) : List Intent → DurableLeaseTable × Option Intent
  | [] => (leases, none)
  | intent :: rest =>
    match leases.acquire chrono (intentResource intent.id) holder intentLeaseTtl now outcome with
    | (leases, .ok _) => (leases, some intent)
    | (leases, .error (.lease (.held _ _ _))) =>
      claimNextIntent chrono holder now outcome leases rest
    | (leases, .error _) => (leases, none)

theorem claimNextIntent_mem {chrono : Chrono} {holder : Bytes} {now : DateTime}
    {outcome : AppendOutcome} {leases leases' : DurableLeaseTable} {candidates : List Intent}
    {intent : Intent} (h : claimNextIntent chrono holder now outcome leases candidates =
      (leases', some intent)) : intent ∈ candidates := by
  induction candidates generalizing leases with
  | nil => cases h
  | cons c cs ih =>
    rw [claimNextIntent] at h
    split at h
    · obtain ⟨_, rfl⟩ : _ ∧ c = intent := by simpa using h
      exact List.mem_cons_self
    · exact List.mem_cons_of_mem _ (ih h)
    · cases h

@[simp] theorem mem_sortedCandidates {q : IntentQueue} {intent : Intent} :
    intent ∈ q.sortedCandidates ↔ intent ∈ q.intents := by
  unfold IntentQueue.sortedCandidates
  exact List.mem_insertionSort _

end PulseNull.Scheduler
