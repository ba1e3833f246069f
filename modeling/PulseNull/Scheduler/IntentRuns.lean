import PulseNull.Scheduler.Intent

/-! The queue over time: writers that update the file under its lock and install the merged queue
in the shared copy afterwards, claims and completions of the drain loop, faults and restarts. -/
namespace PulseNull.Scheduler
open Time (DateTime)
open Coordinator (DurableLeaseTable FencingToken AppendOutcome Chrono)

/-- How far the execution of a claimed intent is. `proven` has renewed its claim, with its token. -/
inductive Stage where
  | claimed
  | executed
  | proven (token : FencingToken)
  | recorded
  deriving DecidableEq

structure Task where
  holder : Bytes
  intent : Intent
  stage : Stage
  deriving DecidableEq

/-- A completion: the intent, and the claim it was proven by. -/
structure Completion where
  id : Bytes
  holder : Bytes
  token : FencingToken
  deriving DecidableEq

/-- The file; the daemon's shared copy while it is up, and the queues not installed in it yet, each
with the number of the daemon's last write at the time; the executions; the leases; and what
happened: the intents accepted, removed by hand, executed, with a renewed claim, with their
removal on disk, and the files an update replaced without reading them. -/
structure Sys where
  file : QueueFile
  memory : Option IntentQueue
  installed : Nat
  assigning : List (Nat × IntentQueue)
  writes : Nat
  tasks : List Task
  leases : DurableLeaseTable
  accepted : List Bytes
  withdrawn : List Bytes
  executed : List Bytes
  proven : List Completion
  completed : List Completion
  overwritten : List QueueFile

/-- Before the daemon is up. What is pending counts as accepted. -/
def Sys.start (file : QueueFile) (leases : DurableLeaseTable) : Sys :=
  ⟨file, none, 0, [], 0, [], leases, file.pending.map Intent.id, [], [], [], [], []⟩

/-- `written` says whether the save of an update succeeds; `k` picks a task or an assignment. -/
inductive Act where
  | submit (intent : Intent) (maxSize : Nat) (written : Bool)
  | cliAdd (intent : Intent) (maxSize : Nat) (written : Bool)
  | cliRemove (id : Bytes) (written : Bool)
  | cliClear (written : Bool)
  | assign (k : Nat)
  | claim (holder : Bytes) (now : DateTime) (outcome : AppendOutcome)
  | execute (k : Nat)
  | prove (k : Nat) (now : DateTime)
  | complete (k : Nat) (written : Bool)
  | release (k : Nat) (now : DateTime) (outcome : AppendOutcome)
  | sweep (intentId holder : Bytes) (now : DateTime) (outcome : AppendOutcome)
  | reconcile
  | abortAssign (k : Nat)
  | abortTask (k : Nat)
  | disturb (readable parses : Bool)
  | stop
  | boot

/-- The file after an update of any process. -/
def Sys.wrote (s : Sys) (file : QueueFile) : Sys :=
  { s with
    file := file
    overwritten := if s.file.broken then s.overwritten ++ [s.file] else s.overwritten }

/-- The merged queue is handed to the daemon's task, to be installed. -/
def Sys.merged (s : Sys) (queue : IntentQueue) : Sys :=
  { s with writes := s.writes + 1, assigning := s.assigning ++ [(s.writes + 1, queue)] }

/-- An update of a daemon's task; a failed one is logged. -/
def Sys.update (s : Sys) (apply : IntentQueue → IntentQueue) (written : Bool) : Sys :=
  match saveDelta s.file apply written with
  | some (file, queue) => (s.wrote file).merged queue
  | none => s

/-- An update of the command line, which has no copy. -/
def Sys.cliUpdate (s : Sys) (apply : IntentQueue → IntentQueue) (written : Bool) : Sys :=
  match saveDelta s.file apply written with
  | some (file, _) => s.wrote file
  | none => s

/-- Whether the file's queue takes the intent, and it is saved. -/
def Sys.accepts (s : Sys) (intent : Intent) (maxSize : Nat) (written : Bool) : Bool :=
  written && ((IntentQueue.load s.file).push intent maxSize).2

def Sys.accept (s : Sys) (id : Bytes) : Sys := { s with accepted := s.accepted ++ [id] }

def Sys.withdraw (s : Sys) (ids : List Bytes) : Sys := { s with withdrawn := s.withdrawn ++ ids }

/-- The ids a load finds. -/
def Sys.loaded (s : Sys) : List Bytes := (IntentQueue.load s.file).intents.map Intent.id

def Sys.setTask (s : Sys) (k : Nat) (t : Task) : Sys := { s with tasks := s.tasks.set k t }

/-- The end of an execution: its removal from the file, when it is saved, is a completion. -/
def Sys.record (s : Sys) (c : Completion) (written : Bool) : Sys :=
  let s := s.update (fun q => q.removeById c.id) written
  if written then { s with completed := s.completed ++ [c] } else s

/-- `none` where the act cannot happen. -/
def Sys.step (chrono : Chrono) (inRange : Bytes → Bool) (s : Sys) : Act → Option Sys
  | .submit intent maxSize written => do
    let _ ← s.memory
    let next := s.update (fun q => (q.push intent maxSize).1) written
    return if s.accepts intent maxSize written then next.accept intent.id else next
  | .cliAdd intent maxSize written =>
    let next := s.cliUpdate (fun q => (q.push intent maxSize).1) written
    some (if s.accepts intent maxSize written then next.accept intent.id else next)
  | .cliRemove id written =>
    let next := s.cliUpdate (fun q => q.removeById id) written
    some (if written then next.withdraw (s.loaded.filter (· = id)) else next)
  | .cliClear written =>
    let next := s.cliUpdate IntentQueue.clear written
    some (if written then next.withdraw s.loaded else next)
  | .assign k => do
    let (write, queue) ← s.assigning[k]?
    return { s with
      memory := some queue, installed := write, assigning := s.assigning.eraseIdx k }
  | .claim holder now outcome => do
    let queue ← s.memory
    match claimNextIntent chrono holder now outcome s.leases queue.sortedCandidates with
    | (leases, some intent) =>
      return { s with leases := leases, tasks := s.tasks ++ [⟨holder, intent, .claimed⟩] }
    | (leases, none) => return { s with leases := leases }
  | .execute k => do
    let t ← s.tasks[k]?
    if t.stage = .claimed then
      return { s.setTask k { t with stage := .executed } with
        executed := s.executed ++ [t.intent.id] }
    else none
  | .prove k now => do
    let t ← s.tasks[k]?
    if t.stage = .executed then
      match s.leases.renew (intentResource t.intent.id) t.holder intentLeaseTtl now with
      | (leases, .ok lease) =>
        return { s.setTask k { t with stage := .proven lease.fencingToken } with
          leases := leases
          proven := s.proven ++ [⟨t.intent.id, t.holder, lease.fencingToken⟩] }
      | (leases, .error _) => return { s with leases := leases, tasks := s.tasks.eraseIdx k }
    else none
  | .complete k written => do
    let _ ← s.memory
    let t ← s.tasks[k]?
    match t.stage with
    | .proven token =>
      return (s.setTask k { t with stage := .recorded }).record ⟨t.intent.id, t.holder, token⟩ written
    | _ => none
  | .release k now outcome => do
    let t ← s.tasks[k]?
    if t.stage = .claimed ∨ t.stage = .recorded then
      return { s with
        leases := (s.leases.release chrono (intentResource t.intent.id) t.holder now outcome).1
        tasks := s.tasks.eraseIdx k }
    else none
  | .sweep intentId holder now outcome =>
    some { s with
      leases := (s.leases.release chrono (intentResource intentId) holder now outcome).1 }
  | .reconcile => do
    let _ ← s.memory
    return { s with assigning := s.assigning ++ [(s.writes, .load s.file)] }
  | .abortAssign k => some { s with assigning := s.assigning.eraseIdx k }
  | .abortTask k => some { s with tasks := s.tasks.eraseIdx k }
  | .disturb readable parses =>
    some { s with file := { s.file with readable := readable, parses := parses } }
  | .stop => some { s with memory := none, assigning := [], tasks := [] }
  | .boot => match s.memory, DurableLeaseTable.open chrono inRange s.leases.wal.file false with
    | none, .ok leases =>
      some { s with memory := some (.load s.file), installed := s.writes, leases := leases }
    | _, _ => none

/-- The states a pulse reaches from `s₀`, each act under `ok`. -/
inductive Runs (chrono : Chrono) (inRange : Bytes → Bool) (ok : Sys → Act → Prop) (s₀ : Sys) :
    Sys → Prop where
  | start : Runs chrono inRange ok s₀ s₀
  | step {s s' : Sys} (act : Act) : Runs chrono inRange ok s₀ s → ok s act →
      s.step chrono inRange act = some s' → Runs chrono inRange ok s₀ s'

/-- No intent is lost or resurrected: an accepted one is pending on disk until it is removed by
hand or its completion is recorded; a completion was executed and has renewed its claim, and its
intent is not pending; no file was replaced unread. -/
structure Sys.Durable (s : Sys) : Prop where
  kept : ∀ id ∈ s.accepted, id ∉ s.withdrawn → (∀ c ∈ s.completed, c.id ≠ id) →
    ∃ i ∈ s.file.pending, i.id = id
  fenced : ∀ c ∈ s.completed, c.id ∈ s.executed ∧ c ∈ s.proven
  gone : ∀ c ∈ s.completed, ∀ i ∈ s.file.pending, i.id ≠ c.id
  read : s.overwritten = []

/-- With nothing left to install, the shared copy is the file's queue. -/
def Sys.AtRest (s : Sys) : Prop :=
  ∀ q, s.memory = some q → s.assigning = [] → q.intents = s.file.pending

/-- What keeps the intents: no update meets a broken file, and an id is new when it is accepted. -/
def Reads (s : Sys) : Act → Prop
  | .submit intent maxSize written | .cliAdd intent maxSize written =>
    (written = true → s.file.broken = false) ∧
      (s.accepts intent maxSize written = true → intent.id ∉ s.accepted)
  | .cliRemove _ written | .cliClear written | .complete _ written =>
    written = true → s.file.broken = false
  | _ => True

/-- What keeps the copy: while the daemon is up the command line changes nothing; no load of the
daemon meets a broken file; and when nothing is left to install, the last one installed is of the
last write. -/
def Orders (s : Sys) : Act → Prop
  | .cliAdd intent maxSize written => s.accepts intent maxSize written = true → s.memory = none
  | .cliRemove id written => written = true → s.memory = none ∨ ∀ i ∈ s.file.pending, i.id ≠ id
  | .cliClear written => written = true → s.memory = none ∨ s.file.pending = []
  | .assign k => s.assigning.eraseIdx k = [] → ∀ w ∈ s.assigning[k]?, w.1 = s.writes
  | .abortAssign k => s.assigning.eraseIdx k = [] → s.installed = s.writes
  | .reconcile | .boot => s.file.broken = false
  | _ => True

end PulseNull.Scheduler
