import PulseNull.Coordinator.Fenced

/-! A farm of subtasks: controllers that lease each attempt, children that commit behind a fence,
and the join under the wall budget, each by the steps between two awaits. -/
namespace PulseNull.Coordinator.Farm
open Time (DateTime Duration)
open Text (ascii decimal)

def maxSubtasks : Nat := 8

structure SubtaskSpec where
  id : Bytes
  prompt : Bytes
  deriving DecidableEq

structure FarmSpec where
  id : List Char
  subtasks : List SubtaskSpec

structure FarmCaps where
  maxConcurrency : Nat
  maxAttempts : Nat
  subtaskTtl : Duration
  reclaimAbort : Bool

structure SubtaskResult where
  subId : Bytes
  text : Bytes
  attempts : Nat
  deriving DecidableEq

structure FarmOutcome where
  results : List SubtaskResult
  failed : List Bytes
  lateFenced : Nat
  reclaims : Nat
  deriving DecidableEq

/-- A name that is valid in a lease id. -/
def leaseSafe (input : List Char) : Bytes :=
  let sanitized := (input.map fun c =>
    if c.toNat < 128 ∧ isIdByte c.toNat.toUInt8 = true then c.toNat.toUInt8 else 45).take 64
  if sanitized = [] then ascii "unnamed" else sanitized

/-- The first of each id is kept; the ids of the others. -/
def distinct (seen : List Bytes) : List SubtaskSpec → List SubtaskSpec × List Bytes
  | [] => ([], [])
  | sub :: rest =>
    if sub.id ∈ seen then ((distinct seen rest).1, sub.id :: (distinct seen rest).2)
    else (sub :: (distinct (sub.id :: seen) rest).1, (distinct (sub.id :: seen) rest).2)

/-- What `run_farm` is given, with the subtasks it drives and the ids it has dropped. -/
structure Plan where
  tenureHolder : Bytes
  farmId : Bytes
  subtasks : List SubtaskSpec
  dropped : List Bytes
  caps : FarmCaps

def Plan.new (tenureHolder : Bytes) (spec : FarmSpec) (caps : FarmCaps) : Plan :=
  let kept := distinct [] (spec.subtasks.take maxSubtasks)
  ⟨tenureHolder, leaseSafe spec.id, kept.1, kept.2, caps⟩

def Plan.resource (f : Plan) (index : Nat) : Bytes :=
  ascii "farm-" ++ f.farmId ++ ascii "-s" ++ decimal index

def Plan.holder (f : Plan) (attempt : Nat) : Bytes := f.tenureHolder ++ ascii "-a" ++ decimal attempt

def Plan.subId (f : Plan) (index : Nat) : Bytes := (f.subtasks[index]?.map (·.id)).getD []

/-- The table of leases, shared with others, under an acquire whose event may not get on the log. -/
def claim (t : LeaseTable) (resourceId holderId : Bytes) (ttl : Duration) (now : DateTime)
    (logged : Bool) : LeaseTable × Option Lease :=
  match t.acquire resourceId holderId ttl now with
  | .ok (staged, lease) => if logged then (staged, some lease) else (t, none)
  | .error _ => (t, none)

def unclaim (t : LeaseTable) (resourceId holderId : Bytes) (logged : Bool) : LeaseTable :=
  match t.release resourceId holderId with
  | .ok staged => if logged then staged else t
  | .error _ => t

/-- What others do with the table. -/
inductive Call where
  | acquire (resourceId holderId : Bytes) (ttl : Duration) (now : DateTime) (logged : Bool)
  | renew (resourceId holderId : Bytes) (ttl : Duration) (now : DateTime)
  | release (resourceId holderId : Bytes) (logged : Bool)

def Call.apply (t : LeaseTable) : Call → LeaseTable
  | .acquire r h ttl now logged => (claim t r h ttl now logged).1
  | .renew r h ttl now => match t.renew r h ttl now with
    | .ok (table, _) => table
    | .error _ => t
  | .release r h logged => unclaim t r h logged

/-! The results. -/

abbrev FarmResults := Bytes → Option (FencedResource × Option (FencingToken × Bytes))

def FarmResults.entry (r : FarmResults) (subId : Bytes) :
    FencedResource × Option (FencingToken × Bytes) := (r subId).getD (.new, none)

/-- Never lowers the fence. -/
def FarmResults.raiseFence (r : FarmResults) (subId : Bytes) (token : FencingToken) : FarmResults :=
  let (guard, result) := r.entry subId
  Function.update r subId (some (⟨some (guard.highWater.elim token fun high => max high token)⟩,
    result))

def FarmResults.commit (r : FarmResults) (subId : Bytes) (token : FencingToken) (text : Bytes) :
    FarmResults × Bool :=
  let (guard, result) := r.entry subId
  match guard.accept token with
  | (guard, .ok ()) => (Function.update r subId (some (guard, some (token, text))), true)
  | (guard, .error _) => (Function.update r subId (some (guard, result)), false)

def FarmResults.takeIfToken (r : FarmResults) (subId : Bytes) (token : FencingToken) :
    FarmResults × Option Bytes :=
  match r subId with
  | some (guard, some (t, text)) =>
    if t = token then (Function.update r subId (some (guard, none)), some text) else (r, none)
  | _ => (r, none)

/-! Controllers and children. -/

/-- One attempt at a subtask, under the token minted for it. -/
structure Attempt where
  sub : Nat
  attempt : Nat
  token : FencingToken
  deriving DecidableEq

/-- Where a controller stands in an attempt: at the top of its loop; with the lease; with the fence
raised; waiting for a permit; for its child; to release; to take; for the stale child. -/
inductive Stage where
  | attempting (attempt : Nat)
  | claimed (a : Attempt)
  | raised (a : Attempt)
  | permit (a : Attempt)
  | joining (a : Attempt) (child : Nat)
  | releasing (a : Attempt) (committed : Bool)
  | taking (a : Attempt)
  | lingering (attempt : Nat) (text : Bytes)
  | returned (output : Option (Nat × Bytes))
  | dropped
  deriving DecidableEq

/-- `aborted` once its handle was dropped. -/
structure Controller where
  stage : Stage
  stalled : Option Nat
  aborted : Bool
  deriving DecidableEq

inductive Phase where
  | running
  | answered (text : Bytes)
  | ended (committed : Bool)
  deriving DecidableEq

structure Child where
  task : Attempt
  phase : Phase
  aborted : Bool
  deriving DecidableEq

structure Commit where
  task : Attempt
  text : Bytes
  /-- The highest token minted for the lease. -/
  highest : Option FencingToken
  deriving DecidableEq

/-- What has happened: attempts that got a token, texts the executor returned, commits accepted and
rejected, and stalled attempts that the next one superseded. -/
structure History where
  minted : List Attempt
  answered : List (Attempt × Bytes)
  committed : List Commit
  rejected : List Attempt
  superseded : List Attempt
  deriving DecidableEq

/-- What `run_farm` returns, and how many attempts had been superseded and commits rejected by
then. -/
structure Report where
  outcome : FarmOutcome
  superseded : Nat
  rejected : Nat
  deriving DecidableEq

structure Sys where
  leases : LeaseTable
  results : FarmResults
  lateFenced : Nat
  reclaims : Nat
  controllers : List Controller
  children : List Child
  joined : Nat
  outcome : FarmOutcome
  report : Option Report
  history : History

def Sys.start (f : Plan) (leases : LeaseTable) : Sys where
  leases := leases
  results := fun _ => none
  lateFenced := 0
  reclaims := 0
  controllers := f.subtasks.map fun _ => ⟨.attempting 1, none, false⟩
  children := []
  joined := 0
  outcome := ⟨[], f.dropped, 0, 0⟩
  report := none
  history := ⟨[], [], [], [], []⟩

inductive Act where
  | attempt (i : Nat) (isolated : Bool) (now : DateTime) (logged : Bool)
  | raiseFence (i : Nat)
  | count (i : Nat)
  | spawn (i : Nat)
  | join (i : Nat)
  | stall (i : Nat)
  | release (i : Nat) (logged : Bool)
  | take (i : Nat)
  | linger (i : Nat)
  | drop (i : Nat)
  | answer (child : Nat) (text : Option Bytes)
  | commit (child : Nat)
  | cancel (child : Nat)
  | collect
  | deadline
  | finish
  | other (call : Call)

def Child.abort (c : Child) : Child := { c with aborted := true }

/-- Dropped guards abort their children. -/
def abort (children : List Child) (guards : List Nat) : List Child :=
  guards.foldl (fun children child => children.modify child Child.abort) children

/-- The children a controller has a guard on. -/
def Controller.guards (c : Controller) : List Nat :=
  c.stalled.toList ++ match c.stage with
    | .joining _ child => [child]
    | _ => []

/-- A 32-bit counter. -/
def fetchAdd (n : Nat) : Nat := (n + 1) % 2^32

def Sys.set (s : Sys) (i : Nat) (c : Controller) : Sys :=
  { s with controllers := s.controllers.set i c }

/-- A controller returns, and drops its guards. -/
def Sys.leave (s : Sys) (i : Nat) (c : Controller) (stage : Stage) : Sys :=
  { s with
    controllers := s.controllers.set i { c with stage := stage, stalled := none }
    children := abort s.children c.guards }

def Sys.attempt (f : Plan) (s : Sys) (i : Nat) (c : Controller) (attempt : Nat) (isolated : Bool)
    (now : DateTime) (logged : Bool) : Sys :=
  if f.caps.maxAttempts < attempt then s.leave i c (.returned none)
  else if isolated then s.leave i c (.returned none)
  else match claim s.leases (f.resource i) (f.holder attempt) f.caps.subtaskTtl now logged with
    | (_, none) => s.leave i c (.returned none)
    | (leases, some lease) =>
      { s.set i { c with stage := .claimed ⟨i, attempt, lease.fencingToken⟩ } with
        leases := leases
        history := { s.history with
          minted := s.history.minted ++ [⟨i, attempt, lease.fencingToken⟩] } }

/-- The attempt of the stalled child, if it is the one before. -/
def Sys.stalledBefore (s : Sys) (c : Controller) (attempt : Nat) : List Attempt :=
  ((c.stalled.bind (s.children[·]?)).toList.map Child.task).filter (·.attempt + 1 = attempt)

def Sys.count (f : Plan) (s : Sys) (i : Nat) (c : Controller) (a : Attempt) : Sys :=
  if 1 < a.attempt then
    { s with
      reclaims := fetchAdd s.reclaims
      controllers := s.controllers.set i { c with
        stage := .permit a
        stalled := if f.caps.reclaimAbort then none else c.stalled }
      children := if f.caps.reclaimAbort then abort s.children c.stalled.toList else s.children
      history := { s.history with
        superseded := s.history.superseded ++ s.stalledBefore c a.attempt } }
  else s.set i { c with stage := .permit a }

def Child.alive (c : Child) : Bool :=
  match c.phase with
  | .running | .answered _ => true
  | .ended _ => false

/-- A permit goes with the child. -/
def Sys.spawn (f : Plan) (s : Sys) (i : Nat) (c : Controller) (a : Attempt) : Sys :=
  if s.children.countP Child.alive < max f.caps.maxConcurrency 1 then
    { s.set i { c with stage := .joining a s.children.length } with
      children := s.children ++ [⟨a, .running, false⟩] }
  else s

def Sys.join (s : Sys) (i : Nat) (c : Controller) (a : Attempt) (child : Nat) : Sys :=
  match s.children[child]? with
  | some ⟨_, .ended committed, _⟩ => s.set i { c with stage := .releasing a committed }
  | _ => s

/-- The ttl is out first: the child's guard is kept in place of an older one. -/
def Sys.stall (s : Sys) (i : Nat) (c : Controller) (a : Attempt) (child : Nat) : Sys :=
  { s with
    controllers := s.controllers.set i { c with
      stage := .attempting (a.attempt + 1), stalled := some child }
    children := abort s.children c.stalled.toList }

def Sys.release (f : Plan) (s : Sys) (i : Nat) (c : Controller) (a : Attempt) (committed : Bool)
    (logged : Bool) : Sys :=
  { s.set i { c with stage := if committed then .taking a else .attempting (a.attempt + 1) } with
    leases := unclaim s.leases (f.resource i) (f.holder a.attempt) logged }

def Sys.take (f : Plan) (s : Sys) (i : Nat) (c : Controller) (a : Attempt) : Sys :=
  match s.results.takeIfToken (f.subId i) a.token with
  | (results, some text) =>
    if c.stalled.isSome ∧ f.caps.reclaimAbort = false then
      { s.set i { c with stage := .lingering a.attempt text } with results := results }
    else { s.leave i c (.returned (some (a.attempt, text))) with results := results }
  | (_, none) => s.set i { c with stage := .attempting (a.attempt + 1) }

def Sys.answer (s : Sys) (child : Nat) (c : Child) : Option Bytes → Sys
  | some text => { s with
      children := s.children.set child { c with phase := .answered text }
      history := { s.history with answered := s.history.answered ++ [(c.task, text)] } }
  | none => { s with children := s.children.set child { c with phase := .ended false } }

def Sys.commit (f : Plan) (s : Sys) (child : Nat) (c : Child) (text : Bytes) : Sys :=
  let subId := f.subId c.task.sub
  match s.results.commit subId c.task.token text with
  | (results, true) => { s with
      results := results
      children := s.children.set child { c with phase := .ended true }
      history := { s.history with committed := s.history.committed ++
        [⟨c.task, text, s.leases.watermark (f.resource c.task.sub)⟩] } }
  | (results, false) => { s with
      results := results
      lateFenced := fetchAdd s.lateFenced
      children := s.children.set child { c with phase := .ended false }
      history := { s.history with rejected := s.history.rejected ++ [c.task] } }

def Sys.collect (f : Plan) (s : Sys) (output : Option (Nat × Bytes)) : Sys :=
  { s with
    joined := s.joined + 1
    outcome := match output with
      | some (attempts, text) => { s.outcome with
          results := s.outcome.results ++ [⟨f.subId s.joined, text, attempts⟩] }
      | none => { s.outcome with failed := s.outcome.failed ++ [f.subId s.joined] } }

/-- The controller's handle is dropped with the budget. -/
def Sys.cut (f : Plan) (s : Sys) (c : Controller) : Sys :=
  { s with
    controllers := s.controllers.set s.joined { c with aborted := true }
    joined := s.joined + 1
    outcome := { s.outcome with failed := s.outcome.failed ++ [f.subId s.joined] } }

def Sys.finish (s : Sys) : Sys :=
  if s.joined = s.controllers.length ∧ s.report = none then
    { s with report := some ⟨{ s.outcome with lateFenced := s.lateFenced, reclaims := s.reclaims },
        s.history.superseded.length, s.history.rejected.length⟩ }
  else s

/-- A step of the controller `i`. -/
def Sys.controller (s : Sys) (i : Nat) (step : Controller → Stage → Sys) : Sys :=
  match s.controllers[i]? with
  | some c => step c c.stage
  | none => s

def Sys.child (s : Sys) (i : Nat) (step : Child → Phase → Sys) : Sys :=
  match s.children[i]? with
  | some c => step c c.phase
  | none => s

/-- An executor that fails or panics answers nothing. -/
def Sys.step (f : Plan) (s : Sys) : Act → Sys
  | .attempt i isolated now logged => s.controller i fun c stage => match stage with
    | .attempting k => s.attempt f i c k isolated now logged
    | _ => s
  | .raiseFence i => s.controller i fun c stage => match stage with
    | .claimed a => { s.set i { c with stage := .raised a } with
        results := s.results.raiseFence (f.subId i) a.token }
    | _ => s
  | .count i => s.controller i fun c stage => match stage with
    | .raised a => s.count f i c a
    | _ => s
  | .spawn i => s.controller i fun c stage => match stage with
    | .permit a => s.spawn f i c a
    | _ => s
  | .join i => s.controller i fun c stage => match stage with
    | .joining a child => s.join i c a child
    | _ => s
  | .stall i => s.controller i fun c stage => match stage with
    | .joining a child => s.stall i c a child
    | _ => s
  | .release i logged => s.controller i fun c stage => match stage with
    | .releasing a committed => s.release f i c a committed logged
    | _ => s
  | .take i => s.controller i fun c stage => match stage with
    | .taking a => s.take f i c a
    | _ => s
  | .linger i => s.controller i fun c stage => match stage with
    | .lingering attempt text => s.leave i c (.returned (some (attempt, text)))
    | _ => s
  | .drop i => s.controller i fun c stage => match stage with
    | .returned _ => s
    | _ => if c.aborted then s.leave i c .dropped else s
  | .answer child text => s.child child fun c phase => match phase with
    | .running => s.answer child c text
    | _ => s
  | .commit child => s.child child fun c phase => match phase with
    | .answered text => s.commit f child c text
    | _ => s
  | .cancel child => s.child child fun c phase => match phase with
    | .ended _ => s
    | _ => if c.aborted then
        { s with children := s.children.set child { c with phase := .ended false } }
      else s
  | .collect => s.controller s.joined fun _ stage => match stage with
    | .returned output => s.collect f output
    | _ => s
  | .deadline => s.controller s.joined fun c stage => match stage with
    | .returned _ => s
    | _ => s.cut f c
  | .finish => s.finish
  | .other call => { s with leases := call.apply s.leases }

end PulseNull.Coordinator.Farm
