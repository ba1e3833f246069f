import PulseNull.Effects
import PulseNull.Probe.Paired

/-! One probe run: the gate, then every turn of the plan in order, with the record rows it appends.
What the agent CLI, the clock and the scratch answer is the run's world. -/
namespace PulseNull.Probe
open Text (ascii)
open Effects (LogM emit current update caught)

/-- A turn's captured answer: the scorer's outcome for each question, and why its private note or
receipt could not be written, if it could not. -/
structure CapturedRun where
  servedModel : Option Bytes
  inputTokens : Option Nat
  outputTokens : Option Nat
  outcome : Nat → Outcome
  noteError : Option Bytes

/-- How a turn that started ended. -/
inductive Reply where
  | answered (run : CapturedRun)
  | signalled
  | quota (error : Bytes)
  | failed (error : Bytes)

def Reply.refused : Reply → Bool
  | .quota _ => true
  | _ => false

/-- What the world makes of the next ask: it must not start, it cannot be set up, or its CLI
starts, and the turn is settled later. -/
inductive Attempt where
  | stopped (reason : Bytes)
  | setup (error : Bytes)
  | began (start : Utc) (reply : Reply) (settled : Utc) (later : start ≤ settled)

/-- What a run does, in order: a turn's CLI starts, or one record row is appended. -/
inductive Effect where
  | began (start : Utc) (arm : Arm) (refused : Bool)
  | append (row : Row)
  deriving DecidableEq

inductive RunError where
  | setup (error : Bytes)
  | record (error : Bytes)
  deriving DecidableEq

def RunError.text : RunError → Bytes
  | .setup e => e
  | .record e => ascii "record: " ++ e

/-- Running totals, and why the run stopped early, if it did. -/
structure Tally where
  turns : Nat
  succeeded : Nat
  inputTokens : Nat
  outputTokens : Nat
  items : Nat
  stopped : Option (RunStatus × Option Bytes)
  deriving DecidableEq

def Tally.default : Tally := ⟨0, 0, 0, 0, 0, none⟩

/-- A run stopped early ends partial once a turn completed, else aborted. -/
def Tally.stoppedStatus (t : Tally) : RunStatus := if t.succeeded > 0 then .partialRun else .aborted

def Tally.stop (status : RunStatus) (reason : Bytes) (t : Tally) : Tally :=
  { t with stopped := some (status, some reason) }

def Tally.stopEarly (reason : Bytes) (t : Tally) : Tally := t.stop t.stoppedStatus reason

/-- The totals so far, and how many attempts the world has answered. -/
structure Progress where
  tally : Tally
  attempts : Nat
  deriving DecidableEq

abbrev RunM := LogM Progress RunError Effect

def onTally (f : Tally → Tally) : RunM Unit := update fun p => { p with tally := f p.tally }

def isStopped : RunM Bool := do return (← current).tally.stopped.isSome

def appendRow (row : Row) : RunM Unit := emit (.append row)

/-- The result of one ask, and when it was settled. -/
inductive TurnResult where
  | answered (run : CapturedRun) (settled : Utc)
  | notStarted (reason : Bytes)
  | midTurn (reason : Bytes) (settled : Utc)
  | quota (error : Bytes)
  | failed (error : Bytes) (settled : Utc)

inductive Settled where
  | answered (run : CapturedRun)
  | failed (error : Bytes)
  | stopped

/-- Everything one turn needs that does not change between turns. -/
structure TurnContext where
  runId : Bytes
  attempt : Nat → Attempt

def signalledText : Bytes := ascii "stopped by a signal (SIGTERM or SIGINT)"

def nextAttempt (c : TurnContext) : RunM Attempt := do
  let p ← current
  update fun p => { p with attempts := p.attempts + 1 }
  return c.attempt p.attempts

/-- Ask once. A turn that must not start is counted here and given back by `settle`. -/
def ask (c : TurnContext) (arm : Arm) : RunM TurnResult := do
  match ← nextAttempt c with
  | .stopped reason =>
    onTally fun t => { t with turns := t.turns + 1 }
    return .notStarted reason
  | .setup e => throw (.setup e)
  | .began start reply settled _ =>
    emit (.began start arm reply.refused)
    onTally fun t => { t with turns := t.turns + 1 }
    return match reply with
      | .answered run => .answered run settled
      | .signalled => .midTurn signalledText settled
      | .quota e => .quota e
      | .failed e => .failed e settled

def recordBudget (c : TurnContext) (setLabel : Bytes) (arm : Arm) (time : Utc)
    (run : Option CapturedRun) : RunM Unit :=
  appendRow (.budget ⟨time, c.runId, setLabel, arm, run.bind (·.inputTokens), run.bind (·.outputTokens)⟩)

/-- Account for one turn's result: a budget row for anything the model spent, a stop at the first
quota error, an abort when the first turn fails. -/
def settle (c : TurnContext) (setLabel : Bytes) (arm : Arm) : TurnResult → RunM Settled
  | .answered run time => do
    onTally fun t => { t with succeeded := t.succeeded + 1 }
    recordBudget c setLabel arm time (some run)
    onTally fun t => { t with
      inputTokens := t.inputTokens + run.inputTokens.getD 0
      outputTokens := t.outputTokens + run.outputTokens.getD 0 }
    return .answered run
  | .notStarted reason => do
    onTally fun t => ({ t with turns := t.turns - 1 } : Tally).stopEarly reason
    return .stopped
  | .midTurn reason time => do
    recordBudget c setLabel arm time none
    onTally (Tally.stopEarly reason)
    return .stopped
  | .quota e => do
    -- The quota refused the turn: nothing was spent.
    onTally fun t => ({ t with turns := t.turns - 1 } : Tally).stopEarly (ascii "quota: " ++ e)
    return .stopped
  | .failed e time => do
    recordBudget c setLabel arm time none
    if (← current).tally.succeeded = 0 then
      onTally (Tally.stop .aborted (ascii "first turn failed: " ++ e))
      return .stopped
    else return .failed e

/-- One row per item asked. -/
def recordItems (c : TurnContext) (set : LoadedSet) (arm : Arm) (servedModel : Option Bytes)
    (outcome : Nat → Outcome) : Nat → List Item → RunM Unit
  | _, [] => return ()
  | n, item :: items => do
    appendRow (.item (.item c.runId set.set item.id arm (outcome n) servedModel))
    onTally fun t => { t with items := t.items + 1 }
    recordItems c set arm servedModel outcome (n + 1) items

def noteSaved (run : CapturedRun) : RunM Unit :=
  match run.noteError with
  | some e => throw (.record e)
  | none => return ()

/-- One turn of `set` for `arm`, asking `items`: ask, then record the answers or the failure. -/
def runTurn (c : TurnContext) (set : LoadedSet) (arm : Arm) (items : List Item) : RunM Unit := do
  match ← settle c set.label arm (← ask c arm) with
  | .answered run =>
    noteSaved run
    recordItems c set arm run.servedModel run.outcome 0 items
  | .failed _ => recordItems c set arm none (fun _ => .error) 0 items
  | .stopped => return ()

/-- The items each question of a set asks: all of them at once, or one each. -/
def questions (sha256 : Sha256) (set : LoadedSet) (runId : Bytes) (truths : Truths) :
    List (List Item) :=
  let drawn := draw sha256 set runId truths
  match set.delivery with
  | .batched => [drawn]
  | .perItem => drawn.map fun item => [item]

/-- One question, of every arm that asks it. -/
def askArms (c : TurnContext) (set : LoadedSet) (items : List Item) : List Arm → RunM Unit
  | [] => return ()
  | arm :: arms => do
    let asked := items.filter (asks arm)
    if asked.isEmpty then askArms c set items arms
    else
      runTurn c set arm asked
      if ← isStopped then return () else askArms c set items arms

def askQuestions (c : TurnContext) (set : LoadedSet) : List (List Item) → RunM Unit
  | [] => return ()
  | items :: rest => do
    askArms c set items set.arms
    if ← isStopped then return () else askQuestions c set rest

/-- Every item set's turns, up to the first stop. -/
def askItemSets (c : TurnContext) (sha256 : Sha256) (truths : Truths) : List LoadedSet → RunM Unit
  | [] => return ()
  | set :: sets => do
    askQuestions c set (questions sha256 set c.runId truths)
    if ← isStopped then return () else askItemSets c sha256 truths sets

/-- The pulse for the planted side and the twin, the fresh arm for the other two. -/
def pairedArm : SideRole → Arm
  | .chance | .guess => .fresh
  | .planted | .twin => .pulse

def recordPaired (c : TurnContext) (pairs : LoadedPairs) (ask : Ask) (outcome : Outcome)
    (servedModel : Option Bytes) : RunM (Option Outcome) := do
  appendRow (.item (.paired c.runId pairs.set (pairedArm ask.side) ask.side ask.fact ask.offsetDays
    outcome servedModel))
  onTally fun t => { t with items := t.items + 1 }
  return some outcome

/-- Ask one side of a due paired fact: its outcome, or `none` when the run stopped at this turn. -/
def runPaired (c : TurnContext) (pairs : LoadedPairs) (a : Ask) : RunM (Option Outcome) := do
  match ← settle c pairs.label (pairedArm a.side) (← ask c (pairedArm a.side)) with
  | .stopped => return none
  | .failed _ => recordPaired c pairs a .error none
  | .answered run =>
    noteSaved run
    recordPaired c pairs a (run.outcome 0) run.servedModel

/-- Log the offsets that came due and were passed over, then that the fact was asked. -/
def recordAsked (c : TurnContext) (a : Ask) (planted : Option Outcome)
    (later : List (Option Outcome)) : List Int → RunM Unit
  | offset :: missed => do
    appendRow (.fact (.missed a.fact offset c.runId))
    recordAsked c a planted later missed
  | [] => appendRow (.fact (.ask a.fact a.offsetDays c.runId planted (later.getD 0 none)
      (later.getD 1 none) (later.getD 2 none)))

/-- The later sides of a fact whose planted side was asked: their outcomes, and the error that
ended them, if one did. -/
def askLaterSides (c : TurnContext) (pairs : LoadedPairs) :
    List Ask → RunM (List (Option Outcome) × Option RunError)
  | [] => return ([], none)
  | a :: rest => do
    if ← isStopped then return (none :: rest.map fun _ => none, none)
    else match ← caught (runPaired c pairs a) with
      | .ok outcome =>
        let (later, failure) ← askLaterSides c pairs rest
        return (outcome :: later, failure)
      | .error e => return (none :: rest.map fun _ => none, some e)

/-- One due fact. Once its planted side has been asked the offset is used up, even if the run
stopped, or failed, before a later ask. Whether the run stopped. -/
def askFact (c : TurnContext) (pairs : LoadedPairs) (planted : Ask) (later : List Ask) :
    RunM Bool := do
  match ← runPaired c pairs planted with
  | none => return true
  | some outcome =>
    let (outcomes, failure) ← askLaterSides c pairs later
    recordAsked c planted (some outcome) outcomes planted.missed
    match failure with
    | some e => throw e
    | none => isStopped

/-- Every due fact's asks, four a fact, up to the first stop. -/
def askPairedFacts (c : TurnContext) (pairs : LoadedPairs) : List Ask → RunM Unit
  | planted :: twin :: chance :: guess :: rest => do
    if ← askFact c pairs planted [twin, chance, guess] then return ()
    else askPairedFacts c pairs rest
  | _ => return ()

/-- What a run will do. -/
structure Plan where
  sets : List LoadedSet
  truths : Truths
  asks : List Ask
  plannedTurns : Nat
  deriving DecidableEq

def askEverything (c : TurnContext) (sha256 : Sha256) (pairs : LoadedPairs) (plan : Plan) :
    RunM Unit := do
  askItemSets c sha256 plan.truths plan.sets
  if ← isStopped then return () else askPairedFacts c pairs plan.asks

/-- Ask everything, with an error stopping the run. -/
def askOrStop (c : TurnContext) (sha256 : Sha256) (pairs : LoadedPairs) (plan : Plan) :
    RunM Unit := do
  match ← caught (askEverything c sha256 pairs plan) with
  | .ok () => return ()
  | .error e => onTally (Tally.stopEarly (ascii "stopped by an error: " ++ e.text))

structure RunRequest where
  ifDue : Bool
  only : List Bytes

/-- The pulse and the sealed sets. -/
structure RunEnv where
  config : ProbeConfig
  tz : Tz
  now : Utc
  landlock : Except Bytes Unit
  installed : List LoadedSet
  pairs : LoadedPairs

/-- The record and the runtime's stores, as one look finds them. -/
structure Look where
  record : Record
  now : Utc
  truths : Truths
  isolated : Bool

/-- What the world makes of a run: the checks before the locks, the locks, the scratch (its id is
the run's), the graph copy, and each ask. -/
structure World where
  checks : Except Bytes Unit
  locks : Except Refusal Unit
  scratch : Except Bytes Bytes
  graph : Except Bytes Unit
  attempt : Nat → Attempt

inductive Stop where
  | refused (refusal : Refusal)
  | unready (reason : Bytes)
  | failed (error : RunError)
  deriving DecidableEq

/-- Split `--only` into "paired facts wanted" and the item-set names. -/
def splitOnly (only : List Bytes) : Bool × List Bytes :=
  let isPaired (name : Bytes) : Bool := name.isPrefixOf (ascii "paired-facts") && name ≠ []
  (only.isEmpty || only.any isPaired, only.filter fun name => !isPaired name)

def named (name : Bytes) (set : LoadedSet) : Bool := set.set = name || name.isPrefixOf set.set

/-- The sets `only` names, or all of them when it is empty. -/
def select (only : List Bytes) (sets : List LoadedSet) : Except Bytes (List LoadedSet) :=
  match only.find? fun name => !sets.any (named name) with
  | some name => .error (ascii "no probe set '" ++ name ++ ascii "' (sets: " ++
      (ascii ", ").intercalate (sets.map (·.set)) ++ ascii ")")
  | none => .ok (if only.isEmpty then sets else sets.filter fun s => only.any (named · s))

def setsToAsk (only names : List Bytes) (installed : List LoadedSet) :
    Except Bytes (List LoadedSet) :=
  if names.isEmpty ∧ ¬ only.isEmpty then .ok [] else select names installed

/-- The paired asks due in a record, none when they are not wanted. -/
def asksIn (sha256 : Sha256) (pairs : LoadedPairs) (wanted : Bool) (record : Record) (now : Utc) :
    List Ask :=
  if wanted then pairs.due (pairs.factsFromRows sha256 record.facts) now else []

/-- The turns the sets and the asks come to; the sum wraps, as in the release build. -/
def planned (sha256 : Sha256) (sets : List LoadedSet) (asks : List Ask) (truths : Truths) : Nat :=
  ((sets.map fun set => set.turnsFor (draw sha256 set (ascii "plan") truths)).sum +
    min asks.length u32Max) % 2^32

def gate (env : RunEnv) (request : RunRequest) (look : Look) (plannedTurns : Nat) :
    Except Refusal Unit :=
  check { config := env.config, tz := env.tz, now := look.now, ifDue := request.ifDue
          isolated := look.isolated, landlock := env.landlock
          history := History.fromRecord look.record, plannedTurns }

/-- One look: the asks due, the turns planned, and the gate. -/
def lookAt (sha256 : Sha256) (env : RunEnv) (request : RunRequest) (wanted : Bool)
    (sets : List LoadedSet) (look : Look) : Except Stop Plan := do
  let asks := asksIn sha256 env.pairs wanted look.record look.now
  let plannedTurns := planned sha256 sets asks look.truths
  (gate env request look plannedTurns).mapError .refused
  return ⟨sets, look.truths, asks, plannedTurns⟩

/-- Load and check everything, take the locks and pass the gate under them. The first look is
without the lock and only refuses. -/
def prepare (sha256 : Sha256) (env : RunEnv) (request : RunRequest) (world : World)
    (first locked : Look) : Except Stop Plan := do
  let (wanted, names) := splitOnly request.only
  let sets ← (setsToAsk request.only names env.installed).mapError fun e => .failed (.setup e)
  let _ ← lookAt sha256 env request wanted sets first
  world.checks.mapError .unready
  world.locks.mapError .refused
  lookAt sha256 env request wanted sets locked

/-- A run that passed its gate: start row, every turn, finish row. -/
def runPlan (sha256 : Sha256) (env : RunEnv) (request : RunRequest) (world : World)
    (runId : Bytes) (plan : Plan) : RunM Unit := do
  appendRow (.run (.start runId env.now (plan.sets.map LoadedSet.label) plan.asks.length
    plan.plannedTurns request.ifDue))
  match world.graph with
  | .error e => onTally (Tally.stop .aborted (ascii "scratch graph: " ++ e))
  | .ok () => askOrStop ⟨runId, world.attempt⟩ sha256 env.pairs plan
  let tally := (← current).tally
  let (status, reason) := tally.stopped.getD (.complete, none)
  appendRow (.run (.finish runId status reason tally.turns tally.inputTokens tally.outputTokens
    tally.items))

/-- Everything the run does, in order. -/
def runEffects (sha256 : Sha256) (env : RunEnv) (request : RunRequest) (world : World)
    (runId : Bytes) (plan : Plan) : List Effect :=
  (Effects.exec (runPlan sha256 env request world runId plan) ⟨Tally.default, 0⟩ []).2.2

end PulseNull.Probe
