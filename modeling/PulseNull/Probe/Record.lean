import PulseNull.Probe.Sets

/-! The rows of the probe record, and the record as the verified rows of its four files. -/
namespace PulseNull.Probe

/-- An instant, in nanoseconds since the epoch. -/
abbrev Utc := Int

inductive Stream where
  | runs | items | facts | budget
  deriving DecidableEq, Repr

/-- How one answer scored. -/
inductive Outcome where
  | correct | wrong | unknown | unanswered | noTruth | void | error
  deriving DecidableEq, Repr

/-- Does this outcome count towards n? -/
def Outcome.counts : Outcome → Bool
  | .correct | .wrong | .unknown | .unanswered => true
  | .noTruth | .void | .error => false

/-- How a run ended, as its finish row says it. -/
inductive RunStatus where
  | complete | partialRun | aborted
  deriving DecidableEq, Repr

/-- Does a run that ended this way count as having happened? -/
def RunStatus.producedResults : RunStatus → Bool
  | .complete | .partialRun => true
  | .aborted => false

/-- Which side of a paired fact an ask is about. -/
inductive SideRole where
  | planted | twin | chance | guess
  deriving DecidableEq, Repr

inductive RunRow where
  | start (run : Bytes) (time : Utc) (sets : List Bytes) (pairedAsks plannedTurns : Nat) (ifDue : Bool)
  | finish (run : Bytes) (status : RunStatus) (reason : Option Bytes)
      (turns inputTokens outputTokens items : Nat)
  deriving DecidableEq

structure BudgetRow where
  time : Utc
  run : Bytes
  set : Bytes
  arm : Arm
  inputTokens : Option Nat
  outputTokens : Option Nat
  deriving DecidableEq

/-- One scored answer: to a set's item, or to a side of a paired fact. -/
inductive ItemRow where
  | item (run set item : Bytes) (arm : Arm) (outcome : Outcome) (servedModel : Option Bytes)
  | paired (run set : Bytes) (arm : Arm) (side : SideRole) (fact : Bytes) (offsetDays : Int)
      (outcome : Outcome) (servedModel : Option Bytes)
  deriving DecidableEq

inductive FactRow where
  | draw (fact : Bytes) (time : Utc) (assignment : Bytes)
  | plant (fact : Bytes) (value : Bytes) (plantedAt : Utc)
  | missed (fact : Bytes) (offsetDays : Int) (run : Bytes)
  | ask (fact : Bytes) (offsetDays : Int) (run : Bytes) (planted twin chance guess : Option Outcome)
  deriving DecidableEq

inductive Row where
  | run (row : RunRow)
  | item (row : ItemRow)
  | fact (row : FactRow)
  | budget (row : BudgetRow)
  deriving DecidableEq

/-- The verified rows of each file, oldest first. -/
structure Record where
  runs : List RunRow
  items : List ItemRow
  facts : List FactRow
  budget : List BudgetRow
  deriving DecidableEq

def Record.empty : Record := ⟨[], [], [], []⟩

/-- Append one row to its file. -/
def Record.append (record : Record) : Row → Record
  | .run row => { record with runs := record.runs ++ [row] }
  | .item row => { record with items := record.items ++ [row] }
  | .fact row => { record with facts := record.facts ++ [row] }
  | .budget row => { record with budget := record.budget ++ [row] }

end PulseNull.Probe
