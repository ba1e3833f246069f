import PulseNull.Probe.Record

/-! When a probe run may happen: the quiet window, the pre-registered days, and the budget of
model turns. One function decides. -/
namespace PulseNull.Probe
open Text (ascii)

inductive ProbeCadence where
  | max | pro
  deriving DecidableEq, Repr

structure ProbeConfig where
  enabled : Bool
  user : Bytes
  cadence : ProbeCadence
  quietStart : Bytes
  quietEnd : Bytes
  weeklyTurns : Nat
  maxTurnsPerRun : Nat
  deriving DecidableEq

def ProbeConfig.default : ProbeConfig :=
  ⟨false, ascii "pulse-probe", .max, ascii "02:00", ascii "06:00", 81, 27⟩

/-- `str::parse::<u32>`. -/
def parseU32 (text : Bytes) : Option Nat :=
  let digits := if text.head? = some 43 then text.tail else text
  if digits ≠ [] ∧ digits.all Text.isDigit ∧ Text.digitsValue digits ≤ u32Max then
    some (Text.digitsValue digits)
  else none

/-- `HH:MM`, in minutes after midnight. -/
def minutesOfDay (text : Bytes) : Except Bytes Nat :=
  let bad := ascii "[probe] '" ++ text ++ ascii "' is not a time of day (HH:MM)"
  match (Text.trim text).span (· ≠ 58) with
  | (hours, 58 :: minutes) => match parseU32 hours, parseU32 minutes with
    | some h, some m => if h > 23 || m > 59 then .error bad else .ok (h * 60 + m)
    | _, _ => .error bad
  | _ => .error bad

/-- The quiet window as minutes after local midnight. -/
def ProbeConfig.quietWindow (c : ProbeConfig) : Except Bytes (Nat × Nat) := do
  return (← minutesOfDay c.quietStart, ← minutesOfDay c.quietEnd)

/-- A letter or `_`, then letters, digits, `-` or `_`, at most 32 bytes. -/
def validUser (name : Bytes) : Bool :=
  let lower (c : UInt8) : Bool := 97 ≤ c && c ≤ 122
  match name with
  | [] => false
  | first :: rest => name.length ≤ 32 && (lower first || first = 95) &&
      rest.all fun c => lower c || Text.isDigit c || c = 45 || c = 95

def ProbeConfig.validate (c : ProbeConfig) : Except Bytes Unit := do
  let (start, stop) ← c.quietWindow
  ensure (start ≠ stop)
    (ascii "[probe] quiet_start equals quiet_end: probes run only inside a quiet window")
  ensure (c.maxTurnsPerRun ≠ 0 ∧ c.weeklyTurns ≠ 0)
    (ascii "[probe] weekly_turns and max_turns_per_run must be > 0")
  ensure (c.maxTurnsPerRun ≤ c.weeklyTurns)
    (ascii "[probe] max_turns_per_run cannot exceed weekly_turns")
  ensure (validUser c.user)
    (ascii "[probe] user '" ++ c.user ++ ascii "' is not a plain account name")

/-- A timezone, from outside: the local clock of an instant in nanoseconds since the local epoch,
and the earliest instant with a local clock, when it has one. -/
structure Tz where
  localOf : Utc → Int
  earliest : Int → Option Utc

def minuteNanos : Int := 60 * 1000000000

def dayNanos : Int := 86400 * 1000000000

def Tz.date (tz : Tz) (t : Utc) : Int := tz.localOf t / dayNanos

def Tz.minute (tz : Tz) (t : Utc) : Nat := (tz.localOf t % dayNanos / minuteNanos).toNat

/-- Days since Monday. -/
def weekday (date : Int) : Int := (date + 3) % 7

/-- The Monday of `now`'s week. -/
def Tz.monday (tz : Tz) (now : Utc) : Int := tz.date now - weekday (tz.date now)

/-- Monday 00:00 of `now`'s week. -/
def weekStart (tz : Tz) (now : Utc) : Utc := (tz.earliest (tz.monday now * dayNanos)).getD now

structure PastRun where
  run : Bytes
  started : Utc
  status : Option RunStatus
  deriving DecidableEq

/-- What the record says about past runs and turns spent. -/
structure History where
  runs : List PastRun
  turns : List Utc
  broken : List (Stream × Nat)
  deriving DecidableEq

/-- A start row adds its run; a finish row sets the status of the run it finishes. -/
def applyRunRow (runs : List PastRun) : RunRow → List PastRun
  | .start run time _ _ _ _ => runs ++ [⟨run, time, none⟩]
  | .finish run status _ _ _ _ _ => match runs.findIdx? (·.run = run) with
    | some i => runs.modify i fun past => { past with status := some status }
    | none => runs

def pastRuns (rows : List RunRow) : List PastRun := rows.foldl applyRunRow []

/-- Rows appended whole all verify: no stream is broken. -/
def History.fromRecord (record : Record) : History :=
  ⟨pastRuns record.runs, record.budget.map BudgetRow.time, []⟩

/-- Why a run was refused. -/
inductive Refusal where
  | disabled
  | badConfig (reason : Bytes)
  | isolated
  | noLandlock (reason : Bytes)
  | outsideQuietWindow (minute : Nat) (window : Nat × Nat)
  | notDue (reason : Bytes)
  | runTooLarge (planned max : Nat)
  | overBudget (used planned weekly : Nat)
  | locked
  | hostBusy
  | brokenRecord (stream : Stream) (line : Nat)
  deriving DecidableEq

structure GateInput where
  config : ProbeConfig
  tz : Tz
  now : Utc
  ifDue : Bool
  isolated : Bool
  landlock : Except Bytes Unit
  history : History
  plannedTurns : Nat

/-- Probes on, a valid config, an intact record, no isolation, Landlock. -/
def checkState (input : GateInput) : Except Refusal Unit := do
  ensure input.config.enabled .disabled
  input.config.validate.mapError .badConfig
  match input.history.broken with
  | (stream, line) :: _ => throw (.brokenRecord stream line)
  | [] => pure ()
  ensure (!input.isolated) .isolated
  input.landlock.mapError .noLandlock

/-- A window that wraps midnight when its end is before its start. -/
def isQuietHour (hour start stop : Nat) : Bool :=
  if start = stop then false
  else if start < stop then hour ≥ start && hour < stop
  else hour ≥ start || hour < stop

def checkWindow (input : GateInput) : Except Refusal Unit := do
  let (start, stop) ← input.config.quietWindow.mapError .badConfig
  let minute := input.tz.minute input.now
  ensure (isQuietHour minute start stop) (.outsideQuietWindow minute (start, stop))

def weekdayName (date : Int) : Bytes :=
  ascii (["Monday", "Tuesday", "Wednesday", "Thursday", "Friday", "Saturday", "Sunday"].getD
    (weekday date).toNat "")

def signedDecimal (n : Int) : Bytes := (if n < 0 then ascii "-" else []) ++ Text.decimal n.natAbs

/-- Is a scheduled run due? -/
def due (cadence : ProbeCadence) (tz : Tz) (now : Utc) (history : History) : Except Bytes Unit :=
  let counted := history.runs.filter fun r => r.status.any RunStatus.producedResults
  match cadence with
  | .max => do
    let date := tz.date now
    ensure (weekday date = 0 ∨ weekday date = 2 ∨ weekday date = 4)
      (weekdayName date ++ ascii " is not a probe day (Monday, Wednesday, Friday)")
    ensure (!counted.any fun r => tz.date r.started = date) (ascii "a run already finished today")
  | .pro => match (counted.map PastRun.started).max? with
    | some last => ensure (¬ now - last < 14 * dayNanos)
        (ascii "the last run was " ++ signedDecimal ((now - last).tdiv dayNanos) ++
          ascii " days ago (every 14 days)")
    | none => .ok ()

/-- Turns spent since this week's Monday. -/
def turnsThisWeek (history : History) (tz : Tz) (now : Utc) : Nat :=
  min (history.turns.countP fun t => weekStart tz now ≤ t) u32Max

/-- The run's turns fit the per-run cap and this week's budget. -/
def checkTurns (input : GateInput) : Except Refusal Unit := do
  ensure (input.plannedTurns ≤ input.config.maxTurnsPerRun)
    (.runTooLarge input.plannedTurns input.config.maxTurnsPerRun)
  let used := turnsThisWeek input.history input.tz input.now
  ensure ((used + input.plannedTurns) % 2^32 ≤ input.config.weeklyTurns)
    (.overBudget used input.plannedTurns input.config.weeklyTurns)

/-- May this run happen now? -/
def check (input : GateInput) : Except Refusal Unit := do
  checkState input
  checkWindow input
  if input.ifDue then
    (due input.config.cadence input.tz input.now input.history).mapError .notDue
  checkTurns input

/-- A run that passes the gate fits the cap and what is left of the week. -/
theorem check_turns {input : GateInput} (h : check input = .ok ()) :
    input.plannedTurns ≤ input.config.maxTurnsPerRun ∧
      (turnsThisWeek input.history input.tz input.now + input.plannedTurns) % 2^32 ≤
        input.config.weeklyTurns := by
  obtain ⟨_, _, h⟩ := bind_eq_ok.mp h
  obtain ⟨_, _, h⟩ := bind_eq_ok.mp h
  have hturns : checkTurns input = .ok () := by
    split at h
    · exact (bind_eq_ok.mp h).choose_spec.2
    · exact h
  obtain ⟨_, hmax, hweek⟩ := bind_eq_ok.mp hturns
  exact ⟨ensure_eq_ok.mp hmax, ensure_eq_ok.mp hweek⟩

example : ProbeConfig.default.validate = .ok () := by decide

end PulseNull.Probe
