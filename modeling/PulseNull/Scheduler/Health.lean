import Mathlib.Data.List.AList
import PulseNull.Session.Archive

/-! Liveness of the scheduled tasks: the health store and the rules that turn it into alerts. -/
namespace PulseNull.Scheduler

/-- Nanoseconds since the epoch. -/
abbrev Instant := Int

def maxErrorLen : Nat := 300
def lateBackoffMultiplier : Nat := 4
def outcomeWindowCapacity : Nat := 20

structure LivenessConfig where
  alertAfterConsecutiveFailures : Nat
  globalSilenceAlertHours : Nat
  alertBackoffHours : Nat
  flapEnabled : Bool
  flapWindowSize : Nat
  flapWindowHours : Nat
  flapMinSamples : Nat
  flapMinSuccessPercent : Nat

structure OutcomeRecord where
  finishedAt : Instant
  ok : Bool
  deriving DecidableEq

/-- A recovery of a task awaiting its message. -/
structure Resolution where
  failures : Nat
  streakStarted : Option Instant
  recoveredAt : Instant
  deriving DecidableEq

structure TaskHealth where
  taskName : Bytes
  consecutiveFailures : Nat
  lastSuccess : Option Instant
  lastFailure : Option Instant
  firstFailureOfStreak : Option Instant
  lastAlertAt : Option Instant
  alertsSentThisStreak : Nat
  lastError : Option Bytes
  pendingResolution : Option Resolution
  recentOutcomes : List OutcomeRecord
  flapLastAlertAt : Option Instant
  flapAlertsSent : Nat
  flapBaselineAt : Option Instant
  deriving DecidableEq

def TaskHealth.new : TaskHealth :=
  ⟨[], 0, none, none, none, none, 0, none, none, [], none, 0, none⟩

/-- The success that ended an alerted silence of every task. -/
structure GlobalResolution where
  silentSince : Instant
  recoveredAt : Instant
  taskId : Bytes
  deriving DecidableEq

structure GlobalHealth where
  lastAlertAt : Option Instant
  alertsSent : Nat
  pendingResolution : Option GlobalResolution
  deriving DecidableEq

def GlobalHealth.new : GlobalHealth := ⟨none, 0, none⟩

structure TaskHealthStore where
  createdAt : Instant
  tasks : AList fun _ : Bytes => TaskHealth
  global : GlobalHealth

def TaskHealthStore.new (createdAt : Instant) : TaskHealthStore := ⟨createdAt, ∅, .new⟩

/-- A counter of 32 bits stays at its top. -/
def saturatingSucc (n : Nat) : Nat := min (n + 1) (2^32 - 1)

/-- At most a year. -/
def hours (value : Nat) : Int := (min value 8760 : Nat) * 3600000000000

def storedError (error : Bytes) : Bytes := Session.safeTruncate error maxErrorLen

/-- The newest outcomes, oldest first. -/
def pushOutcome (outcomes : List OutcomeRecord) (finishedAt : Instant) (ok : Bool) :
    List OutcomeRecord :=
  let outcomes := outcomes ++ [⟨finishedAt, ok⟩]
  outcomes.drop (outcomes.length - outcomeWindowCapacity)

namespace TaskHealthStore

def entry (s : TaskHealthStore) (taskId taskName : Bytes) : TaskHealth :=
  let health := (s.tasks.lookup taskId).getD .new
  if taskName = [] then health else { health with taskName := taskName }

/-- The newest success of any task. -/
def lastSuccessAny (s : TaskHealthStore) : Option Instant :=
  (s.tasks.entries.filterMap fun e => e.2.lastSuccess).max?

/-- The start of the silence: the last success, or the creation of the store. -/
def silentSince (s : TaskHealthStore) : Instant := s.lastSuccessAny.getD s.createdAt

/-- Ends the task's streak and every silence, and queues the recovery of each that had alerted. -/
def recordSuccess (s : TaskHealthStore) (taskId taskName : Bytes) (now : Instant) :
    TaskHealthStore :=
  let silenceAlerted := 0 < s.global.alertsSent
  let health := s.entry taskId taskName
  let resolution := if 0 < health.alertsSentThisStreak then
      some ⟨health.consecutiveFailures, health.firstFailureOfStreak, now⟩
    else health.pendingResolution
  { s with
    tasks := s.tasks.insert taskId { health with
      pendingResolution := resolution
      consecutiveFailures := 0
      firstFailureOfStreak := none
      lastAlertAt := none
      alertsSentThisStreak := 0
      lastSuccess := some now
      recentOutcomes := pushOutcome health.recentOutcomes now true }
    global := { GlobalHealth.new with
      pendingResolution := if silenceAlerted then some ⟨s.silentSince, now, taskId⟩ else none } }

def recordFailure (s : TaskHealthStore) (taskId taskName error : Bytes) (now : Instant) :
    TaskHealthStore :=
  let health := s.entry taskId taskName
  let health := if health.consecutiveFailures = 0 then
      { health with
        firstFailureOfStreak := some now, lastAlertAt := none, alertsSentThisStreak := 0 }
    else health
  { s with
    tasks := s.tasks.insert taskId { health with
      consecutiveFailures := saturatingSucc health.consecutiveFailures
      lastFailure := some now
      lastError := some (storedError error)
      recentOutcomes := pushOutcome health.recentOutcomes now false } }

end TaskHealthStore

/-! Alerts. -/

structure FlapWindow where
  failures : Nat
  total : Nat
  started : Instant
  ended : Instant
  deriving DecidableEq

/-- The share that succeeded, rounded down. -/
def FlapWindow.successPercent (w : FlapWindow) : Nat :=
  if w.total = 0 then 100 else (w.total - w.failures) * 100 / w.total

inductive FlapVerdict where
  | insufficient
  | healthy (window : FlapWindow)
  | flapping (window : FlapWindow)
  deriving DecidableEq

inductive LivenessAlert where
  | taskFailing (taskId taskName : Bytes) (consecutiveFailures : Nat)
      (streakStarted : Option Instant) (lastError : Option Bytes) (again : Nat)
  | taskRecovered (taskId taskName : Bytes) (failures : Nat) (streakStarted : Option Instant)
      (recoveredAt : Instant)
  | taskFlapping (taskId taskName : Bytes) (window : FlapWindow) (lastError : Option Bytes)
      (again : Nat)
  | taskFlapResolved (taskId taskName : Bytes) (window : FlapWindow)
  | globalSilence (since : Instant) (silentFor : Int) (everSucceeded : Bool) (enabledTasks again : Nat)
  | globalRecovered (since : Instant) (silentFor : Int) (taskId : Bytes)
  deriving DecidableEq

def LivenessAlert.isRecovery : LivenessAlert → Bool
  | .globalRecovered _ _ _ => true
  | _ => false

def backoff (alertsSent : Nat) (config : LivenessConfig) : Int :=
  if alertsSent ≤ 1 then hours config.alertBackoffHours
  else hours (min (config.alertBackoffHours * lateBackoffMultiplier) (2^64 - 1))

/-- The first alert is always due; another one waits. -/
def alertDue (lastAlertAt : Option Instant) (alertsSent : Nat) (config : LivenessConfig)
    (now : Instant) : Bool :=
  match lastAlertAt with
  | none => true
  | some sentAt => backoff alertsSent config ≤ now - sentAt

/-- The cycles of the window that the streak rule has not reported. -/
def flapVerdict (health : TaskHealth) (config : LivenessConfig) (now : Instant) : FlapVerdict :=
  if !config.flapEnabled then .insufficient
  else
    let horizon := now - hours config.flapWindowHours
    let judged := health.recentOutcomes.filter fun o =>
      horizon ≤ o.finishedAt && health.flapBaselineAt.all fun baseline => baseline < o.finishedAt
    let size := max 1 (min config.flapWindowSize outcomeWindowCapacity)
    let sample := judged.drop (judged.length - size)
    match sample.head?, sample.getLast? with
    | some first, some last =>
      if sample.length < max config.flapMinSamples 2 then .insufficient
      else
        let window : FlapWindow :=
          ⟨sample.countP fun o => !o.ok, sample.length, first.finishedAt, last.finishedAt⟩
        if window.successPercent < config.flapMinSuccessPercent then .flapping window
        else .healthy window
    | _, _ => .insufficient

def pendingFlapAlert (taskId : Bytes) (health : TaskHealth) (config : LivenessConfig)
    (now : Instant) : Option LivenessAlert :=
  match flapVerdict health config now with
  | .flapping window =>
    if alertDue health.flapLastAlertAt health.flapAlertsSent config now then
      some (.taskFlapping taskId health.taskName window health.lastError health.flapAlertsSent)
    else none
  | .healthy window =>
    if 0 < health.flapAlertsSent then some (.taskFlapResolved taskId health.taskName window)
    else none
  | .insufficient => none

namespace TaskHealthStore

/-- A recovery first, then the streak rule, then the flap rule. -/
def pendingTaskAlert (s : TaskHealthStore) (taskId : Bytes) (config : LivenessConfig)
    (now : Instant) : Option LivenessAlert := do
  let health ← s.tasks.lookup taskId
  match health.pendingResolution with
  | some r => some (.taskRecovered taskId health.taskName r.failures r.streakStarted r.recoveredAt)
  | none =>
    if config.alertAfterConsecutiveFailures ≤ health.consecutiveFailures then
      if alertDue health.lastAlertAt health.alertsSentThisStreak config now then
        some (.taskFailing taskId health.taskName health.consecutiveFailures
          health.firstFailureOfStreak health.lastError health.alertsSentThisStreak)
      else none
    else pendingFlapAlert taskId health config now

/-- Commit a task alert that reached the operator. -/
def markTaskAlertDelivered (s : TaskHealthStore) (taskId : Bytes) (alert : LivenessAlert)
    (now : Instant) : TaskHealthStore :=
  match s.tasks.lookup taskId with
  | none => s
  | some health =>
    let set (health : TaskHealth) := { s with tasks := s.tasks.insert taskId health }
    match alert with
    | .taskRecovered _ _ _ _ _ => set { health with pendingResolution := none }
    | .taskFailing _ _ _ _ _ _ => set { health with
        lastAlertAt := some now
        alertsSentThisStreak := saturatingSucc health.alertsSentThisStreak
        flapBaselineAt := some now }
    | .taskFlapping _ _ _ _ _ => set { health with
        flapLastAlertAt := some now
        flapAlertsSent := saturatingSucc health.flapAlertsSent }
    | .taskFlapResolved _ _ _ => set { health with
        flapLastAlertAt := none, flapAlertsSent := 0, flapBaselineAt := some now }
    | .globalSilence _ _ _ _ _ | .globalRecovered _ _ _ => s

/-- A recovery first; then silence, while a task is enabled. -/
def pendingGlobalAlert (s : TaskHealthStore) (config : LivenessConfig) (enabledTasks : Nat)
    (now : Instant) : Option LivenessAlert :=
  match s.global.pendingResolution with
  | some r => some (.globalRecovered r.silentSince (r.recoveredAt - r.silentSince) r.taskId)
  | none =>
    if enabledTasks = 0 then none
    else if now - s.silentSince < hours config.globalSilenceAlertHours then none
    else if alertDue s.global.lastAlertAt s.global.alertsSent config now then
      some (.globalSilence s.silentSince (now - s.silentSince) s.lastSuccessAny.isSome enabledTasks
        s.global.alertsSent)
    else none

/-- Commit a global alert that reached the operator. -/
def markGlobalAlertDelivered (s : TaskHealthStore) (alert : LivenessAlert) (now : Instant) :
    TaskHealthStore :=
  match alert with
  | .globalRecovered _ _ _ => { s with global := { s.global with pendingResolution := none } }
  | .globalSilence _ _ _ _ _ => { s with
      global := { s.global with
        lastAlertAt := some now, alertsSent := saturatingSucc s.global.alertsSent } }
  | .taskFailing _ _ _ _ _ _ | .taskRecovered _ _ _ _ _ | .taskFlapping _ _ _ _ _
  | .taskFlapResolved _ _ _ => s

/-! What each operation does to the global rule. -/

@[simp] theorem global_recordFailure (s : TaskHealthStore) (taskId taskName error : Bytes)
    (now : Instant) : (s.recordFailure taskId taskName error now).global = s.global := rfl

@[simp] theorem global_recordSuccess (s : TaskHealthStore) (taskId taskName : Bytes) (now : Instant) :
    (s.recordSuccess taskId taskName now).global = ⟨none, 0,
      if 0 < s.global.alertsSent then some ⟨s.silentSince, now, taskId⟩ else none⟩ := rfl

@[simp] theorem global_markTaskAlertDelivered (s : TaskHealthStore) (taskId : Bytes)
    (alert : LivenessAlert) (now : Instant) :
    (s.markTaskAlertDelivered taskId alert now).global = s.global := by
  unfold markTaskAlertDelivered
  cases s.tasks.lookup taskId with
  | none => rfl
  | some health => cases alert <;> rfl

/-- What is due is a recovery exactly while one is pending; else a silence. -/
theorem pendingGlobalAlert_cases {s : TaskHealthStore} {config : LivenessConfig}
    {enabledTasks : Nat} {now : Instant} {alert : LivenessAlert}
    (h : s.pendingGlobalAlert config enabledTasks now = some alert) :
    (∃ r, s.global.pendingResolution = some r ∧ alert =
      .globalRecovered r.silentSince (r.recoveredAt - r.silentSince) r.taskId) ∨
    (s.global.pendingResolution = none ∧ ∃ everSucceeded,
      alert = .globalSilence s.silentSince (now - s.silentSince) everSucceeded enabledTasks
        s.global.alertsSent) := by
  unfold pendingGlobalAlert at h
  cases hr : s.global.pendingResolution with
  | some r =>
    rw [hr] at h
    exact .inl ⟨r, rfl, (Option.some.inj h).symm⟩
  | none =>
    rw [hr] at h
    dsimp only at h
    split at h
    · cases h
    · split at h
      · cases h
      · split at h
        · exact .inr ⟨rfl, _, (Option.some.inj h).symm⟩
        · cases h

end TaskHealthStore

end PulseNull.Scheduler
