import PulseNull.Text.Chars

/-! The tension store: live threads with accumulated pressure, what raises it and the one
operation that lowers it. Times are nanoseconds. -/
namespace PulseNull.Tension
open Text (ascii)

abbrev Time := Int

def maxTension : Float := 1000
def maxAgeWeight : Float := 64
def maxTicksPerUpdate : Float := 72
def tickIntervalMinutes : Float := 20
def reachMinAgeCycles : Nat := 10
def maxWorkLog : Nat := 10
def triageCandidates : Nat := 5

structure TensionConfig where
  baseRate : Float
  ageWeightHalf : Float
  workCredit : Float
  maxLiveThreads : Nat

/-- How a thread came to exist. -/
inductive ThreadOrigin where
  | predictionError (id : Bytes)
  | openQuestion (reference : Bytes)
  | callback (reference : Bytes)
  | adverse (reference : Bytes)
  | userRaised (reference : Bytes)
  deriving DecidableEq

/-- How a thread stopped being live. -/
inductive ThreadResolution where
  | answered
  | dissolved
  | superseded (by_ : Bytes)
  | abandoned
  deriving DecidableEq

/-- The evidence, outside any text, that a thread was worked. -/
inductive WorkArtifact where
  | fileDiff (path : Bytes) (modifiedAt : Time)
  | resolvedPrediction (predictionId : Bytes)
  | toolResult (tool : Bytes) (rounds : Nat)
  deriving DecidableEq

/-- One credited discharge. -/
structure WorkRecord where
  creditedAt : Time
  cycle : Nat
  artifact : WorkArtifact
  tensionAfter : Float

structure Thread where
  id : Bytes
  label : Bytes
  content : Bytes
  origin : ThreadOrigin
  createdAt : Time
  lastTouched : Time
  touchCount : Nat
  tension : Float
  resolvedAt : Option Time
  resolution : Option ThreadResolution
  resolutionReason : Option Bytes
  createdCycle : Nat
  lastWorkedCycle : Option Nat
  mentionCount : Nat
  workLog : List WorkRecord

structure ThreadDraft where
  label : Bytes
  content : Bytes
  origin : ThreadOrigin

structure TriageCandidate where
  id : Bytes
  label : Bytes
  tension : Float
  ageHours : Float

structure TriageDemand where
  raisedAt : Time
  liveCount : Nat
  cap : Nat
  candidates : List TriageCandidate

structure CycleLedger where
  cyclesRun : Nat
  lastSelected : Option Bytes
  reachCycles : Nat
  lastCycleAt : Option Time

/-- One refused marker, owed to the next prompt. -/
structure RefusalNotice where
  marker : Bytes
  threadId : Bytes
  reason : Bytes

structure TensionStore where
  threads : List Thread
  cycles : CycleLedger
  lastTickAt : Option Time
  triage : Option TriageDemand
  lastRefusals : List RefusalNotice
  config : TensionConfig

inductive OpenOutcome where
  | opened (id : Bytes)
  | alreadyOpen (id : Bytes)
  | openedOverCap (id : Bytes) (liveCount : Nat)

inductive WorkOutcome where
  | credited (tensionAfter : Float)
  | alreadyCreditedThisCycle
  | alreadyResolved
  | unknownThread

inductive ResolveOutcome where
  | resolved | alreadyResolved | unknownThread

/-- The verdict that retires a thread, with what each kind of claim needs. -/
inductive ResolutionVerdict where
  | answered (artifact : WorkArtifact)
  | dissolved (reason : Bytes)
  | superseded (by_ : Bytes) (artifact : WorkArtifact)
  | abandoned (reason : Bytes)

/-- What the store takes from outside: new ids, never one in use, and the texts of its keys and
numbers. -/
structure Source where
  mint : List Bytes → Bytes
  fresh : ∀ used, mint used ∉ used
  normalizeLabel : Bytes → Bytes
  twoDecimals : Float → Bytes

/-! Arithmetic, as on `f64`. -/

def fmax (a b : Float) : Float :=
  if a.isNaN then b else if b.isNaN then a else if a < b then b else a

def clamp (x lo hi : Float) : Float :=
  let x := if x < lo then lo else x
  if x > hi then hi else x

/-- The order of `total_cmp`. -/
def totalKey (x : Float) : Int :=
  let bits := x.toBits.toNat
  if bits < 2^63 then bits else -1 - (bits - 2^63 : Nat)

/-- Whole seconds, toward zero. -/
def numSeconds (span : Time) : Int := span.tdiv 1000000000

def hours (span : Time) : Float := fmax (Float.ofInt (numSeconds span) / 3600) 0

def satSucc (width n : Nat) : Nat := if n + 1 < 2^width then n + 1 else n

/-! Threads. -/

namespace Thread

def isLive (t : Thread) : Bool := t.resolution.isNone
def hoursUntouched (t : Thread) (now : Time) : Float := hours (now - t.lastTouched)
def ageHours (t : Thread) (now : Time) : Float := hours (now - t.createdAt)

def mention (t : Thread) : Thread := { t with mentionCount := satSucc 32 t.mentionCount }

/-- The last records only. -/
def logWork (t : Thread) (record : WorkRecord) : Thread :=
  let log := t.workLog ++ [record]
  { t with workLog := log.drop (log.length - maxWorkLog) }

/-- The one discharge of a thread in a cycle. -/
def credit (t : Thread) (config : TensionConfig) (cycle : Nat) (artifact : WorkArtifact)
    (now : Time) : Thread :=
  let tension := clamp (t.tension - fmax config.workCredit 0) 0 maxTension
  { t with
    tension := tension
    lastTouched := now
    touchCount := satSucc 32 t.touchCount
    lastWorkedCycle := some cycle }.logWork ⟨now, cycle, artifact, tension⟩

end Thread

def ResolutionVerdict.resolution : ResolutionVerdict → ThreadResolution
  | .answered _ => .answered
  | .dissolved _ => .dissolved
  | .superseded by_ _ => .superseded by_
  | .abandoned _ => .abandoned

def ResolutionVerdict.reason : ResolutionVerdict → Option Bytes
  | .answered _ | .superseded _ _ => none
  | .dissolved reason | .abandoned reason => some reason

def ResolutionVerdict.artifact : ResolutionVerdict → Option WorkArtifact
  | .answered artifact | .superseded _ artifact => some artifact
  | .dissolved _ | .abandoned _ => none

/-- Tombstone a thread with its verdict. -/
def Thread.retire (t : Thread) (cycle : Nat) (verdict : ResolutionVerdict) (now : Time) : Thread :=
  let t := match verdict.artifact with
    | some artifact => t.logWork ⟨now, cycle, artifact, t.tension⟩
    | none => t
  { t with
    resolvedAt := some now
    resolution := some verdict.resolution
    resolutionReason := verdict.reason }

/-- Change the first item that `p` finds. -/
def modifyFirst {α : Type} (p : α → Bool) (f : α → α) : List α → List α
  | [] => []
  | a :: as => if p a then f a :: as else a :: modifyFirst p f as

/-- `2^(hours untouched / half)`, bounded. -/
def ageWeight (hoursUntouched half : Float) : Float :=
  if half.isNaN || half ≤ 0 || !hoursUntouched.isFinite then 1
  else
    let weight := Float.pow 2 (fmax hoursUntouched 0 / half)
    if weight.isFinite then clamp weight 1 maxAgeWeight else maxAgeWeight

/-! The store. -/

namespace TensionStore

def live (s : TensionStore) : List Thread := s.threads.filter Thread.isLive
def liveCount (s : TensionStore) : Nat := s.live.length

def find (s : TensionStore) (id : Bytes) : Option Thread := s.threads.find? (·.id = id)

/-- Change the thread of an id. -/
def modify (s : TensionStore) (id : Bytes) (f : Thread → Thread) : TensionStore :=
  { s with threads := modifyFirst (·.id = id) f s.threads }

/-- The highest-tension live threads, the older first among equals. -/
def topK (s : TensionStore) (k : Nat) : List Thread :=
  (s.live.mergeSort fun a b => totalKey b.tension < totalKey a.tension ||
    (totalKey a.tension = totalKey b.tension && a.createdAt ≤ b.createdAt)).take k

/-- Raise or refresh the cap obligation. A refreshed one keeps its clock. -/
def raiseTriage (s : TensionStore) (liveCount : Nat) (now : Time) : TensionStore :=
  let byPressure := s.live.mergeSort fun a b => totalKey a.tension < totalKey b.tension ||
    (totalKey a.tension = totalKey b.tension && a.createdAt ≤ b.createdAt)
  { s with triage := some {
      raisedAt := s.triage.elim now TriageDemand.raisedAt
      liveCount := liveCount
      cap := s.config.maxLiveThreads
      candidates := (byPressure.take triageCandidates).map fun t =>
        ⟨t.id, t.label, t.tension, t.ageHours now⟩ } }

def newThread (s : TensionStore) (id : Bytes) (draft : ThreadDraft) (now : Time) : Thread where
  id := id
  label := draft.label
  content := draft.content
  origin := draft.origin
  createdAt := now
  lastTouched := now
  touchCount := 0
  tension := 0
  resolvedAt := none
  resolution := none
  resolutionReason := none
  createdCycle := s.cycles.cyclesRun
  lastWorkedCycle := none
  mentionCount := 0
  workLog := []

/-- A live thread of the same origin or label. -/
def sameThread (src : Source) (draft : ThreadDraft) (t : Thread) : Bool :=
  t.isLive && (t.origin = draft.origin ||
    src.normalizeLabel t.label = src.normalizeLabel draft.label)

/-- Open a thread. One already open is mentioned instead. -/
def openThread (src : Source) (s : TensionStore) (draft : ThreadDraft) (now : Time) :
    TensionStore × OpenOutcome :=
  match s.threads.find? (sameThread src draft) with
  | some existing =>
    ({ s with threads := modifyFirst (sameThread src draft) Thread.mention s.threads },
      .alreadyOpen existing.id)
  | none =>
    let id := src.mint (s.threads.map Thread.id)
    let grown := { s with threads := s.threads ++ [s.newThread id draft now] }
    if s.config.maxLiveThreads < grown.liveCount then
      (grown.raiseTriage grown.liveCount now, .openedOverCap id grown.liveCount)
    else (grown, .opened id)

/-- Record that a thread was named. It moves the mention counter and nothing else. -/
def noteMention (s : TensionStore) (id : Bytes) : TensionStore := s.modify id Thread.mention

def tickPeriodsSince (s : TensionStore) (now : Time) : Float :=
  match s.lastTickAt with
  | none => 1
  | some previous =>
    clamp (Float.ofInt (numSeconds (now - previous)) / 60 / tickIntervalMinutes) 0 maxTicksPerUpdate

/-- The accrual of one thread. -/
def accrue (s : TensionStore) (now : Time) (t : Thread) : Thread :=
  let accrual := fmax s.config.baseRate 0 *
    ageWeight (t.hoursUntouched now) s.config.ageWeightHalf * s.tickPeriodsSince now
  if t.isLive && accrual.isFinite then
    { t with tension := clamp (t.tension + accrual) 0 maxTension }
  else t

/-- The update law of a tick. -/
def tick (s : TensionStore) (now : Time) : TensionStore :=
  { s with threads := s.threads.map (s.accrue now), lastTickAt := some now }

/-- Apply one discharge to a thread, against an artifact. -/
def creditWork (s : TensionStore) (id : Bytes) (artifact : WorkArtifact) (now : Time) :
    TensionStore × WorkOutcome :=
  match s.find id with
  | none => (s, .unknownThread)
  | some t =>
    if !t.isLive then (s, .alreadyResolved)
    else if t.lastWorkedCycle = some s.cycles.cyclesRun then (s, .alreadyCreditedThisCycle)
    else
      (s.modify id fun t => t.credit s.config s.cycles.cyclesRun artifact now,
        .credited (t.credit s.config s.cycles.cyclesRun artifact now).tension)

/-- Retaking an outstanding demand after a thread was retired. -/
def retakeTriage (s : TensionStore) (now : Time) : TensionStore :=
  if s.triage.isNone then s
  else if s.liveCount ≤ s.config.maxLiveThreads then { s with triage := none }
  else s.raiseTriage s.liveCount now

/-- Retire a thread with its verdict. -/
def resolve (s : TensionStore) (id : Bytes) (verdict : ResolutionVerdict) (now : Time) :
    TensionStore × ResolveOutcome :=
  match s.find id with
  | none => (s, .unknownThread)
  | some t =>
    if !t.isLive then (s, .alreadyResolved)
    else
      ((s.modify id fun t => t.retire s.cycles.cyclesRun verdict now).retakeTriage now, .resolved)

/-- Record that a cycle starts: the counter, the selection and the reach tally. -/
def recordCycle (s : TensionStore) (now : Time) : TensionStore :=
  let cycle := satSucc 64 s.cycles.cyclesRun
  let selected := (s.topK 1).head?
  let reached := selected.any fun t =>
    s.cycles.lastSelected ≠ some t.id && reachMinAgeCycles < cycle - t.createdCycle
  { s with cycles := {
      cyclesRun := cycle
      lastSelected := selected.map Thread.id
      reachCycles := if reached then satSucc 64 s.cycles.reachCycles else s.cycles.reachCycles
      lastCycleAt := some now } }

end TensionStore
end PulseNull.Tension
