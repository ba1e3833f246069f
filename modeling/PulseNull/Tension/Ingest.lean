import PulseNull.Tension.Markers

/-! Thread ingest and the discharge firewall: a marker is a claim, and what it names is checked. -/
namespace PulseNull.Tension
open Text (ascii trim)

def journalDir : Bytes := ascii "journal"

/-- Journal documents that may live at the pulse root. -/
def journalFiles : List Bytes :=
  ["LEARNING.md", "THOUGHTS.md", "CURIOSITY.md", "REFLECTIONS.md", "PRAXIS.md", "LOGBOOK.md",
    "EPHEMERAL.md", "FINDINGS.md", "MEMORY.md", "SELF.md", "THOUGHT_STACK.md", "CALLBACK.md"].map
    ascii

/-- Which side of the ladder a refusal is a fact about. -/
inductive RejectionSide where
  | claimantConduct | channelCapability
  deriving DecidableEq

inductive EvidenceRejection where
  | noEvidence
  | pathOutsidePulse (path : Bytes)
  | pathInJournal (path : Bytes)
  | fileMissing (path : Bytes)
  | fileUnchanged (path : Bytes)
  | predictionNotResolved (id : Bytes)
  | noToolRan (tool : Bytes)
  | toolRoundsUnobservable (tool : Bytes)
  deriving DecidableEq

namespace EvidenceRejection

def side : EvidenceRejection → RejectionSide
  | .toolRoundsUnobservable _ => .channelCapability
  | _ => .claimantConduct

def emDash : Bytes := [32, 226, 128, 148, 32]

def message : EvidenceRejection → Bytes
  | .noEvidence => ascii "claim: no artifact named" ++ emDash ++
      ascii "discharge needs a file changed outside the journal, or a tool that ran"
  | .pathOutsidePulse p => ascii "claim: path '" ++ p ++ ascii "' is not inside the pulse root"
  | .pathInJournal p => ascii "claim: path '" ++ p ++
      ascii "' is journal text; writing about a thread is not working it"
  | .fileMissing p => ascii "claim: file '" ++ p ++ ascii "' does not exist"
  | .fileUnchanged p => ascii "claim: file '" ++ p ++ ascii "' was not modified during this cycle"
  | .predictionNotResolved id =>
    ascii "claim: prediction '" ++ id ++ ascii "' did not resolve during this cycle"
  | .noToolRan t => ascii "claim: no tool ran this cycle, so '" ++ t ++ ascii "' cannot be evidence"
  | .toolRoundsUnobservable t => ascii "channel: '" ++ t ++
      ascii "' may have run, but this runtime's agent CLI runs its own tools and reports no tool rounds, so the tool rung cannot verify it" ++
      emDash ++ ascii "name the file it changed"

end EvidenceRejection

/-! Evidence. -/

/-- What the file system says of a path. -/
structure Metadata where
  isFile : Bool
  modified : Time

/-- The facts of one cycle a claim is checked against. Paths are relative to the pulse root. -/
structure WorkEvidence where
  metadata : List Bytes → Option Metadata
  resolvedPredictionIds : List Bytes
  toolRounds : Nat
  toolRoundsObservable : Bool
  cycleStartedAt : Time

/-- The components of a relative path, refusing an absolute one and any `..`. -/
def pulseRelativePath (raw : Bytes) : Option (List Bytes) :=
  let path := trim raw
  if path.head? = some 47 then none
  else
    let parts := (path.splitOn 47).filter fun c => c ≠ [] && c ≠ ascii "."
    if parts = [] || ascii ".." ∈ parts then none else some parts

def isJournalPath (relative : List Bytes) : Bool :=
  journalDir ∈ relative || relative.getLast?.any (· ∈ journalFiles)

def showPath (relative : List Bytes) : Bytes := List.intercalate [47] relative

namespace WorkEvidence

def verifyFile (e : WorkEvidence) (raw : Bytes) : Except EvidenceRejection WorkArtifact :=
  let cleaned := sanitizeField raw 512
  match pulseRelativePath cleaned with
  | none => .error (.pathOutsidePulse cleaned)
  | some relative =>
    if isJournalPath relative then .error (.pathInJournal cleaned)
    else match e.metadata relative with
      | none => .error (.fileMissing cleaned)
      | some found =>
        if found.modified < e.cycleStartedAt then .error (.fileUnchanged cleaned)
        else .ok (.fileDiff (showPath relative) found.modified)

def verifyPrediction (e : WorkEvidence) (raw : Bytes) : Except EvidenceRejection WorkArtifact :=
  let id := sanitizeId raw
  if id ∈ e.resolvedPredictionIds then .ok (.resolvedPrediction id)
  else .error (.predictionNotResolved id)

def verifyTool (e : WorkEvidence) (raw : Bytes) : Except EvidenceRejection WorkArtifact :=
  let tool := sanitizeField raw maxIdLen
  if 0 < e.toolRounds then .ok (.toolResult tool e.toolRounds)
  else .error (if e.toolRoundsObservable then .noToolRan tool else .toolRoundsUnobservable tool)

/-- One rung of the ladder: an artifact found before it stands, and a refusal gives way to its
own. -/
def rung (earlier : Except EvidenceRejection WorkArtifact)
    (check : Bytes → Except EvidenceRejection WorkArtifact) (claimed : Option Bytes) :
    Except EvidenceRejection WorkArtifact :=
  match earlier, claimed with
  | .ok artifact, _ => .ok artifact
  | .error _, some raw => check raw
  | .error e, none => .error e

/-- Check a claim, the strongest evidence first. -/
def verify (e : WorkEvidence) (claim : EvidenceClaim) : Except EvidenceRejection WorkArtifact :=
  rung (rung (rung (.error .noEvidence) e.verifyFile claim.file) e.verifyPrediction claim.prediction)
    e.verifyTool claim.tool

end WorkEvidence

/-! The report of a cycle. -/

structure IngestRejection where
  marker : Bytes
  threadId : Bytes
  reason : Bytes
  side : RejectionSide

structure IngestReport where
  opened : List Bytes := []
  alreadyOpen : Nat := 0
  discharged : List (Bytes × Float) := []
  resolved : List Bytes := []
  mentions : Nat := 0
  rejections : List IngestRejection := []
  triage : Option TriageDemand := none

/-- A store and what has been done to it so far. -/
structure Pass where
  store : TensionStore
  report : IngestReport

namespace Pass

def reject (p : Pass) (rejection : IngestRejection) : Pass :=
  { p with report := { p.report with rejections := p.report.rejections ++ [rejection] } }

def openOne (src : Source) (now : Time) (p : Pass) (draft : ThreadDraft) : Pass :=
  match p.store.openThread src draft now with
  | (store, .opened id) => ⟨store, { p.report with opened := p.report.opened ++ [id] }⟩
  | (store, .alreadyOpen _) => ⟨store, { p.report with alreadyOpen := p.report.alreadyOpen + 1 }⟩
  | (store, .openedOverCap id _) =>
    ⟨store, { p.report with opened := p.report.opened ++ [id], triage := store.triage }⟩

def workOutcomeReason : WorkOutcome → Bytes
  | .alreadyCreditedThisCycle => ascii "thread already took its one discharge this cycle"
  | .alreadyResolved => ascii "thread is already resolved"
  | .unknownThread => ascii "no thread with this id"
  | .credited _ => []

def workOne (e : WorkEvidence) (now : Time) (p : Pass) (work : ParsedWork) : Pass :=
  match e.verify work.claim with
  | .error r => p.reject ⟨ascii "THREAD-WORK", work.id, r.message, r.side⟩
  | .ok artifact =>
    match p.store.creditWork work.id artifact now with
    | (store, .credited after) =>
      ⟨store, { p.report with discharged := p.report.discharged ++ [(work.id, after)] }⟩
    | (_, other) =>
      p.reject ⟨ascii "THREAD-WORK", work.id, workOutcomeReason other, .claimantConduct⟩

end Pass

/-- The verdict of a resolution, or the text and side of its refusal. -/
def buildVerdict (parsed : ParsedResolution) (e : WorkEvidence) :
    Except (Bytes × RejectionSide) ResolutionVerdict :=
  let verified (name : String) :=
    (e.verify parsed.claim).mapError fun r =>
      (ascii "'" ++ ascii name ++ ascii "' claims work was done: " ++ r.message, r.side)
  match parsed.kind with
  | .answered => (verified "answered").map .answered
  | .superseded =>
    match parsed.by_.filter (· ≠ []) with
    | none => .error
      (ascii "'superseded' needs a 'by' naming what replaced it", .claimantConduct)
    | some by_ => (verified "superseded").map (.superseded by_)
  | .dissolved =>
    match parsed.reason.filter (· ≠ []) with
    | none => .error
      (ascii "'dissolved' needs a reason the question was malformed", .claimantConduct)
    | some reason => .ok (.dissolved reason)
  | .abandoned =>
    match parsed.reason.filter (· ≠ []) with
    | none => .error (ascii "'abandoned' needs a reason" ++ EvidenceRejection.emDash ++
        ascii "a give-up is recorded, not erased", .claimantConduct)
    | some reason => .ok (.abandoned reason)

def Pass.resolveOne (e : WorkEvidence) (now : Time) (p : Pass) (parsed : ParsedResolution) : Pass :=
  let refuse (reason : Bytes) (side : RejectionSide) :=
    p.reject ⟨ascii "THREAD-RESOLVE", parsed.id, reason, side⟩
  match buildVerdict parsed e with
  | .error (reason, side) => refuse reason side
  | .ok verdict =>
    match p.store.resolve parsed.id verdict now with
    | (store, .resolved) =>
      ⟨store, { p.report with resolved := p.report.resolved ++ [parsed.id] }⟩
    | (_, .alreadyResolved) => refuse (ascii "claim: thread is already resolved") .claimantConduct
    | (_, .unknownThread) => refuse (ascii "claim: no thread with this id") .claimantConduct

/-- Apply the three grammars: opens, then discharges, then resolutions. -/
def applyMarkers (src : Source) (reader : PayloadReader) (s : TensionStore) (rawOutput : Bytes)
    (e : WorkEvidence) (now : Time) : Pass :=
  let opened := (parseThreads reader rawOutput).foldl (Pass.openOne src now) ⟨s, {}⟩
  let worked := (parseWorkClaims reader rawOutput).foldl (Pass.workOne e now) opened
  (parseResolutions reader rawOutput).foldl (Pass.resolveOne e now) worked

/-! Predictions. -/

inductive ErrorDirection where
  | overconfident | underconfident | misdirected | novel | wellCalibrated | void | unknown
  deriving DecidableEq

def ErrorDirection.text : ErrorDirection → Bytes
  | .overconfident => ascii "overconfident"
  | .underconfident => ascii "underconfident"
  | .misdirected => ascii "misdirected"
  | .novel => ascii "novel"
  | .wellCalibrated => ascii "well-calibrated"
  | .void => ascii "void"
  | .unknown => ascii "unknown"

structure PredictionResolution where
  actual : Bytes
  direction : ErrorDirection

structure Prediction where
  id : Bytes
  content : Bytes
  resolution : Option PredictionResolution

structure PredictionError where
  predictionId : Bytes
  surprise : Float
  direction : ErrorDirection
  insight : Option Bytes
  processed : Bool
  predicted : Option Bytes
  actual : Option Bytes

structure PredictionStack where
  predictions : List Prediction
  errors : List PredictionError
  surpriseThreshold : Float

/-- The self-contained thread of a prediction error. -/
def errorDraft (src : Source) (stack : PredictionStack) (error : PredictionError) : ThreadDraft :=
  let prediction := stack.predictions.find? (·.id = error.predictionId)
  let predicted := (error.predicted <|> prediction.map Prediction.content).getD
    (ascii "(prediction text no longer on record)")
  let actual := (error.actual <|> (prediction.bind Prediction.resolution).map
    PredictionResolution.actual).getD (ascii "(outcome no longer on record)")
  let insight := error.insight.getD (ascii "no insight recorded")
  { label := truncateChars (ascii "prediction error: " ++ insight) maxLabelLen
    content := truncateChars (ascii "Predicted: " ++ predicted ++ ascii "\nActual: " ++ actual ++
      ascii "\nSurprise " ++ src.twoDecimals error.surprise ++ ascii " (" ++ error.direction.text ++
      ascii "). Insight: " ++ insight) maxContentLen
    origin := .predictionError error.predictionId }

def ingestError (src : Source) (stack : PredictionStack) (now : Time) (p : Pass)
    (error : PredictionError) : Pass :=
  if error.surprise ≤ stack.surpriseThreshold then p
  else if p.store.threads.any (·.origin = .predictionError error.predictionId) then
    { p with report := { p.report with alreadyOpen := p.report.alreadyOpen + 1 } }
  else p.openOne src now (errorDraft src stack error)

/-- Open a thread for every unprocessed error above the threshold that has none yet. -/
def ingestPredictionErrors (src : Source) (s : TensionStore) (stack : PredictionStack)
    (now : Time) : Pass :=
  (stack.errors.filter fun e => !e.processed).foldl (ingestError src stack now) ⟨s, {}⟩

/-- Credit one thread for a resolved prediction. -/
def creditResolved (predictionId : Bytes) (now : Time) (acc : TensionStore × List (Bytes × Float))
    (id : Bytes) : TensionStore × List (Bytes × Float) :=
  match acc.1.creditWork id (.resolvedPrediction predictionId) now with
  | (store, .credited after) => (store, acc.2 ++ [(id, after)])
  | (_, _) => acc

/-- The live threads of a prediction. -/
def predictionThreads (s : TensionStore) (predictionId : Bytes) : List Bytes :=
  (s.live.filter (·.origin = .predictionError predictionId)).map Thread.id

/-- Discharge the threads whose prediction resolved this cycle. -/
def creditResolvedPredictions (s : TensionStore) (resolved : List Bytes) (now : Time) :
    TensionStore × List (Bytes × Float) :=
  resolved.foldl (fun acc predictionId =>
    (predictionThreads acc.1 predictionId).foldl (creditResolved predictionId now) acc) (s, [])

/-! A finished cycle. -/

/-- Count the live threads named in the output but not acted on. -/
def noteMentions (s : TensionStore) (text : Bytes) (actedOn : List Bytes) : TensionStore × Nat :=
  let named := (s.live.filter fun t => Text.contains t.id text && t.id ∉ actedOn).map Thread.id
  (named.foldl TensionStore.noteMention s, named.length)

def refusalNotice (r : IngestRejection) : RefusalNotice :=
  ⟨r.marker, r.threadId, truncateChars r.reason maxReasonLen⟩

/-- What a cycle is closed with. -/
structure CycleInput where
  rawOutput : Bytes
  evidence : WorkEvidence
  stack : Option PredictionStack
  resolved : List Bytes
  now : Time

/-- The automatic half of the discharge path. -/
def creditPass (resolved : List Bytes) (now : Time) (p : Pass) : Pass :=
  let credited := creditResolvedPredictions p.store resolved now
  ⟨credited.1, { p.report with discharged := p.report.discharged ++ credited.2 }⟩

def ingestPass (src : Source) (stack : Option PredictionStack) (now : Time) (p : Pass) : Pass :=
  match stack with
  | none => p
  | some stack =>
    let ingested := ingestPredictionErrors src p.store stack now
    ⟨ingested.store, { p.report with
      opened := p.report.opened ++ ingested.report.opened
      alreadyOpen := p.report.alreadyOpen + ingested.report.alreadyOpen
      triage := if ingested.report.triage.isSome then ingested.report.triage else p.report.triage }⟩

def mentionPass (rawOutput : Bytes) (p : Pass) : Pass :=
  let actedOn := p.report.discharged.map Prod.fst ++ p.report.resolved
  let noted := noteMentions p.store rawOutput actedOn
  ⟨noted.1, { p.report with mentions := noted.2 }⟩

def refusalPass (p : Pass) : Pass :=
  { p with store := { p.store with lastRefusals := p.report.rejections.map refusalNotice } }

/-- Markers, automatic discharge, new errors, then the mentions of what was not acted on. -/
def applyCycle (src : Source) (reader : PayloadReader) (s : TensionStore) (c : CycleInput) : Pass :=
  refusalPass (mentionPass c.rawOutput (ingestPass src c.stack c.now
    (creditPass c.resolved c.now (applyMarkers src reader s c.rawOutput c.evidence c.now))))

end PulseNull.Tension
