import PulseNull.Context.Passes
import PulseNull.ToolLoop.Sink

/-! The tool loop: the provider answers, its tools are run, and their results are fed back, until an answer
asks for no tool, the reply guard cuts one, or the rounds are used up. -/
namespace PulseNull.ToolLoop
open Context (emDash toolMessage truncateToolResultBlocks)
open Session (ContentBlock Message)
open Speech (Automaton)
open Text (ascii)

/-! What the loop runs against. -/

inductive StopReason where
  | endTurn | maxTokens | stopSequence | toolUse
  | other (reason : Bytes)
  deriving DecidableEq

structure LlmResponse where
  content : List ContentBlock
  model : Bytes
  inputTokens : Option ℕ
  outputTokens : Option ℕ
  stopReason : StopReason
  deriving DecidableEq

inductive TurnError where
  | refusal (model detail : Bytes)
  | quota (model detail : Bytes)
  | fallbackFailed (detail : Bytes)
  | emptyTrunk
  | other (text : Bytes)
  deriving DecidableEq

inductive StreamEvent where
  | textDelta (text : Bytes)
  | textBlockEnd
  | toolUse (id name input : Bytes)
  | segmentEnd (toolUse : Bool)
  | done (response : LlmResponse)
  | error (text : Bytes)
  | refused (model detail : Bytes)
  | quotaExhausted (model detail : Bytes)
  deriving DecidableEq

/-- A block as the reply guard takes it. -/
inductive RvBlock where
  | text (text : Bytes)
  | toolUse (id name input : Bytes)
  | toolResult (toolUseId content : Bytes)
  deriving DecidableEq

def convertToRv : ContentBlock → RvBlock
  | .text text => .text text
  | .toolUse id name input => .toolUse id name input
  | .toolResult toolUseId content _ => .toolResult toolUseId content

def convertFromRv : RvBlock → ContentBlock
  | .text text => .text text
  | .toolUse id name input => .toolUse id name input
  | .toolResult toolUseId content => .toolResult toolUseId content none

/-- The provider, the tools, and the reply guard. What they answer may depend on all that happened before:
`σ` is the state of the world. A stream's events come with the clock; a tool that is not known is `none`. -/
structure Host (σ κ : Type) where
  invoke : σ → List Message → Except TurnError LlmResponse × σ
  stream : σ → List Message → List (StreamEvent × ℕ) × σ
  execute : σ → Bytes → Bytes → Option (Except Bytes Bytes) × σ
  validateContentBlocks : List RvBlock → List RvBlock × Bool
  unmatchedClaims : List RvBlock → List Bytes → List κ

variable {σ κ : Type}

def Host.validate (host : Host σ κ) (blocks : List ContentBlock) : List ContentBlock × Bool :=
  let validated := host.validateContentBlocks (blocks.map convertToRv)
  (validated.1.map convertFromRv, validated.2)

/-- Text blocks joined with nothing between them. -/
def textBlocksConcat : List ContentBlock → Bytes
  | [] => []
  | .text text :: blocks => text ++ textBlocksConcat blocks
  | .toolUse .. :: blocks | .toolResult .. :: blocks => textBlocksConcat blocks

/-! One round. -/

def toolFailureThreshold : ℕ := 3

def expectationViolationMixed : Bytes :=
  ascii "[Expectation check] " ++ ascii "Some of your tool calls succeeded and some failed. Pause and reassess: is your current approach still valid? If a tool returned an error, consider why " ++
    emDash ++ ascii " wrong path, wrong assumption, or a genuine system issue? Adjust your next step based on what you learned."

def expectationViolationFailed : Bytes :=
  ascii "[Expectation check] " ++ ascii "Your tool calls failed this round. Before retrying, stop and think: what did you expect to happen, and why didn't it? Consider whether your assumption was wrong rather than just retrying the same approach."

def toolDegradedWarning : Bytes :=
  ascii "[SYSTEM " ++ emDash ++
    ascii " Tool Degraded State] Multiple consecutive tool calls have failed. Tools are currently unreliable. CRITICAL: Do NOT claim that any file operations, memory updates, or code changes have been completed. Do NOT narrate successful outcomes. If you cannot accomplish a task because tools are failing, say so explicitly. You may continue conversing but must not assert that work has been done unless a tool call succeeds."

structure ToolLoopResult (κ : Type) where
  text : Bytes
  model : Bytes
  inputTokens : ℕ
  outputTokens : ℕ
  toolRounds : ℕ
  wasTruncated : Bool
  circuitBreakerFired : Bool
  actionClaimWarnings : List κ
  toolDegraded : Bool

/-- Accumulators that live across rounds of one turn. The token counts are `u32`. -/
structure RoundState where
  totalInputTokens : ℕ
  totalOutputTokens : ℕ
  finalModel : Bytes
  rounds : ℕ
  toolsUsed : List Bytes
  accumulatedText : List Bytes
  consecutiveToolFailures : ℕ
  toolDegraded : Bool

def RoundState.new : RoundState := ⟨0, 0, [], 0, [], [], 0, false⟩

def RoundState.result (rs : RoundState) (wasTruncated circuitBreakerFired : Bool) (claims : List κ) :
    ToolLoopResult κ where
  text := [10, 10].intercalate rs.accumulatedText
  model := rs.finalModel
  inputTokens := rs.totalInputTokens
  outputTokens := rs.totalOutputTokens
  toolRounds := rs.rounds
  wasTruncated := wasTruncated
  circuitBreakerFired := circuitBreakerFired
  actionClaimWarnings := claims
  toolDegraded := rs.toolDegraded

structure Executed (σ : Type) where
  results : List ContentBlock
  hadSuccess : Bool
  hadFailure : Bool
  toolsUsed : List Bytes
  state : σ

/-- Run every `tool_use` block and collect the results. An unknown tool is a failure. -/
def executeToolCalls (host : Host σ κ) : σ → List Bytes → List ContentBlock → Executed σ
  | s, toolsUsed, [] => ⟨[], false, false, toolsUsed, s⟩
  | s, toolsUsed, .toolUse id name input :: content =>
    let answer := host.execute s name input
    let rest := executeToolCalls host answer.2 (toolsUsed ++ [name]) content
    match answer.1 with
    | some (.ok output) =>
      { rest with results := .toolResult id output none :: rest.results, hadSuccess := true }
    | some (.error e) =>
      { rest with
        results := .toolResult id (ascii "Error: " ++ e) (some true) :: rest.results
        hadFailure := true }
    | none =>
      { rest with
        results := .toolResult id (ascii "Error: Unknown tool '" ++ name ++ ascii "'") (some true) :: rest.results
        hadFailure := true }
  | s, toolsUsed, .text _ :: content | s, toolsUsed, .toolResult .. :: content =>
    executeToolCalls host s toolsUsed content

/-- Consecutive rounds in which every call failed. -/
def failuresAfter (failures : ℕ) (hadSuccess hadFailure : Bool) : ℕ :=
  let failures := if hadSuccess then 0 else failures
  if hadFailure && !hadSuccess then failures + 1 else failures

/-- Track consecutive failures, warn once at the threshold, and nudge after a failure. -/
def appendFeedbackNudges (rs : RoundState) (results : List ContentBlock) (hadSuccess hadFailure : Bool) :
    RoundState × List ContentBlock :=
  let failures := failuresAfter rs.consecutiveToolFailures hadSuccess hadFailure
  let degrades := decide (toolFailureThreshold ≤ failures) && !rs.toolDegraded
  let rs := { rs with
    consecutiveToolFailures := failures
    toolDegraded := rs.toolDegraded || degrades }
  let results := if degrades then results ++ [.text toolDegradedWarning] else results
  let results :=
    if hadFailure && hadSuccess then results ++ [.text expectationViolationMixed]
    else if hadFailure && !rs.toolDegraded then results ++ [.text expectationViolationFailed]
    else results
  (rs, results)

inductive RoundOutcome (κ : Type) where
  | continue
  | done (result : ToolLoopResult κ)

structure Finished (σ κ : Type) where
  outcome : RoundOutcome κ
  rs : RoundState
  messages : List Message
  state : σ

def assistantMessage (content : List ContentBlock) : Message := ⟨.assistant, .blocks content, some .assistant⟩

def spokenTexts : List ContentBlock → List Bytes
  | [] => []
  | .text text :: blocks => if Text.trim text = [] then spokenTexts blocks else text :: spokenTexts blocks
  | .toolUse .. :: blocks | .toolResult .. :: blocks => spokenTexts blocks

/-- Consume one provider response: validate, record, execute any tool calls, and decide whether the turn is
over. -/
def finishRound (host : Host σ κ) (maxRounds : ℕ) (rs : RoundState) (result : LlmResponse)
    (messages : List Message) (s : σ) : Finished σ κ :=
  let validated := host.validate result.content
  let rs := { rs with
    totalInputTokens := (rs.totalInputTokens + result.inputTokens.getD 0) % 2^32
    totalOutputTokens := (rs.totalOutputTokens + result.outputTokens.getD 0) % 2^32
    finalModel := result.model
    accumulatedText := rs.accumulatedText ++ spokenTexts validated.1 }
  let messages := messages ++ [assistantMessage validated.1]
  if validated.2 then ⟨.done (rs.result true false []), rs, messages, s⟩
  else match result.stopReason with
    | .endTurn | .maxTokens | .stopSequence =>
      let claims := host.unmatchedClaims (validated.1.map convertToRv) rs.toolsUsed
      ⟨.done (rs.result false false claims), rs, messages, s⟩
    | .toolUse =>
      let rs := { rs with rounds := rs.rounds + 1 }
      if maxRounds < rs.rounds then ⟨.done (rs.result false true []), rs, messages, s⟩
      else
        let ran := executeToolCalls host s rs.toolsUsed result.content
        let nudged := appendFeedbackNudges { rs with toolsUsed := ran.toolsUsed } ran.results ran.hadSuccess
          ran.hadFailure
        ⟨.continue, nudged.1, messages ++ [toolMessage (truncateToolResultBlocks nudged.2).1], ran.state⟩
    | .other _ => ⟨.done (rs.result false false []), rs, messages, s⟩

/-! The loop. Fuel bounds the rounds; the turn's own bound keeps it from running out. -/

/-- A turn's outcome, with the conversation and the world after it. -/
structure LoopEnd (σ κ : Type) where
  outcome : Except TurnError (ToolLoopResult κ)
  messages : List Message
  state : σ

def toolLoop (host : Host σ κ) (maxRounds : ℕ) : ℕ → RoundState → List Message → σ → Option (LoopEnd σ κ)
  | 0, _, _, _ => none
  | fuel + 1, rs, messages, s =>
    let answer := host.invoke s messages
    match answer.1 with
    | .error e => some ⟨.error e, messages, answer.2⟩
    | .ok result =>
      let round := finishRound host maxRounds rs result messages answer.2
      match round.outcome with
      | .done done => some ⟨.ok done, round.messages, round.state⟩
      | .continue => toolLoop host maxRounds fuel round.rs round.messages round.state

def invokeWithToolLoop (host : Host σ κ) (maxRounds : ℕ) (messages : List Message) (s : σ) :
    Option (LoopEnd σ κ) :=
  toolLoop host maxRounds (maxRounds + 1) .new messages s

/-! The streaming loop. -/

/-- One provider round as the stream delivered it. -/
structure StreamedRound where
  response : LlmResponse
  toolNames : List Bytes

/-- What the client sees of a turn: the sink, and the count of message boundaries. -/
structure Progress where
  sink : ProgressSink
  segments : Segments

/-- Drive one provider round through its stream. -/
def streamOneRound (dfa : Automaton) (room : ℕ → Bool) :
    List (StreamEvent × ℕ) → Bool → List Bytes → Progress → Except TurnError StreamedRound × Progress
  | [], _, _, progress => (.error (.other (ascii "provider stream ended without a final response")), progress)
  | (event, now) :: events, responding, toolNames, progress =>
    match event with
    | .textDelta text =>
      let sink := if responding then progress.sink
        else (progress.sink.trySend dfa room (.status .responding) now).2
      streamOneRound dfa room events true toolNames
        { progress with sink := (sink.trySend dfa room (.delta text) now).2 }
    | .textBlockEnd =>
      streamOneRound dfa room events responding toolNames { progress with sink := progress.sink.beginTextBlock }
    | .toolUse _ name _ => streamOneRound dfa room events responding (toolNames ++ [name]) progress
    | .segmentEnd toolUse =>
      let pushed := Segments.push dfa room { progress.segments with fromProvider := true } progress.sink toolUse now
      streamOneRound dfa room events responding toolNames ⟨pushed.2, pushed.1⟩
    | .done response => (.ok ⟨response, toolNames⟩, progress)
    | .refused model detail => (.error (.refusal model detail), progress)
    | .quotaExhausted model detail => (.error (.quota model detail), progress)
    | .error e => (.error (.other e), progress)

/-- This round will run tools and the guard kept the text. -/
def toolRoundSurvivesGuard (host : Host σ κ) (response : LlmResponse) (roundsSoFar maxRounds : ℕ) : Bool :=
  if response.stopReason ≠ .toolUse ∨ maxRounds ≤ roundsSoFar then false
  else !(host.validate response.content).2

def sendTools (dfa : Automaton) (room : ℕ → Bool) (now : ℕ) : List Bytes → ProgressSink → ProgressSink
  | [], sink => sink
  | name :: names, sink =>
    sendTools dfa room now names (sink.trySend dfa room (.status (.tool name)) now).2

/-- The round's text goes out, then its boundary, then the tools it asked for. -/
def Progress.announceTools (dfa : Automaton) (room : ℕ → Bool) (progress : Progress) (boundary : Bool)
    (toolNames : List Bytes) : Progress :=
  let sink := progress.sink.flushHeld room
  let pushed := if boundary then progress.segments.pushKept room sink true else (progress.segments, sink)
  ⟨sendTools dfa room 0 toolNames pushed.2, pushed.1⟩

/-- What the client sees between a round's stream and its tools. -/
def Progress.settle (dfa : Automaton) (room : ℕ → Bool) (host : Host σ κ) (progress : Progress)
    (round : StreamedRound) (survives : Bool) : Progress :=
  let progress :=
    if survives && !progress.segments.fromProvider then progress.announceTools dfa room true round.toolNames
    else if survives && progress.segments.fromProvider && progress.sink.isHolding then
      { progress with sink := progress.sink.flushHeld room }
    else progress
  if progress.sink.releasedAny then
    let validated := host.validate round.response.content
    if validated.2 then
      { progress with sink := (progress.sink.finishCut room (textBlocksConcat validated.1)).2 }
    else progress
  else progress

/-- What the client sees at the end of the last round. -/
def Progress.finish (room : ℕ → Bool) (progress : Progress) (done : ToolLoopResult κ) : Progress :=
  if done.wasTruncated then progress
  else
    let sink := progress.sink.flushHeld room
    if !progress.segments.fromProvider && decide (0 < done.toolRounds) then
      let pushed := progress.segments.pushKept room sink false
      ⟨pushed.2, pushed.1⟩
    else { progress with sink }

def toolLoopStreaming (dfa : Automaton) (room : ℕ → Bool) (host : Host σ κ) (maxRounds : ℕ) :
    ℕ → RoundState → List Message → σ → Progress → Option (LoopEnd σ κ × Progress)
  | 0, _, _, _, _ => none
  | fuel + 1, rs, messages, s, progress =>
    let sink := if 0 < rs.rounds then progress.sink.beginNextRound else progress.sink
    let sink := (sink.trySend dfa room (.status .thinking) 0).2
    let stream := host.stream s messages
    let streamed := streamOneRound dfa room stream.1 false [] { progress with sink }
    match streamed.1 with
    | .error e => some (⟨.error e, messages, stream.2⟩, streamed.2)
    | .ok round =>
      let survives := toolRoundSurvivesGuard host round.response rs.rounds maxRounds
      let announced := survives && !streamed.2.segments.fromProvider
      let progress := streamed.2.settle dfa room host round survives
      let finished := finishRound host maxRounds rs round.response messages stream.2
      match finished.outcome with
      | .done done => some (⟨.ok done, finished.messages, finished.state⟩, progress.finish room done)
      | .continue =>
        let progress :=
          if announced then progress
          else progress.announceTools dfa room (!progress.segments.fromProvider) round.toolNames
        toolLoopStreaming dfa room host maxRounds fuel finished.rs finished.messages finished.state progress

def invokeWithToolLoopStreaming (dfa : Automaton) (room : ℕ → Bool) (host : Host σ κ) (maxRounds : ℕ)
    (messages : List Message) (s : σ) (sink : ProgressSink) : Option (LoopEnd σ κ × Progress) :=
  toolLoopStreaming dfa room host maxRounds (maxRounds + 1) .new messages s ⟨sink, .new⟩

end PulseNull.ToolLoop
