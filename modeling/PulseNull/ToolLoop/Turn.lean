import PulseNull.ToolLoop.Rounds

/-! One interactive turn: the default model, after a refusal the fallback model, and what the client is told
when a reply is cut or the turn fails. -/
namespace PulseNull.ToolLoop
open Server.TurnStream (ResetReason)
open Session (Message)
open Speech (Automaton)
open Text (ascii)

variable {σ κ : Type}

def maxToolRounds : ℕ := 25

def maxQuarantineMessages : ℕ := 50

/-- A session's lanes: the trunk, and the exchanges kept from the default model. -/
structure SessionData where
  messages : List Message
  quarantine : List Message
  deriving DecidableEq

/-- Drain the oldest quarantined messages beyond the cap. -/
def SessionData.enforceQuarantineCap (data : SessionData) : SessionData :=
  { data with quarantine := data.quarantine.drop (data.quarantine.length - maxQuarantineMessages) }

structure TurnResult (κ : Type) where
  result : ToolLoopResult κ
  quarantined : Bool

/-- How the fallback provider is built: it may fail. -/
abbrev Fallback (σ : Type) := Except Bytes (σ → List Message → Except TurnError LlmResponse × σ)

structure TurnEnd (σ κ : Type) where
  outcome : Except TurnError (TurnResult κ)
  data : SessionData
  state : σ
  sink : Option ProgressSink

/-- The first run of the turn, on the default model. -/
def defaultOutcome (dfa : Automaton) (room : ℕ → Bool) (host : Host σ κ) (messages : List Message) (s : σ) :
    Option ProgressSink → Option (LoopEnd σ κ × Option ProgressSink)
  | some sink => (invokeWithToolLoopStreaming dfa room host maxToolRounds messages s sink).map fun ended =>
      (ended.1, some ended.2.sink)
  | none => (invokeWithToolLoop host maxToolRounds messages s).map fun ended => (ended, none)

/-- What a streaming client is told before the fallback model runs: a draft that went out, or text still
held, is void. -/
def voidDraft (dfa : Automaton) (room : ℕ → Bool) (sink : ProgressSink) : Bool × ProgressSink :=
  let discarded := sink.discardHeld
  if discarded.2.sawDelta || discarded.1 then
    let sent := discarded.2.trySend dfa room (.reset .fallback) 0
    if sent.1 then (true, (sent.2.trySend dfa room (.status .thinking) 0).2) else (false, sent.2)
  else (true, (discarded.2.trySend dfa room (.status .thinking) 0).2)

/-- The buffered reply of the fallback model goes out as one delta. -/
def sendReply (dfa : Automaton) (room : ℕ → Bool) (text : Bytes) (sink : ProgressSink) : ProgressSink :=
  ((sink.trySend dfa room (.status .responding) 0).2.deliver room (.delta text)).2

/-- The run on the fallback model. -/
def runFallback (dfa : Automaton) (room : ℕ → Bool) (host : Host σ κ) (display : TurnError → Bytes) (build : Fallback σ)
    (data : SessionData) (userMsg : Message) (s : σ) (sink : Option ProgressSink) : Option (TurnEnd σ κ) :=
  match build with
  | .error buildErr => some ⟨.error (.fallbackFailed buildErr), data, s, sink⟩
  | .ok invoke =>
    let voided := sink.map (voidDraft dfa room)
    if voided.any (fun sent => !sent.1) then
      some ⟨.error (.other (ascii "reset was not delivered")), data, s, voided.map Prod.snd⟩
    else
      let sink := voided.map Prod.snd
      match invokeWithToolLoop { host with invoke } maxToolRounds
          (data.messages ++ data.quarantine ++ [userMsg]) s with
      | none => none
      | some ended => match ended.outcome with
        | .error e => some ⟨.error (.fallbackFailed (display e)), data, ended.state, sink⟩
        | .ok result =>
          let reply : Message := ⟨.assistant, .text result.text, none⟩
          some ⟨.ok ⟨result, true⟩,
            { data with quarantine := data.quarantine ++ [userMsg, reply] }.enforceQuarantineCap, ended.state,
            sink.map (sendReply dfa room result.text)⟩

/-- Run one turn, its user message last in the trunk, with the fallback after a refusal. -/
def invokeTurnWithRefusalFallback (dfa : Automaton) (room : ℕ → Bool) (host : Host σ κ) (display : TurnError → Bytes)
    (buildFallback : Option (Fallback σ)) (data : SessionData) (s : σ) (sink : Option ProgressSink) :
    Option (TurnEnd σ κ) :=
  match data.messages.length with
  | 0 => some ⟨.error .emptyTrunk, data, s, sink⟩
  | userIndex + 1 =>
    match defaultOutcome dfa room host data.messages s sink with
    | none => none
    | some (ended, sink) => match ended.outcome with
      | .ok result => some ⟨.ok ⟨result, false⟩, { data with messages := ended.messages }, ended.state, sink⟩
      | .error refusal =>
        let rolledBack := { data with messages := ended.messages.take userIndex }
        match refusal, buildFallback, ended.messages[userIndex]? with
        | .refusal .., some build, some userMsg =>
          runFallback dfa room host display build rolledBack userMsg ended.state sink
        | _, _, _ => some ⟨.error refusal, rolledBack, ended.state, sink⟩

/-- What the client is told after the outcome: a spoken draft of a failed turn is void, and a cut that was
not settled drops what went out for the kept text. `holdDeltas` is a voice turn. -/
def settleClient (dfa : Automaton) (room : ℕ → Bool) (holdDeltas : Bool) (ended : TurnEnd σ κ) : TurnEnd σ κ :=
  match ended.sink with
  | none => ended
  | some sink => match ended.outcome with
    | .error err =>
      if holdDeltas && sink.releasedAny then
        let reason : ResetReason := match err with
          | .refusal .. => .refusal
          | _ => .error
        let sent := sink.trySend dfa room (.reset reason) 0
        if sent.1 then { ended with sink := some sent.2 }
        else { ended with
          outcome := .error (.other (ascii "reset was not delivered"))
          sink := some sent.2 }
      else ended
    | .ok outcome =>
      if outcome.result.wasTruncated && !sink.cutWasHandled then
        let sent := sink.discardHeld.2.trySend dfa room (.reset .guard) 0
        if !sent.1 then { ended with
          outcome := .error (.other (ascii "reset was not delivered"))
          sink := some sent.2 }
        else if holdDeltas && !decide (outcome.result.text = []) then
          { ended with sink := some (sent.2.deliver room (.delta outcome.result.text)).2 }
        else { ended with sink := some sent.2 }
      else ended

def isHumanTurn (msg : Message) : Bool :=
  match msg.role, msg.source with
  | .user, some (.human ..) => true
  | _, _ => false

/-- Where a rollback cuts the trunk: compaction may have replaced older messages, and keeps the last. -/
def rearmAtLastUser (armed : ℕ) (messages : List Message) : ℕ :=
  if messages.getLast?.any isHumanTurn then messages.length - 1 else min armed messages.length

/-- The provider part of a turn of a session: a turn that succeeds is disarmed, and one that fails is rolled
back by its guard. -/
def runResolvedTurn (dfa : Automaton) (room : ℕ → Bool) (host : Host σ κ) (display : TurnError → Bytes)
    (buildFallback : Option (Fallback σ)) (holdDeltas : Bool) (armed : ℕ) (data : SessionData) (s : σ)
    (sink : Option ProgressSink) : Option (TurnEnd σ κ) :=
  let watermark := rearmAtLastUser armed data.messages
  (invokeTurnWithRefusalFallback dfa room host display buildFallback data s sink).map fun ended =>
    let settled := settleClient dfa room holdDeltas ended
    match settled.outcome with
    | .ok _ => settled
    | .error _ => { settled with data := { settled.data with messages := settled.data.messages.take watermark } }

end PulseNull.ToolLoop
