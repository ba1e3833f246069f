import PulseNull.Server.TurnStream
import PulseNull.Speech.Gate

/-! What a turn sends to its client while it runs. A voice turn holds its text until the reply guard has
passed, and lets clauses go that the guard can no longer cut. -/
def PulseNull.Speech.SpeechGate.noteRawFlush (gate : PulseNull.Speech.SpeechGate) : PulseNull.Speech.SpeechGate :=
  { gate with released := gate.buf.length }

namespace PulseNull.ToolLoop
open Server.TurnStream (TurnStatus TurnEvent ResetReason)
open Session (isCharBoundary)
open Speech (Automaton SpeechGate)
open Text (ascii)

def cliHoldByteCap : ℕ := 32 * 1024

def usizeMax : ℕ := 2^64 - 1

/-- Byte cap for one turn's held speech, from the output budget where the provider keeps to it. -/
def holdByteCap (provider : Bytes) (maxTokens : ℕ) : ℕ :=
  if provider = ascii "cli" ∨ maxTokens = 0 then cliHoldByteCap else max (min (maxTokens * 4) usizeMax) 1

/-- Text and message boundaries held back until a round's guard has passed. `bytes` counts the text taken
this turn, that already flushed too. -/
structure HeldSpeech where
  deltas : List Bytes
  segments : List (ℕ × Bool)
  bytes : ℕ
  cap : ℕ
  overflowed : Bool
  gate : SpeechGate
  everReleased : Bool
  cutHandled : Bool

/-- The sink with the events offered for delivery, counted, and those of them that were accepted. -/
structure ProgressSink where
  sawDelta : Bool
  held : Option HeldSpeech
  offered : ℕ
  out : List TurnEvent

namespace ProgressSink

def new : ProgressSink := ⟨false, none, 0, []⟩

def holdingCapped (cap : ℕ) : ProgressSink := ⟨false, some ⟨[], [], 0, cap, false, .new, false, false⟩, 0, []⟩

def isHolding (sink : ProgressSink) : Bool := sink.held.isSome

def isDelta : TurnEvent → Bool
  | .delta _ => true
  | _ => false

/-- Whether an event is accepted depends on the channel alone; `room` has its answers. -/
def deliver (room : ℕ → Bool) (sink : ProgressSink) (event : TurnEvent) : Bool × ProgressSink :=
  if room sink.offered then
    (true, { sink with
      offered := sink.offered + 1
      out := sink.out ++ [event]
      sawDelta := sink.sawDelta || isDelta event })
  else (false, { sink with offered := sink.offered + 1 })

/-- Text for a voice hold. Past the cap the hold is dropped and one reset goes out. -/
def holdDelta (dfa : Automaton) (room : ℕ → Bool) (sink : ProgressSink) (buf : HeldSpeech) (text : Bytes)
    (now : ℕ) : Bool × ProgressSink :=
  if buf.overflowed then (true, sink)
  else
    let next := min (buf.bytes + text.length) usizeMax
    if buf.cap < next then
      { sink with held := some { buf with deltas := [], segments := [], overflowed := true } }.deliver room
        (.reset .budget)
    else
      let pushed := buf.gate.push dfa text now
      let sink := { sink with held := some { buf with
        bytes := next
        gate := pushed.2
        everReleased := buf.everReleased || pushed.1.isSome
        deltas := buf.deltas ++ [text] } }
      (true, match pushed.1 with
        | some piece => (sink.deliver room (.delta piece)).2
        | none => sink)

def trySend (dfa : Automaton) (room : ℕ → Bool) (sink : ProgressSink) (event : TurnEvent) (now : ℕ) :
    Bool × ProgressSink :=
  match sink.held with
  | none => sink.deliver room event
  | some buf => match event with
    | .delta text => sink.holdDelta dfa room buf text now
    | .segment index tool =>
      if buf.overflowed then (false, sink)
      else (true, { sink with held := some { buf with segments := buf.segments ++ [(index, tool)] } })
    | .status status => sink.deliver room (.status status)
    | .reset reason => sink.deliver room (.reset reason)

/-- Deliver the texts but for the first `skip` bytes. -/
def flushDeltas (room : ℕ → Bool) : ℕ → List Bytes → ProgressSink → ProgressSink
  | _, [], sink => sink
  | skip, text :: deltas, sink =>
    if text.length ≤ skip then flushDeltas room (skip - text.length) deltas sink
    else
      let piece :=
        if skip = 0 then some text else if isCharBoundary text skip then some (text.drop skip) else none
      match piece with
      | none => flushDeltas room 0 deltas sink
      | some piece =>
        flushDeltas room 0 deltas (if piece = [] then sink else (sink.deliver room (.delta piece)).2)

def flushSegments (room : ℕ → Bool) : List (ℕ × Bool) → ProgressSink → ProgressSink
  | [], sink => sink
  | (index, tool) :: segments, sink => flushSegments room segments (sink.deliver room (.segment index tool)).2

/-- Forward the held segment, skipping bytes a clause release already sent. -/
def flushHeld (room : ℕ → Bool) (sink : ProgressSink) : ProgressSink :=
  match sink.held with
  | none => sink
  | some buf =>
    let heldBytes := (buf.deltas.map List.length).sum
    let skip := buf.gate.released - (buf.gate.buf.length - heldBytes)
    flushSegments room buf.segments (flushDeltas room skip buf.deltas
      { sink with held := some { buf with deltas := [], segments := [], gate := buf.gate.noteRawFlush } })

/-- A clause has been delivered from the voice hold. -/
def releasedAny (sink : ProgressSink) : Bool :=
  sink.held.any fun buf => buf.everReleased || decide (0 < buf.gate.released)

/-- A closed text block. Later text stays held for the guard. -/
def beginTextBlock (sink : ProgressSink) : ProgressSink :=
  { sink with held := sink.held.map fun buf => { buf with gate := buf.gate.beginBlock } }

/-- A later round must not keep releasing against the previous buffer. -/
def beginNextRound (sink : ProgressSink) : ProgressSink :=
  { sink with held := sink.held.map fun buf => { buf with
      everReleased := buf.everReleased || decide (0 < buf.gate.released)
      gate := buf.gate.restartRound } }

/-- Settle a guard cut after a release. -/
def finishCut (room : ℕ → Bool) (sink : ProgressSink) (kept : Bytes) : Bool × ProgressSink :=
  match sink.held with
  | none => (false, sink)
  | some buf =>
    if buf.overflowed then (false, sink)
    else if buf.gate.released = 0 then
      if buf.everReleased then (true, { sink with held := some { buf with cutHandled := true } })
      else (false, sink)
    else match buf.gate.finish kept with
      | (.error _, gate) => (false, { sink with held := some { buf with gate, cutHandled := false } })
      | (.ok rest, gate) =>
        let sink := { sink with held := some { buf with gate, cutHandled := true } }
        (true, match rest with
          | some text => (sink.deliver room (.delta text)).2
          | none => sink)

def cutWasHandled (sink : ProgressSink) : Bool := sink.held.any (·.cutHandled)

/-- Drop the held segment without sending it. -/
def discardHeld (sink : ProgressSink) : Bool × ProgressSink :=
  match sink.held with
  | none => (false, sink)
  | some buf => (buf.deltas.any (· ≠ []),
      { sink with held := some { buf with deltas := [], segments := [], bytes := 0 } })

end ProgressSink

/-- Counts `segment` events for one turn. -/
structure Segments where
  next : ℕ
  fromProvider : Bool

def Segments.new : Segments := ⟨0, false⟩

def Segments.accepted (segments : Segments) (sent : Bool × ProgressSink) : Segments × ProgressSink :=
  (if sent.1 then { segments with next := min (segments.next + 1) (2^32 - 1) } else segments, sent.2)

def Segments.push (dfa : Automaton) (room : ℕ → Bool) (segments : Segments) (sink : ProgressSink) (tool : Bool)
    (now : ℕ) : Segments × ProgressSink :=
  segments.accepted (sink.trySend dfa room (.segment segments.next tool) now)

/-- A boundary emitted after the guard, which must not be held again. -/
def Segments.pushKept (room : ℕ → Bool) (segments : Segments) (sink : ProgressSink) (tool : Bool) :
    Segments × ProgressSink :=
  segments.accepted (sink.deliver room (.segment segments.next tool))

end PulseNull.ToolLoop
