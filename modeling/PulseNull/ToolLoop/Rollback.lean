import PulseNull.ToolLoop.Turn
import PulseNull.ToolLoop.Voice

/-! What a turn does to its session, whoever listens: the streaming loop is the plain loop, and a turn that fails
leaves the trunk as it was before its user message. -/
namespace PulseNull.ToolLoop
open Session (ContentBlock Message)
open Speech (Automaton)
open Text (ascii)

variable {σ κ : Type}

/-! The streaming loop. -/

/-- The provider asked through its stream: the answer is what the stream ends with. -/
def Host.buffered (host : Host σ κ) : Host σ κ :=
  { host with invoke := fun s messages => (final (host.stream s messages).1, (host.stream s messages).2) }

private theorem executeToolCalls_buffered (host : Host σ κ) (s : σ) (toolsUsed : List Bytes)
    (content : List ContentBlock) :
    executeToolCalls host.buffered s toolsUsed content = executeToolCalls host s toolsUsed content := by
  induction content generalizing s toolsUsed with
  | nil => rfl
  | cons block content ih =>
    cases block with
    | text | toolResult => exact ih s toolsUsed
    | toolUse id name input =>
      rw [executeToolCalls, executeToolCalls, ih]
      rfl

private theorem finishRound_buffered (host : Host σ κ) (maxRounds : ℕ) (rs : RoundState) (result : LlmResponse)
    (messages : List Message) (s : σ) :
    finishRound host.buffered maxRounds rs result messages s = finishRound host maxRounds rs result messages s := by
  unfold finishRound
  simp only [executeToolCalls_buffered]
  rfl

private theorem toolLoopStreaming_runs (dfa : Automaton) (room : ℕ → Bool) (host : Host σ κ) (maxRounds fuel : ℕ)
    (rs : RoundState) (messages : List Message) (s : σ) (progress : Progress) :
    (toolLoopStreaming dfa room host maxRounds fuel rs messages s progress).map Prod.fst =
      toolLoop host.buffered maxRounds fuel rs messages s := by
  induction fuel generalizing rs messages s progress with
  | zero => rfl
  | succ fuel ih =>
    rw [toolLoopStreaming, toolLoop]
    dsimp only [Host.buffered]
    generalize (ProgressSink.trySend dfa room (if 0 < rs.rounds then progress.sink.beginNextRound else progress.sink)
      (.status .thinking) 0).2 = sink
    have hfinal := streamOneRound_final dfa room (host.stream s messages).1 false [] ⟨sink, progress.segments⟩
    rw [← hfinal]
    generalize streamOneRound dfa room (host.stream s messages).1 false [] ⟨sink, progress.segments⟩ = streamed
    obtain ⟨outcome, after⟩ := streamed
    cases outcome with
    | error e => rfl
    | ok round =>
      dsimp only [Except.map]
      rw [← Host.buffered, finishRound_buffered]
      cases (finishRound host maxRounds rs round.response messages (host.stream s messages).2).outcome with
      | done done => rfl
      | «continue» => exact ih _ _ _ _

/-- A streamed turn is a buffered turn on the answers that its streams end with, whatever goes to the client and
whether the client takes it: the same tools are run, the same messages are added, and the result is the same. -/
theorem streaming_runs_the_loop (dfa : Automaton) (room : ℕ → Bool) (host : Host σ κ) (maxRounds : ℕ)
    (messages : List Message) (s : σ) (sink : ProgressSink) :
    (invokeWithToolLoopStreaming dfa room host maxRounds messages s sink).map Prod.fst =
      invokeWithToolLoop host.buffered maxRounds messages s :=
  toolLoopStreaming_runs dfa room host maxRounds _ .new messages s ⟨sink, .new⟩

/-! The session. -/

theorem finishRound_appends (host : Host σ κ) (maxRounds : ℕ) (rs : RoundState) (result : LlmResponse)
    (messages : List Message) (s : σ) : messages <+: (finishRound host maxRounds rs result messages s).messages := by
  unfold finishRound
  dsimp only
  split
  · exact List.prefix_append _ _
  split
  · exact List.prefix_append _ _
  · exact List.prefix_append _ _
  · exact List.prefix_append _ _
  · split
    · exact List.prefix_append _ _
    · exact (List.prefix_append _ _).trans (List.prefix_append _ _)
  · exact List.prefix_append _ _

/-- A round that goes on is counted, and within the limit. -/
theorem finishRound_counts {host : Host σ κ} {maxRounds : ℕ} {rs : RoundState} {result : LlmResponse}
    {messages : List Message} {s : σ} (h : (finishRound host maxRounds rs result messages s).outcome = .continue) :
    (finishRound host maxRounds rs result messages s).rs.rounds = rs.rounds + 1 ∧ rs.rounds < maxRounds := by
  unfold finishRound at h ⊢
  dsimp only at h ⊢
  split at h
  · cases h
  next hcut =>
  rw [if_neg hcut]
  split at h
  · cases h
  · cases h
  · cases h
  · split at h
    · cases h
    · next hmax =>
      rw [if_neg hmax]
      exact ⟨rfl, by omega⟩
  · cases h

/-- Every loop ends, and only adds to the conversation. -/
theorem toolLoop_appends (host : Host σ κ) {maxRounds fuel : ℕ} {rs : RoundState}
    (hfuel : maxRounds < fuel + rs.rounds) (messages : List Message) (s : σ) (hbound : rs.rounds ≤ maxRounds) :
    ∃ ended, toolLoop host maxRounds fuel rs messages s = some ended ∧ messages <+: ended.messages := by
  induction fuel generalizing rs messages s with
  | zero => omega
  | succ fuel ih =>
    rw [toolLoop]
    dsimp only
    split
    · exact ⟨_, rfl, List.prefix_rfl⟩
    · next result _ =>
      have happ := finishRound_appends host maxRounds rs result messages (host.invoke s messages).2
      split
      · exact ⟨_, rfl, happ⟩
      · next hgoes =>
        obtain ⟨hcount, hmore⟩ := finishRound_counts hgoes
        obtain ⟨ended, hrun, hpre⟩ := @ih (finishRound host maxRounds rs result messages (host.invoke s messages).2).rs
          (by omega) _ _ (by omega)
        exact ⟨ended, hrun, happ.trans hpre⟩

/-- The default model's part of a turn ends, and only adds to the trunk. -/
theorem defaultOutcome_appends (dfa : Automaton) (room : ℕ → Bool) (host : Host σ κ) (messages : List Message)
    (s : σ) (sink : Option ProgressSink) : ∃ ended sink', defaultOutcome dfa room host messages s sink =
      some (ended, sink') ∧ messages <+: ended.messages := by
  have hrun := fun host : Host σ κ => @toolLoop_appends σ κ host maxToolRounds (maxToolRounds + 1) .new
    (Nat.lt_succ_self _) messages s (Nat.zero_le _)
  cases sink with
  | none =>
    obtain ⟨ended, hended, hpre⟩ := hrun host
    exact ⟨ended, none, by rw [defaultOutcome, invokeWithToolLoop, hended, Option.map_some], hpre⟩
  | some sink =>
    obtain ⟨ended, hended, hpre⟩ := hrun host.buffered
    have hstream := (toolLoopStreaming_runs dfa room host maxToolRounds (maxToolRounds + 1) .new messages s
      ⟨sink, .new⟩).trans hended
    obtain ⟨⟨ended', progress⟩, hsome, rfl⟩ := Option.map_eq_some_iff.mp hstream
    exact ⟨ended', some progress.sink, by rw [defaultOutcome, invokeWithToolLoopStreaming, hsome, Option.map_some], hpre⟩

/-- What a turn on `userMsg` that succeeds leaves: the default model's exchange is added to the trunk, and one with
the fallback model to the quarantine lane alone, which keeps its newest messages. -/
structure Committed (init quarantine : List Message) (userMsg : Message) (outcome : TurnResult κ)
    (data : SessionData) : Prop where
  own : outcome.quarantined = false → init ++ [userMsg] <+: data.messages ∧ data.quarantine = quarantine
  apart : outcome.quarantined = true → data.messages = init ∧
    data.quarantine = (quarantine ++ [userMsg, ⟨.assistant, .text outcome.result.text, none⟩]).rtake
      maxQuarantineMessages

/-- Before the client is told: a failure has changed nothing. -/
private def Provided (init quarantine : List Message) (userMsg : Message) (ended : TurnEnd σ κ) : Prop :=
  match ended.outcome with
  | .error _ => ended.data = ⟨init, quarantine⟩
  | .ok outcome => Committed init quarantine userMsg outcome ended.data

private theorem runFallback_provided (dfa : Automaton) (room : ℕ → Bool) (host : Host σ κ)
    (display : TurnError → Bytes) (build : Fallback σ) (init quarantine : List Message) (userMsg : Message) (s : σ)
    (sink : Option ProgressSink) :
    ∃ ended, runFallback dfa room host display build ⟨init, quarantine⟩ userMsg s sink = some ended ∧
      Provided init quarantine userMsg ended := by
  unfold runFallback
  cases build with
  | error buildErr => exact ⟨_, rfl, rfl⟩
  | ok invoke =>
    dsimp only
    split
    · exact ⟨_, rfl, rfl⟩
    · obtain ⟨ended, hrun, -⟩ := @toolLoop_appends σ κ { host with invoke } maxToolRounds (maxToolRounds + 1) .new
        (Nat.lt_succ_self _) (init ++ quarantine ++ [userMsg]) s (Nat.zero_le _)
      rw [invokeWithToolLoop, hrun]
      dsimp only
      cases ended.outcome with
      | error e => exact ⟨_, rfl, rfl⟩
      | ok result => exact ⟨_, rfl, nofun, fun _ => ⟨rfl, rfl⟩⟩

private theorem invoke_provided (dfa : Automaton) (room : ℕ → Bool) (host : Host σ κ)
    (display : TurnError → Bytes) (buildFallback : Option (Fallback σ)) (init quarantine : List Message)
    (userMsg : Message) (s : σ) (sink : Option ProgressSink) :
    ∃ ended, invokeTurnWithRefusalFallback dfa room host display buildFallback ⟨init ++ [userMsg], quarantine⟩ s
      sink = some ended ∧ Provided init quarantine userMsg ended := by
  obtain ⟨ended, sink', hrun, new, hnew⟩ := defaultOutcome_appends dfa room host (init ++ [userMsg]) s sink
  have htake : ended.messages.take init.length = init := by
    rw [← hnew, List.append_assoc, List.take_left]
  have huser : ended.messages[init.length]? = some userMsg := by
    rw [← hnew, List.append_assoc, List.getElem?_append_right le_rfl, Nat.sub_self]
    rfl
  unfold invokeTurnWithRefusalFallback
  rw [List.length_append, List.length_singleton]
  dsimp only
  rw [hrun]
  dsimp only
  cases ended.outcome with
  | ok result => exact ⟨_, rfl, fun _ => ⟨⟨new, hnew⟩, rfl⟩, nofun⟩
  | error refusal =>
    dsimp only
    rw [htake, huser]
    split
    · next heq =>
      obtain rfl := Option.some.inj heq
      exact runFallback_provided dfa room host display _ init quarantine _ _ _
    · exact ⟨_, rfl, rfl⟩

/-- What the client is told takes nothing back but the outcome. -/
theorem settleClient_keeps (dfa : Automaton) (room : ℕ → Bool) (holdDeltas : Bool) (ended : TurnEnd σ κ) :
    let settled := settleClient dfa room holdDeltas ended
    settled.data = ended.data ∧ (settled.outcome = ended.outcome ∨ ∃ e, settled.outcome = .error e) := by
  unfold settleClient
  cases ended.sink with
  | none => exact ⟨rfl, .inl rfl⟩
  | some sink =>
    cases houtcome : ended.outcome with
    | error err =>
      dsimp only
      split_ifs
      · exact ⟨rfl, .inl rfl⟩
      · exact ⟨rfl, .inr ⟨_, rfl⟩⟩
      · exact ⟨rfl, .inl houtcome⟩
    | ok outcome =>
      dsimp only
      split_ifs
      · exact ⟨rfl, .inr ⟨_, rfl⟩⟩
      · exact ⟨rfl, .inl rfl⟩
      · exact ⟨rfl, .inl rfl⟩
      · exact ⟨rfl, .inl houtcome⟩

/-- What a turn leaves. One that fails leaves the trunk as it was without its user message, and the quarantine lane
too, unless the fallback model had replied before the client could not be told of a cut. -/
def Settled (init quarantine : List Message) (userMsg : Message) (ended : TurnEnd σ κ) : Prop :=
  match ended.outcome with
  | .error _ => ended.data.messages = init ∧ (ended.data.quarantine = quarantine ∨ ∃ text,
      ended.data.quarantine = (quarantine ++ [userMsg, ⟨.assistant, .text text, none⟩]).rtake maxQuarantineMessages)
  | .ok outcome => Committed init quarantine userMsg outcome ended.data

private theorem Provided.rolledBack {init quarantine : List Message} {userMsg : Message} {ended rolled : TurnEnd σ κ}
    (h : Provided init quarantine userMsg ended) {e : TurnError} (he : rolled.outcome = .error e)
    (hmessages : rolled.data.messages = ended.data.messages.take init.length)
    (hquarantine : rolled.data.quarantine = ended.data.quarantine) : Settled init quarantine userMsg rolled := by
  unfold Settled
  rw [he, hmessages, hquarantine]
  unfold Provided at h
  dsimp only
  cases houtcome : ended.outcome with
  | error e =>
    rw [houtcome] at h
    rw [h]
    exact ⟨List.take_length, .inl rfl⟩
  | ok outcome =>
    rw [houtcome] at h
    cases hq : outcome.quarantined with
    | true =>
      obtain ⟨htrunk, hlane⟩ := h.apart hq
      rw [htrunk, hlane]
      exact ⟨List.take_length, .inr ⟨_, rfl⟩⟩
    | false =>
      obtain ⟨⟨new, hnew⟩, hlane⟩ := h.own hq
      refine ⟨?_, .inl hlane⟩
      rw [← hnew, List.append_assoc, List.take_left]

end PulseNull.ToolLoop
