import PulseNull.ToolLoop.Hold
import PulseNull.ToolLoop.Transcript

/-! The rounds of a voice turn. -/
namespace PulseNull.ToolLoop
open Session (ContentBlock Message)
open Speech (Automaton)
open ProgressSink (Room)
open Text (ascii)

variable {σ κ : Type}

/-! A round's stream. -/

/-- How a stream ends. -/
def final : List (StreamEvent × ℕ) → Except TurnError LlmResponse
  | [] => .error (.other (ascii "provider stream ended without a final response"))
  | (.done response, _) :: _ => .ok response
  | (.refused model detail, _) :: _ => .error (.refusal model detail)
  | (.quotaExhausted model detail, _) :: _ => .error (.quota model detail)
  | (.error e, _) :: _ => .error (.other e)
  | (.textDelta _, _) :: events | (.textBlockEnd, _) :: events | (.toolUse .., _) :: events
  | (.segmentEnd _, _) :: events => final events

/-- The text a stream gives before it ends. -/
def streamedText : List (StreamEvent × ℕ) → Bytes
  | [] => []
  | (.textDelta text, _) :: events => text ++ streamedText events
  | (.textBlockEnd, _) :: events | (.toolUse .., _) :: events | (.segmentEnd _, _) :: events => streamedText events
  | (.done _, _) :: _ | (.refused .., _) :: _ | (.quotaExhausted .., _) :: _ | (.error _, _) :: _ => []

theorem streamOneRound_final (dfa : Automaton) (room : ℕ → Bool) (events : List (StreamEvent × ℕ))
    (responding : Bool) (toolNames : List Bytes) (progress : Progress) :
    (streamOneRound dfa room events responding toolNames progress).1.map StreamedRound.response = final events := by
  induction events generalizing responding toolNames progress with
  | nil => rfl
  | cons event events ih =>
    obtain ⟨event, now⟩ := event
    cases event with
    | textDelta | textBlockEnd | toolUse | segmentEnd =>
      rw [streamOneRound, final]
      exact ih _ _ _
    | done | refused | quotaExhausted | error => rfl

theorem streamOneRound_voice (dfa : Automaton) {room : ℕ → Bool} (hroom : Room room) {cap : ℕ}
    (events : List (StreamEvent × ℕ)) (responding : Bool) (toolNames : List Bytes) {progress : Progress}
    {told round : Bytes} (h : Voice cap progress.sink told round false) :
    Voice cap (streamOneRound dfa room events responding toolNames progress).2.sink told
      (round ++ streamedText events) false := by
  induction events generalizing responding toolNames progress round with
  | nil => rwa [streamedText, List.append_nil]
  | cons event events ih =>
    obtain ⟨event, now⟩ := event
    cases event with
    | textDelta text =>
      rw [streamOneRound, streamedText, ← List.append_assoc]
      refine ih _ _ ?_
      cases responding with
      | true => exact h.delta hroom text now
      | false => exact (h.quiet (status_quiet dfa room _ _ now)).delta hroom text now
    | textBlockEnd => exact ih _ _ h.textBlock
    | toolUse id name input => exact ih _ _ h
    | segmentEnd toolUse => exact ih _ _ (h.quiet (segment_quiet dfa room _ _ _ _))
    | done | refused | quotaExhausted | error => rwa [streamedText, List.append_nil]

/-! A round's end. -/

theorem sendTools_quiet (dfa : Automaton) (room : ℕ → Bool) (now : ℕ) (names : List Bytes) (sink : ProgressSink) :
    Quiet sink (sendTools dfa room now names sink) := by
  induction names generalizing sink with
  | nil => exact .refl sink
  | cons name names ih => exact (status_quiet dfa room sink _ now).trans (ih _)

theorem announceTools_voice {dfa : Automaton} {room : ℕ → Bool} (hroom : Room room) {cap : ℕ} {progress : Progress}
    {told round : Bytes} {flushed : Bool} (h : Voice cap progress.sink told round flushed) (boundary : Bool)
    (toolNames : List Bytes) : Voice cap (progress.announceTools dfa room boundary toolNames).sink told round true := by
  refine Voice.quiet ?_ (sendTools_quiet dfa room 0 toolNames _)
  cases boundary with
  | true => exact (h.flush hroom).quiet (deliver_quiet room _ fun _ => rfl)
  | false => exact h.flush hroom

/-- A round that will run tools has sent all its text; another round that is not cut has sent no more. -/
theorem settle_voice (dfa : Automaton) {room : ℕ → Bool} (hroom : Room room) {host : Host σ κ} {cap : ℕ}
    {progress : Progress} {told round : Bytes} (h : Voice cap progress.sink told round false)
    (streamed : StreamedRound) (hv : (host.validate streamed.response.content).2 = false) (survives : Bool) :
    Voice cap (progress.settle dfa room host streamed survives).sink told round survives := by
  have hsettled : ∀ p : Progress, (if p.sink.releasedAny then
      if (host.validate streamed.response.content).2 then
        { p with sink := (p.sink.finishCut room (textBlocksConcat (host.validate streamed.response.content).1)).2 }
      else p else p) = p := by
    intro p
    rw [hv, if_neg Bool.false_ne_true, ite_self]
  have hholding : progress.sink.isHolding = true := h.unsettled.2
  unfold Progress.settle
  dsimp only
  rw [hsettled]
  cases survives with
  | false => exact h
  | true =>
    cases hp : progress.segments.fromProvider with
    | false => exact announceTools_voice hroom h true _
    | true =>
      simp only [hholding]
      exact h.flush hroom

theorem settle_cut (dfa : Automaton) {room : ℕ → Bool} (hroom : Room room) {host : Host σ κ} {cap : ℕ}
    {progress : Progress} {told round : Bytes} (h : Voice cap progress.sink told round false)
    (streamed : StreamedRound) (hv : (host.validate streamed.response.content).2 = true) :
    Cut (progress.settle dfa room host streamed false).sink told
      (textBlocksConcat (host.validate streamed.response.content).1) := by
  unfold Progress.settle
  simp only [Bool.false_and, Bool.false_eq_true, if_false]
  rw [hv, if_pos rfl]
  split
  · exact h.cut hroom _
  · exact .inl h.unsettled

/-! The turn. -/

def replyText (msg : Message) : Bytes :=
  match msg.role, msg.content with
  | .assistant, .blocks blocks => textBlocksConcat blocks
  | .assistant, .text text => text
  | .user, _ => []

/-- The text of the replies among messages. -/
def replyTexts (messages : List Message) : Bytes := messages.flatMap replyText

@[simp] theorem replyTexts_append (a b : List Message) : replyTexts (a ++ b) = replyTexts a ++ replyTexts b :=
  List.flatMap_append

@[simp] theorem replyTexts_round (round : Round) : replyTexts round.messages = textBlocksConcat round.reply := by
  simp [replyTexts, Round.messages, replyText, assistantMessage, Context.toolMessage]

@[simp] theorem replyTexts_reply (reply : List ContentBlock) :
    replyTexts [assistantMessage reply] = textBlocksConcat reply := by
  simp [replyTexts, replyText, assistantMessage]

/-- What a provider streams is the text of its final record. -/
def Host.StreamsText (host : Host σ κ) : Prop :=
  ∀ s messages response, final (host.stream s messages).1 = .ok response →
    streamedText (host.stream s messages).1 = textBlocksConcat response.content

/-- How the client stands when the loop is over. -/
structure Told (cap : ℕ) (told : Bytes) (messages : List Message) (ended : LoopEnd σ κ) (sink : ProgressSink) :
    Prop where
  failed : ∀ e, ended.outcome = .error e → ∃ a b, Voice cap sink a b false
  kept : ∀ done, ended.outcome = .ok done → done.wasTruncated = false → ∃ new a b,
    ended.messages = messages ++ new ∧ a ++ b = told ++ replyTexts new ∧ Voice cap sink a b true
  cut : ∀ done, ended.outcome = .ok done → done.wasTruncated = true → ∃ before reply,
    ended.messages = messages ++ before ++ [assistantMessage reply] ∧
      Cut sink (told ++ replyTexts before) (textBlocksConcat reply)

theorem finish_voice {room : ℕ → Bool} (hroom : Room room) {cap : ℕ} {progress : Progress} {told round : Bytes}
    {flushed : Bool} (h : Voice cap progress.sink told round flushed) {done : ToolLoopResult κ}
    (hd : done.wasTruncated = false) : Voice cap (progress.finish room done).sink told round true := by
  unfold Progress.finish
  rw [hd, if_neg Bool.false_ne_true]
  dsimp only
  split
  · exact (h.flush hroom).quiet (deliver_quiet room _ fun _ => rfl)
  · exact h.flush hroom

/-- The sink before a round: with all told, or with all of the last round sent. -/
def Ready (cap : ℕ) (rs : RoundState) (sink : ProgressSink) (told : Bytes) : Prop :=
  if 0 < rs.rounds then ∃ a b, a ++ b = told ∧ Voice cap sink a b true else Voice cap sink told [] false

theorem Ready.begin {cap : ℕ} {rs : RoundState} {sink : ProgressSink} {told : Bytes} (h : Ready cap rs sink told) :
    Voice cap (if 0 < rs.rounds then sink.beginNextRound else sink) told [] false := by
  unfold Ready at h
  split at h
  · next hpos =>
    obtain ⟨a, b, rfl, h⟩ := h
    rw [if_pos hpos]
    exact h.nextRound
  · next hzero =>
    rw [if_neg hzero]
    exact h

theorem toolRoundSurvivesGuard_eq (host : Host σ κ) (response : LlmResponse) (rounds maxRounds : ℕ) :
    toolRoundSurvivesGuard host response rounds maxRounds = true ↔
      (host.validate response.content).2 = false ∧ response.stopReason = .toolUse ∧ rounds < maxRounds := by
  unfold toolRoundSurvivesGuard
  split
  · next h =>
    simp only [Bool.false_eq_true, false_iff, not_and, not_lt]
    intro _ hstop
    exact h.resolve_left (not_not_intro hstop)
  · next h =>
    simp only [not_or, not_not, not_le] at h
    simp [h.1, h.2]

private theorem Told.before {cap : ℕ} {told : Bytes} {messages new : List Message} {ended : LoopEnd σ κ}
    {sink : ProgressSink} (h : Told cap (told ++ replyTexts new) (messages ++ new) ended sink) :
    Told cap told messages ended sink where
  failed := h.failed
  kept done hd hc := by
    obtain ⟨more, a, b, hmessages, htext, hv⟩ := h.kept done hd hc
    refine ⟨new ++ more, a, b, ?_, ?_, hv⟩
    · rw [hmessages, List.append_assoc]
    · rw [htext, replyTexts_append, List.append_assoc]
  cut done hd hc := by
    obtain ⟨before, reply, hmessages, hcut⟩ := h.cut done hd hc
    refine ⟨new ++ before, reply, ?_, ?_⟩
    · rw [hmessages]
      simp only [List.append_assoc]
    · rw [replyTexts_append, ← List.append_assoc]
      exact hcut

/-- The last round of a turn. -/
private theorem lastRound_told (dfa : Automaton) {room : ℕ → Bool} (hroom : Room room) {host : Host σ κ}
    (hk : host.KeepsUncut) {cap : ℕ} {rs : RoundState} {messages : List Message} {s : σ} {finished : Finished σ κ}
    {done : ToolLoopResult κ} {progress : Progress} {told : Bytes} {round : StreamedRound}
    (h : Voice cap progress.sink told (textBlocksConcat round.response.content) false)
    (hends : Ends rs round.response (host.validate round.response.content).1
      (host.validate round.response.content).2 messages s finished done) :
    Told cap told messages ⟨.ok done, finished.messages, finished.state⟩
      ((progress.settle dfa room host round false).finish room done).sink where
  failed := nofun
  kept := by
    rintro d ⟨⟩ hd
    have hv := hends.truncated.symm.trans hd
    refine ⟨[assistantMessage (host.validate round.response.content).1], _, _, hends.messages, ?_,
      finish_voice hroom (settle_voice dfa hroom h round hv false) hd⟩
    rw [replyTexts_reply, validate_text hk hv]
  cut := by
    rintro d ⟨⟩ hd
    have hv := hends.truncated.symm.trans hd
    refine ⟨[], (host.validate round.response.content).1, ?_, ?_⟩
    · rw [List.append_nil]
      exact hends.messages
    · rw [replyTexts, List.flatMap_nil, List.append_nil, Progress.finish, if_pos hd]
      exact settle_cut dfa hroom h round hv

/-- The loop ends within its rounds, and the client stands as it should. -/
private theorem streaming_told (dfa : Automaton) {room : ℕ → Bool} (hroom : Room room) {host : Host σ κ}
    (hk : host.KeepsUncut) (hs : host.StreamsText) {cap maxRounds : ℕ} {fuel : ℕ} {rs : RoundState}
    {past : List Round} (hafter : rs.After past) (hwell : WellFormed past)
    (hfuel : maxRounds < fuel + past.length) (hbound : past.length ≤ maxRounds) (messages : List Message) (s : σ)
    {progress : Progress} {told : Bytes} (h : Ready cap rs progress.sink told) :
    ∃ ended progress', toolLoopStreaming dfa room host maxRounds fuel rs messages s progress =
      some (ended, progress') ∧ Told cap told messages ended progress'.sink := by
  induction fuel generalizing rs past messages s progress told with
  | zero => omega
  | succ fuel ih =>
    rw [toolLoopStreaming]
    dsimp only
    have hbegin := h.begin.quiet (status_quiet dfa room _ .thinking 0)
    generalize (ProgressSink.trySend dfa room (if 0 < rs.rounds then progress.sink.beginNextRound else progress.sink)
      (.status .thinking) 0).2 = sink at hbegin ⊢
    have hstream := streamOneRound_voice dfa hroom (host.stream s messages).1 false []
      (show Voice cap (Progress.mk sink progress.segments).sink told [] false from hbegin)
    have hfinal := streamOneRound_final dfa room (host.stream s messages).1 false [] ⟨sink, progress.segments⟩
    rw [List.nil_append] at hstream
    generalize streamOneRound dfa room (host.stream s messages).1 false [] ⟨sink, progress.segments⟩ = streamed
      at hstream hfinal ⊢
    obtain ⟨outcome, after⟩ := streamed
    cases outcome with
    | error e => exact ⟨_, _, rfl, fun _ _ => ⟨_, _, hstream⟩, nofun, nofun⟩
    | ok round =>
      rw [hs s messages _ hfinal.symm] at hstream
      dsimp only at hstream ⊢
      cases hsurvives : toolRoundSurvivesGuard host round.response rs.rounds maxRounds with
      | false =>
        have hlast : (host.validate round.response.content).2 = true ∨ round.response.stopReason ≠ .toolUse ∨
            maxRounds ≤ rs.rounds := by
          rw [← Bool.not_eq_true, toolRoundSurvivesGuard_eq, not_and_or, not_and_or, Bool.not_eq_false,
            not_lt] at hsurvives
          exact hsurvives
        obtain ⟨done, hends⟩ := finishRound_ends host maxRounds rs round.response hlast messages
          (host.stream s messages).2
        rw [hends.outcome]
        exact ⟨_, _, rfl, lastRound_told dfa hroom hk hstream hends⟩
      | true =>
        obtain ⟨hv, hstop, hrounds⟩ := (toolRoundSurvivesGuard_eq _ _ _ _).mp hsurvives
        obtain ⟨r, hgoes⟩ := finishRound_goesOn hk hafter hwell hv hstop hrounds messages (host.stream s messages).2
        rw [hgoes.outcome]
        have hsent := settle_voice dfa hroom hstream round hv true
        have hready : ∀ p : Progress, Voice cap p.sink told (textBlocksConcat round.response.content) true →
            Ready cap (finishRound host maxRounds rs round.response messages (host.stream s messages).2).rs p.sink
              (told ++ replyTexts r.messages) := by
          intro p hp
          have hpos : 0 < (past ++ [r]).length := by simp
          rw [Ready, hgoes.after.rounds, if_pos hpos, replyTexts_round, hgoes.reply, validate_text hk hv]
          exact ⟨_, _, rfl, hp⟩
        have hpast := hafter.rounds
        have hrest := fun p hp => ih hgoes.after hgoes.wellFormed (by simp; omega) (by simp; omega)
          (finishRound host maxRounds rs round.response messages (host.stream s messages).2).messages
          (finishRound host maxRounds rs round.response messages (host.stream s messages).2).state (hready p hp)
        rw [hgoes.messages] at hrest ⊢
        dsimp only
        split
        · obtain ⟨ended, progress', hrun, htold⟩ := hrest _ hsent
          exact ⟨ended, progress', hrun, htold.before⟩
        · obtain ⟨ended, progress', hrun, htold⟩ := hrest _ (announceTools_voice hroom hsent _ _)
          exact ⟨ended, progress', hrun, htold.before⟩

/-- The turn of a voice client on its own model. -/
theorem invoke_told (dfa : Automaton) {room : ℕ → Bool} (hroom : Room room) {host : Host σ κ}
    (hk : host.KeepsUncut) (hs : host.StreamsText) (cap maxRounds : ℕ) (messages : List Message) (s : σ) :
    ∃ ended progress, invokeWithToolLoopStreaming dfa room host maxRounds messages s (.holdingCapped cap) =
      some (ended, progress) ∧ Told cap [] messages ended progress.sink :=
  streaming_told dfa hroom hk hs .start ⟨nofun, nofun⟩ (Nat.lt_succ_self _) (Nat.zero_le _) messages s
    (Voice.start cap)

end PulseNull.ToolLoop
