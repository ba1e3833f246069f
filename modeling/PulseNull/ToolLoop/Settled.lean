import PulseNull.ToolLoop.Turn
import PulseNull.ToolLoop.Voice

/-! What a voice client holds at the end of a turn: what the turn stands by, or nothing. -/
namespace PulseNull.ToolLoop
open Server.TurnStream (ResetReason TurnStatus)
open Session (ContentBlock Message)
open Speech (Automaton)
open ProgressSink (Room)
open Text (ascii)

variable {σ κ : Type} {cap : ℕ}

/-! What the turn tells the client of its own. -/

theorem reset_voids (dfa : Automaton) {room : ℕ → Bool} (hroom : Room room) {sink : ProgressSink}
    (h : sink.held.isSome = true) (reason : ResetReason) (now : ℕ) :
    let sent := sink.trySend dfa room (.reset reason) now
    sent.1 = true ∧ heard sent.2.out = [] ∧ sent.2.held = sink.held := by
  obtain ⟨buf, hb⟩ := Option.isSome_iff_exists.mp h
  unfold ProgressSink.trySend
  rw [hb]
  dsimp only
  rw [ProgressSink.deliver_room hroom]
  exact ⟨rfl, heard_snoc _ _, hb⟩

theorem discard_keeps (sink : ProgressSink) : sink.discardHeld.2.out = sink.out ∧
    sink.discardHeld.2.sawDelta = sink.sawDelta ∧ sink.discardHeld.2.held.isSome = sink.held.isSome := by
  unfold ProgressSink.discardHeld
  cases hb : sink.held with
  | none => exact ⟨rfl, rfl, by rw [hb]⟩
  | some buf => exact ⟨rfl, rfl, rfl⟩

theorem Quiet.isSome {sink sink' : ProgressSink} (h : Quiet sink sink') :
    sink'.held.isSome = sink.held.isSome := by
  have := congrArg Option.isSome h.held
  rwa [Option.isSome_map, Option.isSome_map] at this

theorem voidDraft_voids (dfa : Automaton) {room : ℕ → Bool} (hroom : Room room) {sink : ProgressSink}
    (h : sink.held.isSome = true) (hmarked : Marked sink) :
    (voidDraft dfa room sink).1 = true ∧ heard (voidDraft dfa room sink).2.out = [] ∧
      (voidDraft dfa room sink).2.held.isSome = true := by
  obtain ⟨hout, hsaw, hheld⟩ := discard_keeps sink
  unfold voidDraft
  dsimp only
  split
  · obtain ⟨hsent, hheard, hkept⟩ := reset_voids dfa hroom (hheld.trans h) .fallback 0
    rw [if_pos hsent]
    have hq := status_quiet dfa room (sink.discardHeld.2.trySend dfa room (.reset .fallback) 0).2 .thinking 0
    exact ⟨rfl, hq.heard.trans hheard, hq.isSome.trans (hkept ▸ hheld.trans h)⟩
  · next hno =>
    have hq := status_quiet dfa room sink.discardHeld.2 .thinking 0
    refine ⟨rfl, hq.heard.trans ?_, hq.isSome.trans (hheld.trans h)⟩
    rw [hout]
    refine hmarked ?_
    rw [Bool.or_eq_true, not_or, Bool.not_eq_true, hsaw] at hno
    exact hno.1

theorem sendReply_heard (dfa : Automaton) {room : ℕ → Bool} (hroom : Room room) (text : Bytes) (sink : ProgressSink) :
    heard (sendReply dfa room text sink).out = heard sink.out ++ text ∧
      (sendReply dfa room text sink).held.isSome = sink.held.isSome := by
  have hq := status_quiet dfa room sink .responding 0
  unfold sendReply
  rw [ProgressSink.deliver_room hroom]
  exact ⟨(heard_snoc _ _).trans (congrArg (· ++ text) hq.heard), hq.isSome⟩

/-- What has been let go of a hold is known to the sink. -/
theorem Voice.unreleased {sink : ProgressSink} {told round : Bytes} {flushed : Bool}
    (h : Voice cap sink told round flushed) (hr : sink.releasedAny = false) : heard sink.out = [] := by
  obtain ⟨buf, hb, -, -, h⟩ := h
  rw [ProgressSink.releasedAny, hb, Option.any_some, Bool.or_eq_false_iff, decide_eq_false_iff_not] at hr
  obtain ⟨hever, hzero⟩ := hr
  rcases h with h | h
  · have htold : told = [] := by
      by_contra ht
      rw [h.ever ht] at hever
      exact nomatch hever
    have hheard := h.heard
    rwa [htold, show buf.gate.released = 0 by omega, List.take_zero, List.append_nil] at hheard
  · exact h.silent

/-- All of the replies, or nothing when they are too long for the hold. -/
theorem Voice.flushed {sink : ProgressSink} {told round : Bytes} (h : Voice cap sink told round true) :
    heard sink.out = told ++ round ∨ heard sink.out = [] ∧ cap < (told ++ round).length := by
  obtain ⟨buf, -, rfl, -, h⟩ := h
  rcases h with h | h
  · left
    have hheard := h.heard
    rwa [(h.all rfl).1, List.take_length] at hheard
  · exact .inr ⟨h.silent, h.beyond⟩

/-! Before the client is told of a cut or a failure. -/

/-- How the client stands when the provider's part of the turn is over. -/
structure Unsettled (cap : ℕ) (messages : List Message) (ended : TurnEnd σ κ) (sink : ProgressSink) : Prop where
  offered : ended.sink = some sink
  held : sink.held.isSome = true
  failed : ∀ e, ended.outcome = .error e → sink.releasedAny = false → heard sink.out = []
  fallback : ∀ outcome, ended.outcome = .ok outcome → outcome.quarantined = true →
    heard sink.out = outcome.result.text
  kept : ∀ outcome, ended.outcome = .ok outcome → outcome.quarantined = false →
    outcome.result.wasTruncated = false → ∃ new a b, ended.data.messages = messages ++ new ∧
      a ++ b = replyTexts new ∧ Voice cap sink a b true
  cut : ∀ outcome, ended.outcome = .ok outcome → outcome.quarantined = false →
    outcome.result.wasTruncated = true → ∃ before reply,
      ended.data.messages = messages ++ before ++ [assistantMessage reply] ∧
        Cut sink (replyTexts before) (textBlocksConcat reply)

private theorem Unsettled.ofError {messages : List Message} {e : TurnError} {data : SessionData} {s : σ}
    {sink : ProgressSink} (hheld : sink.held.isSome = true)
    (h : sink.releasedAny = false → heard sink.out = []) :
    Unsettled (κ := κ) cap messages ⟨.error e, data, s, some sink⟩ sink :=
  ⟨rfl, hheld, fun _ _ => h, nofun, nofun, nofun⟩

private theorem runFallback_unsettled (dfa : Automaton) {room : ℕ → Bool} (hroom : Room room) {host : Host σ κ}
    (hk : host.KeepsUncut) (display : TurnError → Bytes) (build : Fallback σ) (data : SessionData)
    (messages : List Message) (userMsg : Message) (s : σ) {sink : ProgressSink} {told round : Bytes}
    (h : Voice cap sink told round false) :
    ∃ ended sink', runFallback dfa room host display build data userMsg s (some sink) = some ended ∧
      Unsettled cap messages ended sink' := by
  unfold runFallback
  cases build with
  | error e => exact ⟨_, _, rfl, .ofError h.unsettled.2 h.unreleased⟩
  | ok invoke =>
    obtain ⟨-, -, -, hmarked, -⟩ := id h
    obtain ⟨hsent, hheard, hheld⟩ := voidDraft_voids dfa hroom h.unsettled.2 hmarked
    have hk' : Host.KeepsUncut { host with invoke } := ⟨hk.uncut⟩
    obtain ⟨ended, rounds, last, hrun, -⟩ := toolLoop_ended hk'
      (data.messages ++ data.quarantine ++ [userMsg]) .start ⟨nofun, nofun⟩ (Nat.zero_le maxToolRounds)
      (Nat.lt_succ_self _) s
    rw [List.flatMap_nil, List.append_nil] at hrun
    dsimp only [Option.map_some, Option.any_some]
    rw [if_neg (by simp [hsent]), invokeWithToolLoop, hrun]
    dsimp only
    cases ended.outcome with
    | error e => exact ⟨_, _, rfl, .ofError hheld fun _ => hheard⟩
    | ok result =>
      obtain ⟨htext, hsome⟩ := sendReply_heard dfa hroom result.text (voidDraft dfa room sink).2
      refine ⟨_, _, rfl, rfl, hsome.trans hheld, nofun, ?_, ?_, ?_⟩
      · rintro outcome ⟨⟩ -
        rw [htext, hheard]
        rfl
      · rintro outcome ⟨⟩ hq
        exact nomatch hq
      · rintro outcome ⟨⟩ hq
        exact nomatch hq

private theorem invoke_unsettled (dfa : Automaton) {room : ℕ → Bool} (hroom : Room room) {host : Host σ κ}
    (hk : host.KeepsUncut) (hs : host.StreamsText) (display : TurnError → Bytes)
    (buildFallback : Option (Fallback σ)) (cap : ℕ) (data : SessionData) (s : σ) :
    ∃ ended sink, invokeTurnWithRefusalFallback dfa room host display buildFallback data s
      (some (.holdingCapped cap)) = some ended ∧ Unsettled cap data.messages ended sink := by
  unfold invokeTurnWithRefusalFallback
  cases data.messages.length with
  | zero => exact ⟨_, _, rfl, .ofError rfl fun _ => rfl⟩
  | succ userIndex =>
    obtain ⟨ended, progress, hrun, htold⟩ := invoke_told dfa hroom hk hs cap maxToolRounds data.messages s
    dsimp only [defaultOutcome]
    rw [hrun, Option.map_some]
    dsimp only
    cases houtcome : ended.outcome with
    | ok result =>
      refine ⟨_, _, rfl, rfl, ?_, nofun, ?_, ?_, ?_⟩
      · cases hcut : result.wasTruncated with
        | false =>
          obtain ⟨new, a, b, -, -, hv⟩ := htold.kept result houtcome hcut
          exact hv.unsettled.2
        | true =>
          obtain ⟨before, reply, -, hcut⟩ := htold.cut result houtcome hcut
          exact hcut.isSome
      · rintro outcome ⟨⟩ hq
        exact nomatch hq
      · rintro outcome ⟨⟩ - hcut
        exact htold.kept result houtcome hcut
      · rintro outcome ⟨⟩ - hcut
        exact htold.cut result houtcome hcut
    | error refusal =>
      obtain ⟨a, b, hv⟩ := htold.failed refusal houtcome
      dsimp only
      split
      · exact runFallback_unsettled dfa hroom hk display _ _ _ _ _ hv
      · exact ⟨_, _, rfl, .ofError hv.unsettled.2 hv.unreleased⟩

/-! The end of the turn. -/

/-- What a voice client may hold at the end of a turn. Of a failed turn, nothing; of the fallback model's turn, its
reply. Of the default model's, the text of the replies the turn added to the conversation, one after the other, or
nothing when that is more than the hold takes; and when the last reply was cut, either that or the turn's text, or,
when of the cut reply nothing had gone out and of those before it something had, the text of those before it. -/
def Stands (cap : ℕ) (messages : List Message) (ended : TurnEnd σ κ) (text : Bytes) : Prop :=
  match ended.outcome with
  | .error _ => text = []
  | .ok outcome =>
    if outcome.quarantined then text = outcome.result.text
    else ∃ new, ended.data.messages = messages ++ new ∧
      if outcome.result.wasTruncated then
        text = replyTexts new ∨ text = outcome.result.text ∨ ∃ before reply,
          new = before ++ [assistantMessage reply] ∧ replyTexts before ≠ [] ∧ text = replyTexts before
      else text = replyTexts new ∨ text = [] ∧ cap < (replyTexts new).length

private theorem Unsettled.resent {messages : List Message} {ended settled : TurnEnd σ κ} {sink : ProgressSink}
    (h : Unsettled cap messages ended sink) {outcome : TurnResult κ} (houtcome : ended.outcome = .ok outcome)
    (hcut : outcome.result.wasTruncated = true) (hkept : settled.outcome = .ok outcome)
    (hdata : settled.data = ended.data) : Stands cap messages settled outcome.result.text := by
  unfold Stands
  rw [hkept, hdata]
  dsimp only
  cases hq : outcome.quarantined with
  | true => exact rfl
  | false =>
    obtain ⟨before, reply, hmessages, -⟩ := h.cut outcome houtcome hq hcut
    rw [if_neg Bool.false_ne_true]
    refine ⟨before ++ [assistantMessage reply], by rw [hmessages, List.append_assoc], ?_⟩
    rw [if_pos hcut]
    exact .inr (.inl rfl)

private theorem Unsettled.stands {messages : List Message} {ended : TurnEnd σ κ} {sink : ProgressSink}
    (h : Unsettled cap messages ended sink) {outcome : TurnResult κ} (houtcome : ended.outcome = .ok outcome)
    (hsettled : (outcome.result.wasTruncated && !sink.cutWasHandled) = false) :
    Stands cap messages ended (heard sink.out) := by
  unfold Stands
  rw [houtcome]
  dsimp only
  cases hq : outcome.quarantined with
  | true => exact h.fallback outcome houtcome hq
  | false =>
    rw [if_neg Bool.false_ne_true]
    cases hcut : outcome.result.wasTruncated with
    | false =>
      obtain ⟨new, a, b, hmessages, htexts, hv⟩ := h.kept outcome houtcome hq hcut
      refine ⟨new, hmessages, ?_⟩
      rw [if_neg Bool.false_ne_true, ← htexts]
      exact hv.flushed
    | true =>
      obtain ⟨before, reply, hmessages, hcut'⟩ := h.cut outcome houtcome hq hcut
      rw [hcut, Bool.true_and, Bool.not_eq_false'] at hsettled
      refine ⟨before ++ [assistantMessage reply], by rw [hmessages, List.append_assoc], ?_⟩
      rw [if_pos rfl]
      rcases hcut' with ⟨hun, -⟩ | ⟨-, -, hall | ⟨hsome, hold⟩⟩
      · exact absurd hsettled (by simp [hun])
      · left
        rw [hall, replyTexts_append, replyTexts_reply]
      · exact .inr (.inr ⟨before, reply, rfl, hsome, hold⟩)

private theorem settleClient_stands (dfa : Automaton) {room : ℕ → Bool} (hroom : Room room)
    {messages : List Message} {ended : TurnEnd σ κ} {sink : ProgressSink}
    (h : Unsettled cap messages ended sink) : ∃ sink', (settleClient dfa room true ended).sink = some sink' ∧
      Stands cap messages (settleClient dfa room true ended) (heard sink'.out) := by
  unfold settleClient
  rw [h.offered]
  cases houtcome : ended.outcome with
  | error err =>
    dsimp only
    cases hr : sink.releasedAny with
    | false =>
      rw [if_neg (by decide)]
      refine ⟨sink, h.offered, ?_⟩
      simp only [Stands, houtcome]
      exact h.failed err houtcome hr
    | true =>
      have hreset := fun reason => reset_voids dfa hroom h.held reason 0
      rw [if_pos (by decide), if_pos (hreset _).1]
      exact ⟨_, rfl, (hreset _).2.1⟩
  | ok outcome =>
    dsimp only
    cases hsettled : outcome.result.wasTruncated && !sink.cutWasHandled with
    | false =>
      rw [if_neg Bool.false_ne_true]
      exact ⟨sink, h.offered, h.stands houtcome hsettled⟩
    | true =>
      have hcut := (Bool.and_eq_true_iff.mp hsettled).1
      obtain ⟨-, -, hheld⟩ := discard_keeps sink
      obtain ⟨hsent, hheard, -⟩ := reset_voids dfa hroom (hheld.trans h.held) .guard 0
      rw [if_pos rfl, hsent, if_neg (by decide)]
      cases hempty : decide (outcome.result.text = []) with
      | true =>
        rw [if_neg (by decide)]
        refine ⟨_, rfl, ?_⟩
        rw [hheard, ← of_decide_eq_true hempty]
        exact h.resent houtcome hcut rfl rfl
      | false =>
        rw [if_pos (by decide), ProgressSink.deliver_room hroom]
        refine ⟨_, rfl, ?_⟩
        dsimp only
        rw [heard_snoc, hheard]
        exact h.resent houtcome hcut rfl rfl

private theorem sample_final (content : List ContentBlock) (response : LlmResponse) :
    final (content.map sampleEvent ++ [(.done response, 1)]) = .ok response ∧
      streamedText (content.map sampleEvent ++ [(.done response, 1)]) = textBlocksConcat content := by
  induction content with
  | nil => exact ⟨rfl, rfl⟩
  | cons block content ih =>
    cases block with
    | text text => exact ⟨ih.1, congrArg (text ++ ·) ih.2⟩
    | toolUse | toolResult => exact ih

private theorem sampleHost_streams : sampleHost.StreamsText := by
  intro s messages response h
  obtain ⟨hfinal, htext⟩ := sample_final (sampleReply s).content (sampleReply s)
  obtain rfl := Except.ok.inj (hfinal.symm.trans h)
  exact htext

end PulseNull.ToolLoop
