import PulseNull.ToolLoop.Rounds

/-! What a tool loop adds to a conversation: rounds of a reply and its tools' results, and the reply that ended
it. -/
namespace PulseNull.ToolLoop
open Context (resultId toolMessage truncateToolResult truncateToolResultBlocks)
open Session (ContentBlock Message)
open Text (ascii)

variable {σ κ : Type}

structure Round where
  reply : List ContentBlock
  results : List ContentBlock

def Round.messages (round : Round) : List Message := [assistantMessage round.reply, toolMessage round.results]

def useId : ContentBlock → Option Bytes
  | .toolUse id _ _ => some id
  | .text _ | .toolResult .. => none

def isFailure : ContentBlock → Bool
  | .toolResult _ _ isError => isError = some true
  | .text _ | .toolUse .. => false

def isSuccess : ContentBlock → Bool
  | .toolResult _ _ isError => isError ≠ some true
  | .text _ | .toolUse .. => false

/-- Rounds in a row, up to the last, in which every call failed. A round without calls does not count. -/
def failuresIn (rounds : List Round) : ℕ :=
  rounds.foldl (fun failures round =>
    failuresAfter failures (round.results.any isSuccess) (round.results.any isFailure)) 0

theorem failuresIn_snoc (rounds : List Round) (round : Round) : failuresIn (rounds ++ [round]) =
    failuresAfter (failuresIn rounds) (round.results.any isSuccess) (round.results.any isFailure) := by
  rw [failuresIn, List.foldl_append]
  rfl

/-- The rounds, so far, in which the tools were found degraded. -/
def Degraded (rounds : List Round) : Prop := ∃ k ≤ rounds.length, toolFailureThreshold ≤ failuresIn (rounds.take k)

/-- Each result answers the tool use in its place, and the model is warned once, in the round in which the
tools are first found degraded. -/
structure WellFormed (rounds : List Round) : Prop where
  answered : ∀ round ∈ rounds, round.results.filterMap resultId = round.reply.filterMap useId
  warned : ∀ k round, rounds[k]? = some round → (.text toolDegradedWarning ∈ round.results ↔
    Degraded (rounds.take (k + 1)) ∧ ¬ Degraded (rounds.take k))

/-! One round. -/

/-- The results are those of the calls, in order. -/
theorem executeToolCalls_results (host : Host σ κ) (s : σ) (toolsUsed : List Bytes) (content : List ContentBlock) :
    let ran := executeToolCalls host s toolsUsed content
    ran.results.filterMap resultId = content.filterMap useId ∧ ran.hadSuccess = ran.results.any isSuccess ∧
      ran.hadFailure = ran.results.any isFailure ∧ ∀ text, .text text ∉ ran.results := by
  induction content generalizing s toolsUsed with
  | nil => exact ⟨rfl, rfl, rfl, fun _ => List.not_mem_nil⟩
  | cons block content ih =>
    cases block with
    | text text => exact ih s toolsUsed
    | toolResult toolUseId content isError => exact ih s toolsUsed
    | toolUse id name input =>
      obtain ⟨hids, hsuccess, hfailure, htexts⟩ := ih (host.execute s name input).2 (toolsUsed ++ [name])
      dsimp only [executeToolCalls]
      rcases (host.execute s name input).1 with _ | e | output
      all_goals
        dsimp only
        refine ⟨?_, ?_, ?_, fun text => ?_⟩
        · rw [List.filterMap_cons, List.filterMap_cons]
          exact congrArg (id :: ·) hids
        · simp [isSuccess, hsuccess]
        · simp [isFailure, hfailure]
        · simp [htexts text]

private theorem truncate_block (block : ContentBlock) :
    resultId (truncateToolResult block).1 = resultId block ∧
      isSuccess (truncateToolResult block).1 = isSuccess block ∧
      isFailure (truncateToolResult block).1 = isFailure block ∧
      ∀ text, (truncateToolResult block).1 = .text text ↔ block = .text text := by
  cases block with
  | toolResult id content isError =>
    rw [truncateToolResult]
    split_ifs <;> simp [resultId, isSuccess, isFailure]
  | text text => simp [truncateToolResult]
  | toolUse id name input => simp [truncateToolResult]

/-- Cutting large results changes no answer, no failure and no text. -/
theorem truncateToolResultBlocks_kinds (blocks : List ContentBlock) :
    let cut := (truncateToolResultBlocks blocks).1
    cut.filterMap resultId = blocks.filterMap resultId ∧ cut.any isSuccess = blocks.any isSuccess ∧
      cut.any isFailure = blocks.any isFailure ∧ ∀ text, .text text ∈ cut ↔ .text text ∈ blocks := by
  induction blocks with
  | nil => exact ⟨rfl, rfl, rfl, fun _ => Iff.rfl⟩
  | cons block blocks ih =>
    obtain ⟨hids, hsuccess, hfailure, htexts⟩ := ih
    obtain ⟨hid, hs, hf, ht⟩ := truncate_block block
    simp only [truncateToolResultBlocks, List.map_cons, List.map_map] at hids hsuccess hfailure htexts ⊢
    refine ⟨?_, ?_, ?_, fun text => ?_⟩
    · rw [List.filterMap_cons, List.filterMap_cons, hid, hids]
    · rw [List.any_cons, List.any_cons, hs, hsuccess]
    · rw [List.any_cons, List.any_cons, hf, hfailure]
    · rw [List.mem_cons, List.mem_cons, htexts text, eq_comm, ht text, @eq_comm _ block]

/-- What the nudges of a round add are texts; the warning is among them when the tools are found degraded. -/
theorem appendFeedbackNudges_results (rs : RoundState) {results : List ContentBlock} (hadSuccess hadFailure : Bool)
    (h : ∀ text, .text text ∉ results) :
    let nudged := appendFeedbackNudges rs results hadSuccess hadFailure
    nudged.2.filterMap resultId = results.filterMap resultId ∧ nudged.2.any isSuccess = results.any isSuccess ∧
      nudged.2.any isFailure = results.any isFailure ∧
      (.text toolDegradedWarning ∈ nudged.2 ↔ nudged.1.toolDegraded = true ∧ rs.toolDegraded = false) := by
  have hsystem : toolDegradedWarning[1]? = some 83 := by decide +kernel
  have hmixed : toolDegradedWarning ≠ expectationViolationMixed := fun he =>
    absurd (he ▸ hsystem) (by decide +kernel)
  have hfailed : toolDegradedWarning ≠ expectationViolationFailed := fun he =>
    absurd (he ▸ hsystem) (by decide +kernel)
  have hnone := h toolDegradedWarning
  simp only [appendFeedbackNudges]
  generalize decide (toolFailureThreshold ≤ failuresAfter rs.consecutiveToolFailures hadSuccess hadFailure) = hit
  cases hdegraded : rs.toolDegraded <;> cases hit <;> cases hadSuccess <;> cases hadFailure <;>
    simp [resultId, isSuccess, isFailure, hmixed, hfailed, hnone]

/-! The accumulators over the rounds. -/

structure RoundState.After (rs : RoundState) (past : List Round) : Prop where
  rounds : rs.rounds = past.length
  text : rs.accumulatedText = past.flatMap fun round => spokenTexts round.reply
  failures : rs.consecutiveToolFailures = failuresIn past
  degraded : rs.toolDegraded = true ↔ Degraded past

theorem RoundState.After.start : RoundState.new.After [] := by
  refine ⟨rfl, rfl, rfl, ?_⟩
  simp [RoundState.new, Degraded, failuresIn, toolFailureThreshold]

theorem degraded_snoc (past : List Round) (round : Round) : Degraded (past ++ [round]) ↔
    Degraded past ∨ toolFailureThreshold ≤ failuresIn (past ++ [round]) := by
  constructor
  · rintro ⟨k, hk, h⟩
    rw [List.length_append, List.length_singleton] at hk
    rcases Nat.lt_or_ge past.length k with hlt | hle
    · rw [List.take_of_length_le (by simp; omega)] at h
      exact .inr h
    · rw [List.take_append_of_le_length hle] at h
      exact .inl ⟨k, hle, h⟩
  · rintro (⟨k, hk, h⟩ | h)
    · refine ⟨k, by simp; omega, ?_⟩
      rwa [List.take_append_of_le_length hk]
    · exact ⟨(past ++ [round]).length, le_rfl, by rwa [List.take_length]⟩

theorem WellFormed.snoc {past : List Round} {round : Round} (h : WellFormed past)
    (hanswered : round.results.filterMap resultId = round.reply.filterMap useId)
    (hwarned : .text toolDegradedWarning ∈ round.results ↔ Degraded (past ++ [round]) ∧ ¬ Degraded past) :
    WellFormed (past ++ [round]) := by
  constructor
  · intro r hr
    rcases List.mem_append.mp hr with hr | hr
    · exact h.answered r hr
    · rw [List.mem_singleton.mp hr]
      exact hanswered
  · intro k r hk
    rcases Nat.lt_or_ge k past.length with hlt | hge
    · rw [List.getElem?_append_left hlt] at hk
      rw [List.take_append_of_le_length hlt, List.take_append_of_le_length hlt.le]
      exact h.warned k r hk
    · rw [List.getElem?_append_right hge, List.getElem?_singleton] at hk
      split at hk
      · next hz =>
        obtain rfl := Option.some.inj hk
        obtain rfl : k = past.length := by omega
        rw [List.take_of_length_le (by simp), List.take_left]
        exact hwarned
      · exact nomatch hk

/-! A round of the loop. -/

/-- The reply guard keeps a reply that it does not cut. -/
structure Host.KeepsUncut (host : Host σ κ) : Prop where
  uncut : ∀ blocks, (host.validateContentBlocks blocks).2 = false → (host.validateContentBlocks blocks).1 = blocks

private theorem validate_uncut {host : Host σ κ} (hk : host.KeepsUncut) {content : List ContentBlock}
    (h : (host.validate content).2 = false) :
    (host.validate content).1 = content.map (convertFromRv ∘ convertToRv) := by
  rw [Host.validate, hk.uncut _ h, List.map_map]

theorem validate_uses {host : Host σ κ} (hk : host.KeepsUncut) {content : List ContentBlock}
    (h : (host.validate content).2 = false) :
    (host.validate content).1.filterMap useId = content.filterMap useId := by
  rw [validate_uncut hk h, List.filterMap_map]
  refine List.filterMap_congr fun block _ => ?_
  cases block <;> rfl

private theorem convert_text (content : List ContentBlock) :
    textBlocksConcat (content.map (convertFromRv ∘ convertToRv)) = textBlocksConcat content := by
  induction content with
  | nil => rfl
  | cons block content ih => cases block <;> simp [convertToRv, convertFromRv, textBlocksConcat, ih]

theorem validate_text {host : Host σ κ} (hk : host.KeepsUncut) {content : List ContentBlock}
    (h : (host.validate content).2 = false) :
    textBlocksConcat (host.validate content).1 = textBlocksConcat content := by
  rw [validate_uncut hk h, convert_text]

/-- The round's tools are run, and another follows. -/
structure GoesOn (past : List Round) (reply : List ContentBlock) (messages : List Message)
    (finished : Finished σ κ) (round : Round) : Prop where
  outcome : finished.outcome = .continue
  reply : round.reply = reply
  messages : finished.messages = messages ++ round.messages
  after : finished.rs.After (past ++ [round])
  wellFormed : WellFormed (past ++ [round])

theorem finishRound_goesOn {host : Host σ κ} (hk : host.KeepsUncut) {maxRounds : ℕ} {rs : RoundState}
    {past : List Round} (hafter : rs.After past) (hwell : WellFormed past) {result : LlmResponse}
    (hv : (host.validate result.content).2 = false) (hstop : result.stopReason = .toolUse)
    (hrounds : rs.rounds < maxRounds) (messages : List Message) (s : σ) :
    ∃ round, GoesOn past (host.validate result.content).1 messages
      (finishRound host maxRounds rs result messages s) round := by
  obtain ⟨hids, hsuccess, hfailure, htexts⟩ := executeToolCalls_results host s rs.toolsUsed result.content
  set ran := executeToolCalls host s rs.toolsUsed result.content with hran
  set counted : RoundState := { rs with
    totalInputTokens := (rs.totalInputTokens + result.inputTokens.getD 0) % 2^32
    totalOutputTokens := (rs.totalOutputTokens + result.outputTokens.getD 0) % 2^32
    finalModel := result.model
    accumulatedText := rs.accumulatedText ++ spokenTexts (host.validate result.content).1
    rounds := rs.rounds + 1
    toolsUsed := ran.toolsUsed } with hcounted
  set nudged := appendFeedbackNudges counted ran.results ran.hadSuccess ran.hadFailure with hnudged
  have heq : finishRound host maxRounds rs result messages s = ⟨.continue, nudged.1,
      messages ++ [assistantMessage (host.validate result.content).1] ++
        [toolMessage (truncateToolResultBlocks nudged.2).1], ran.state⟩ := by
    unfold finishRound
    simp only [hv, hstop]
    rw [if_neg (by simp), if_neg (by simpa using hrounds)]
  obtain ⟨hnids, hnsuccess, hnfailure, hwarning⟩ :=
    appendFeedbackNudges_results counted ran.hadSuccess ran.hadFailure htexts
  obtain ⟨hcids, hcsuccess, hcfailure, hctexts⟩ := truncateToolResultBlocks_kinds nudged.2
  let round : Round := ⟨(host.validate result.content).1, (truncateToolResultBlocks nudged.2).1⟩
  have hfailures : failuresIn (past ++ [round]) = nudged.1.consecutiveToolFailures := by
    rw [failuresIn_snoc, hcsuccess, hcfailure, hnsuccess, hnfailure, ← hsuccess, ← hfailure, ← hafter.failures]
    rfl
  have hdegraded : nudged.1.toolDegraded = true ↔ Degraded (past ++ [round]) := by
    rw [degraded_snoc, hfailures, ← hafter.degraded]
    simp only [hnudged, appendFeedbackNudges, hcounted]
    cases rs.toolDegraded <;> simp
  refine ⟨round, by rw [heq], rfl, by rw [heq]; exact List.append_assoc _ _ _, ?_, hwell.snoc ?_ ?_⟩
  · rw [heq]
    refine ⟨?_, ?_, hfailures.symm, hdegraded⟩
    · simp [hnudged, appendFeedbackNudges, hcounted, hafter.rounds]
    · simp [hnudged, appendFeedbackNudges, hcounted, hafter.text, round]
  · rw [hcids, hnids, hids, validate_uses hk hv]
  · rw [hctexts, hwarning, hdegraded, ← hafter.degraded, Bool.not_eq_true]

/-- The round is the last. -/
structure Ends (rs : RoundState) (result : LlmResponse) (reply : List ContentBlock) (cut : Bool)
    (messages : List Message) (s : σ) (finished : Finished σ κ) (done : ToolLoopResult κ) : Prop where
  outcome : finished.outcome = .done done
  messages : finished.messages = messages ++ [assistantMessage reply]
  state : finished.state = s
  text : done.text = [10, 10].intercalate (rs.accumulatedText ++ spokenTexts reply)
  truncated : done.wasTruncated = cut
  breaker : done.circuitBreakerFired = (!cut && decide (result.stopReason = .toolUse))
  rounds : done.toolRounds = rs.rounds + if done.circuitBreakerFired then 1 else 0
  degraded : done.toolDegraded = rs.toolDegraded

theorem finishRound_ends (host : Host σ κ) (maxRounds : ℕ) (rs : RoundState) (result : LlmResponse)
    (h : (host.validate result.content).2 = true ∨ result.stopReason ≠ .toolUse ∨ maxRounds ≤ rs.rounds)
    (messages : List Message) (s : σ) :
    ∃ done, Ends rs result (host.validate result.content).1 (host.validate result.content).2 messages s
      (finishRound host maxRounds rs result messages s) done := by
  unfold finishRound
  dsimp only
  cases hv : (host.validate result.content).2 with
  | true =>
    rw [if_pos rfl]
    refine ⟨_, ⟨rfl, rfl, rfl, ?_, ?_, ?_, ?_, ?_⟩⟩ <;> simp [RoundState.result]
  | false =>
    rw [hv] at h
    rw [if_neg Bool.false_ne_true]
    cases hstop : result.stopReason with
    | toolUse =>
      have hmax : maxRounds < rs.rounds + 1 := by
        rcases h with h | h | h
        · exact nomatch h
        · exact absurd hstop h
        · omega
      dsimp only
      rw [if_pos hmax]
      refine ⟨_, ⟨rfl, rfl, rfl, ?_, ?_, ?_, ?_, ?_⟩⟩ <;> simp [RoundState.result, hstop]
    | endTurn | maxTokens | stopSequence | other reason =>
      refine ⟨_, ⟨rfl, rfl, rfl, ?_, ?_, ?_, ?_, ?_⟩⟩ <;> simp [RoundState.result, hstop]

/-! The loop. -/

/-- What a turn's loop left: the rounds it ran, and the reply that ended it, if one did. -/
structure Ended (maxRounds : ℕ) (messages : List Message) (ended : LoopEnd σ κ) (rounds : List Round)
    (last : Option (List ContentBlock)) : Prop where
  messages : ended.messages = messages ++ rounds.flatMap Round.messages ++ last.toList.map assistantMessage
  wellFormed : WellFormed rounds
  bounded : rounds.length ≤ maxRounds
  failed : ∀ e, ended.outcome = .error e → last = none
  result : ∀ done, ended.outcome = .ok done → ∃ reply, last = some reply ∧
    done.text = [10, 10].intercalate ((rounds.map Round.reply ++ [reply]).flatMap spokenTexts) ∧
    done.toolRounds = rounds.length + (if done.circuitBreakerFired then 1 else 0) ∧
    (done.circuitBreakerFired = true → rounds.length = maxRounds) ∧
    (done.toolDegraded = true ↔ Degraded rounds)

private theorem Ends.ended {host : Host σ κ} {maxRounds : ℕ} {rs : RoundState} {past : List Round}
    {result : LlmResponse} {messages : List Message} {s : σ} {finished : Finished σ κ} {done : ToolLoopResult κ}
    (h : Ends rs result (host.validate result.content).1 (host.validate result.content).2
      (messages ++ past.flatMap Round.messages) s finished done)
    (hlast : (host.validate result.content).2 = true ∨ result.stopReason ≠ .toolUse ∨ maxRounds ≤ rs.rounds)
    (hafter : rs.After past) (hwell : WellFormed past) (hbound : past.length ≤ maxRounds) :
    Ended maxRounds messages ⟨.ok done, finished.messages, finished.state⟩ past
      (some (host.validate result.content).1) where
  messages := h.messages
  wellFormed := hwell
  bounded := hbound
  failed := nofun
  result := by
    rintro d ⟨⟩
    refine ⟨_, rfl, ?_, hafter.rounds ▸ h.rounds, fun hb => ?_, by rw [h.degraded, hafter.degraded]⟩
    · rw [h.text, hafter.text, List.flatMap_append, List.flatMap_map, List.flatMap_singleton]
    · rw [h.breaker, Bool.and_eq_true, decide_eq_true_eq, Bool.not_eq_true'] at hb
      have hmax : maxRounds ≤ rs.rounds := by
        rcases hlast with hv | hstop | hmax
        · rw [hb.1] at hv
          exact nomatch hv
        · exact absurd hb.2 hstop
        · exact hmax
      have := hafter.rounds
      omega

/-- The rounds end the loop before the fuel does. -/
theorem toolLoop_ended {host : Host σ κ} (hk : host.KeepsUncut) {maxRounds : ℕ} (messages : List Message)
    {fuel : ℕ} {rs : RoundState} {past : List Round} (hafter : rs.After past) (hwell : WellFormed past)
    (hbound : past.length ≤ maxRounds) (hfuel : maxRounds < fuel + past.length) (s : σ) :
    ∃ ended rounds last, toolLoop host maxRounds fuel rs (messages ++ past.flatMap Round.messages) s = some ended ∧
      Ended maxRounds messages ended rounds last := by
  induction fuel generalizing rs past s with
  | zero => omega
  | succ fuel ih =>
    rw [toolLoop]
    cases hanswer : (host.invoke s (messages ++ past.flatMap Round.messages)).1 with
    | error e =>
      refine ⟨_, past, none, rfl, by simp, hwell, hbound, fun _ _ => rfl, nofun⟩
    | ok result =>
      dsimp only
      set state := (host.invoke s (messages ++ past.flatMap Round.messages)).2
      by_cases hlast : (host.validate result.content).2 = true ∨ result.stopReason ≠ .toolUse ∨ maxRounds ≤ rs.rounds
      · obtain ⟨done, hends⟩ := finishRound_ends host maxRounds rs result hlast
          (messages ++ past.flatMap Round.messages) state
        rw [hends.outcome]
        exact ⟨_, past, _, rfl, hends.ended hlast hafter hwell hbound⟩
      · simp only [not_or, Bool.not_eq_true, not_not, not_le] at hlast
        obtain ⟨hv, hstop, hrounds⟩ := hlast
        obtain ⟨round, hgoes⟩ := finishRound_goesOn hk hafter hwell hv hstop hrounds
          (messages ++ past.flatMap Round.messages) state
        have hmessages : (finishRound host maxRounds rs result (messages ++ past.flatMap Round.messages)
            state).messages = messages ++ (past ++ [round]).flatMap Round.messages := by
          rw [hgoes.messages, List.flatMap_append, List.flatMap_singleton, List.append_assoc]
        rw [hgoes.outcome]
        dsimp only
        rw [hmessages]
        have hpast := hafter.rounds
        refine ih hgoes.after hgoes.wellFormed ?_ ?_ _ <;> rw [List.length_append, List.length_singleton] <;> omega

/-- A model that asks for a tool that is not there, then ends its turn; nothing is cut. -/
def sampleReply : ℕ → LlmResponse
  | 0 => ⟨[.text (ascii "One moment. "), .toolUse (ascii "t1") (ascii "clock") (ascii "\x7b\x7d")], ascii "m", none, none,
      .toolUse⟩
  | _ => ⟨[.text (ascii "I have no clock.")], ascii "m", some 9, some 4, .endTurn⟩

def sampleAsk : Message := ⟨.user, .text (ascii "The time?"), some (.human (ascii "chat") (ascii "D"))⟩

def sampleEvent : ContentBlock → StreamEvent × ℕ
  | .text text => (.textDelta text, 0)
  | .toolUse id name input => (.toolUse id name input, 0)
  | .toolResult .. => (.textBlockEnd, 0)

def sampleHost : Host ℕ Unit where
  invoke s _ := (.ok (sampleReply s), s + 1)
  stream s _ := ((sampleReply s).content.map sampleEvent ++ [(.done (sampleReply s), 1)], s + 1)
  execute s _ _ := (none, s)
  validateContentBlocks blocks := (blocks, false)
  unmatchedClaims _ _ := []

theorem sampleHost_keeps : sampleHost.KeepsUncut := ⟨fun _ _ => rfl⟩

end PulseNull.ToolLoop
