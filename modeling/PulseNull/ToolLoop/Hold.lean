import PulseNull.ToolLoop.Heard

/-! The hold of a voice turn over its rounds: `told` is the text of the rounds that are over, `round` what this
one has streamed so far. -/
namespace PulseNull.ToolLoop
open Server.TurnStream (TurnEvent TurnStatus)
open Session (isCharBoundary)
open Speech (Automaton SpeechGate StartsAt)
open ProgressSink (Room)

/-- The client has what was told, and of this round what the gate has let go; what it has not is held. -/
structure HeldSpeech.Holds (buf : HeldSpeech) (text told round : Bytes) (flushed : Bool) : Prop where
  heard : text = told ++ round.take buf.gate.released
  taken : buf.gate.buf = round
  live : buf.gate.closed = false
  rest : ∃ gone, round = gone ++ buf.deltas.flatten ∧ gone.length ≤ buf.gate.released
  within : buf.gate.released ≤ round.length
  starts : flushed = false → buf.gate.released = 0 ∨ StartsAt round buf.gate.released
  all : flushed = true → buf.gate.released = round.length ∧ buf.deltas = []
  ever : told ≠ [] → buf.everReleased = true
  only : buf.everReleased = true → told ≠ [] ∨ 0 < buf.gate.released
  unsettled : buf.cutHandled = false
  room : buf.overflowed = false
  bytes : buf.bytes = min (told ++ round).length usizeMax

/-- The hold was too small: the client was told to drop it all, and hears nothing more of it. -/
structure HeldSpeech.Spent (buf : HeldSpeech) (text told round : Bytes) : Prop where
  overflowed : buf.overflowed = true
  beyond : buf.cap < (told ++ round).length
  silent : text = []
  deltas : buf.deltas = []
  unsettled : buf.cutHandled = false

/-- No text is with the client that the sink has not marked. -/
def Marked (sink : ProgressSink) : Prop := sink.sawDelta = false → heard sink.out = []

def Voice (cap : ℕ) (sink : ProgressSink) (told round : Bytes) (flushed : Bool) : Prop :=
  ∃ buf, sink.held = some buf ∧ buf.cap = cap ∧ Marked sink ∧
    (buf.Holds (heard sink.out) told round flushed ∨ buf.Spent (heard sink.out) told round)

variable {cap : ℕ}

theorem Voice.start (cap : ℕ) : Voice cap (.holdingCapped cap) [] [] false :=
  ⟨_, rfl, rfl, fun _ => rfl, .inl ⟨rfl, rfl, rfl, ⟨[], rfl, le_rfl⟩, le_rfl, fun _ => .inl rfl, nofun,
    fun h => absurd rfl h, nofun, rfl, rfl, rfl⟩⟩

/-! What sends no text. -/

/-- But for the boundaries held, nothing changes for the client. -/
structure Quiet (sink sink' : ProgressSink) : Prop where
  heard : heard sink'.out = heard sink.out
  saw : sink'.sawDelta = false → sink.sawDelta = false
  held : sink'.held.map (fun buf => { buf with segments := [] }) =
    sink.held.map fun buf => { buf with segments := [] }

theorem Quiet.refl (sink : ProgressSink) : Quiet sink sink := ⟨rfl, id, rfl⟩

theorem Quiet.trans {a b c : ProgressSink} (h : Quiet a b) (h' : Quiet b c) : Quiet a c :=
  ⟨h'.heard.trans h.heard, fun hs => h.saw (h'.saw hs), h'.held.trans h.held⟩

theorem Quiet.some {sink sink' : ProgressSink} (h : Quiet sink sink') {buf : HeldSpeech}
    (hb : sink.held = some buf) : ∃ segments, sink'.held = some { buf with segments } := by
  have hheld := h.held
  rw [hb] at hheld
  obtain ⟨buf', hb', heq⟩ := Option.map_eq_some_iff.mp hheld
  refine ⟨buf'.segments, ?_⟩
  rw [hb']
  obtain ⟨deltas, segments, bytes, cap, overflowed, gate, everReleased, cutHandled⟩ := buf'
  cases heq
  rfl

theorem Voice.quiet {sink sink' : ProgressSink} {told round : Bytes} {flushed : Bool}
    (h : Voice cap sink told round flushed) (hq : Quiet sink sink') : Voice cap sink' told round flushed := by
  obtain ⟨buf, hb, hcap, hmarked, h⟩ := h
  obtain ⟨segments, hb'⟩ := hq.some hb
  refine ⟨_, hb', hcap, fun hs => hq.heard.trans (hmarked (hq.saw hs)), ?_⟩
  rw [hq.heard]
  rcases h with h | h
  · exact .inl ⟨h.heard, h.taken, h.live, h.rest, h.within, h.starts, h.all, h.ever, h.only, h.unsettled, h.room,
      h.bytes⟩
  · exact .inr ⟨h.overflowed, h.beyond, h.silent, h.deltas, h.unsettled⟩

/-- An event that is no text and no reset. -/
def Wordless (event : TurnEvent) : Prop := ∀ text, hear text event = text

theorem deliver_quiet (room : ℕ → Bool) (sink : ProgressSink) {event : TurnEvent} (h : Wordless event) :
    Quiet sink (sink.deliver room event).2 := by
  refine ⟨?_, fun hs => ?_, congrArg _ (ProgressSink.deliver_held room sink event)⟩
  swap
  · unfold ProgressSink.deliver at hs
    split at hs
    · exact (Bool.or_eq_false_iff.mp hs).1
    · exact hs
  rcases ProgressSink.deliver_out room sink event with ho | ho
  · rw [ho, h]
  · rw [ho]

theorem status_quiet (dfa : Automaton) (room : ℕ → Bool) (sink : ProgressSink) (status : TurnStatus) (now : ℕ) :
    Quiet sink (sink.trySend dfa room (.status status) now).2 := by
  unfold ProgressSink.trySend
  cases sink.held <;> exact deliver_quiet room sink fun _ => rfl

theorem segment_quiet (dfa : Automaton) (room : ℕ → Bool) (sink : ProgressSink) (index : ℕ) (tool : Bool)
    (now : ℕ) : Quiet sink (sink.trySend dfa room (.segment index tool) now).2 := by
  unfold ProgressSink.trySend
  cases hb : sink.held with
  | none => exact deliver_quiet room sink fun _ => rfl
  | some buf =>
    dsimp only
    split
    · exact .refl sink
    · exact ⟨rfl, id, by rw [hb]; rfl⟩

theorem flushSegments_quiet (room : ℕ → Bool) (segments : List (ℕ × Bool)) (sink : ProgressSink) :
    Quiet sink (sink.flushSegments room segments) := by
  induction segments generalizing sink with
  | nil => exact .refl sink
  | cons segment segments ih => exact (deliver_quiet room sink fun _ => rfl).trans (ih _)

/-! Text. -/

theorem Voice.delta {dfa : Automaton} {room : ℕ → Bool} (hroom : Room room) {sink : ProgressSink}
    {told round : Bytes} (h : Voice cap sink told round false) (text : Bytes) (now : ℕ) :
    Voice cap (sink.trySend dfa room (.delta text) now).2 told (round ++ text) false := by
  obtain ⟨buf, hb, hcap, hmarked, h⟩ := h
  unfold ProgressSink.trySend
  rw [hb]
  dsimp only
  unfold ProgressSink.holdDelta
  rcases h with h | h
  · rw [if_neg (by simp [h.room])]
    dsimp only
    split
    · rw [ProgressSink.deliver_room hroom]
      refine ⟨_, rfl, hcap, fun _ => heard_snoc _ _, .inr ⟨rfl, ?_, heard_snoc _ _, rfl, h.unsettled⟩⟩
      dsimp only
      rw [← List.append_assoc, List.length_append]
      have := h.bytes
      omega
    · have hp := push_pushed dfa h.live (h.taken ▸ h.within) (h.taken ▸ h.starts rfl) text now
      obtain ⟨gone, hgone, hlen⟩ := h.rest
      obtain ⟨hbuf, hlive, hwithin, hgrows, hpiece, htold, hstarts⟩ := hp
      rw [h.taken] at hbuf hwithin hpiece hstarts
      have hbytes : min (buf.bytes + text.length) usizeMax = min (told ++ (round ++ text)).length usizeMax := by
        rw [← List.append_assoc, List.length_append, h.bytes]
        omega
      have hrest : ∃ gone, round ++ text = gone ++ (buf.deltas ++ [text]).flatten ∧
          gone.length ≤ (buf.gate.push dfa text now).2.released := by
        refine ⟨gone, ?_, hlen.trans hgrows⟩
        rw [List.flatten_append, List.flatten_singleton, ← List.append_assoc, ← hgone]
      cases hpush : (buf.gate.push dfa text now).1 with
      | none =>
        rw [hpush, Option.getD_none, List.append_nil] at hpiece
        refine ⟨_, rfl, hcap, hmarked, .inl ⟨?_, hbuf, hlive, hrest, hwithin, fun _ => hstarts, nofun, ?_, ?_,
          h.unsettled, h.room, hbytes⟩⟩
        · dsimp only
          rw [h.heard, hpiece]
        · intro ht
          simp [h.ever ht]
        · intro he
          rcases h.only (by simpa using he) with ht | hr
          · exact .inl ht
          · exact .inr (Nat.lt_of_lt_of_le hr hgrows)
      | some piece =>
        rw [hpush, Option.getD_some] at hpiece
        dsimp only
        rw [ProgressSink.deliver_room hroom]
        refine ⟨_, rfl, hcap, fun hs => absurd hs (by simp [ProgressSink.isDelta]), .inl ⟨?_, hbuf, hlive, hrest,
          hwithin, fun _ => hstarts, nofun, fun _ => ?_, fun _ => ?_, h.unsettled, h.room, hbytes⟩⟩
        · dsimp only
          rw [heard_snoc, h.heard, hpiece]
          exact List.append_assoc _ _ _
        · simp
        · exact .inr (htold (by rw [hpush]; rfl))
  · rw [if_pos h.overflowed]
    refine ⟨buf, hb, hcap, hmarked, .inr ⟨h.overflowed, h.beyond.trans_le ?_, h.silent, h.deltas, h.unsettled⟩⟩
    simp only [List.length_append]
    omega

theorem Voice.textBlock {sink : ProgressSink} {told round : Bytes} {flushed : Bool}
    (h : Voice cap sink told round flushed) : Voice cap sink.beginTextBlock told round flushed := by
  obtain ⟨buf, hb, hcap, hmarked, h⟩ := h
  refine ⟨{ buf with gate := buf.gate.beginBlock }, by rw [ProgressSink.beginTextBlock, hb]; rfl, hcap, hmarked, ?_⟩
  rcases h with h | h
  · exact .inl ⟨h.heard, h.taken, h.live, h.rest, h.within, h.starts, h.all, h.ever, h.only, h.unsettled, h.room,
      h.bytes⟩
  · exact .inr ⟨h.overflowed, h.beyond, h.silent, h.deltas, h.unsettled⟩

/-! Rounds. -/

private theorem flushDeltas_held (room : ℕ → Bool) (deltas : List Bytes) (skip : ℕ) (sink : ProgressSink) :
    (sink.flushDeltas room skip deltas).held = sink.held := by
  induction deltas generalizing skip sink with
  | nil => rfl
  | cons text deltas ih =>
    rw [ProgressSink.flushDeltas]
    split
    · exact ih _ _
    · dsimp only
      split
      · exact ih _ _
      · rw [ih]
        split
        · rfl
        · exact ProgressSink.deliver_held _ _ _

/-- A flush sends all but the bytes it skips, which end at the boundary of a character. -/
private theorem flushDeltas_heard {room : ℕ → Bool} (hroom : Room room) {deltas : List Bytes} {skip : ℕ}
    (h : isCharBoundary deltas.flatten skip = true) (sink : ProgressSink) :
    heard (sink.flushDeltas room skip deltas).out = heard sink.out ++ deltas.flatten.drop skip := by
  induction deltas generalizing skip sink with
  | nil => simp [ProgressSink.flushDeltas]
  | cons text deltas ih =>
    rw [List.flatten_cons] at h
    rw [ProgressSink.flushDeltas, List.flatten_cons]
    split
    · next hle => rw [ih (boundary_append_right h hle), List.drop_append, List.drop_eq_nil_of_le hle, List.nil_append]
    · next hlt =>
      have hlt : skip < text.length := Nat.not_le.mp hlt
      have hpiece : (if skip = 0 then some text
          else if isCharBoundary text skip then some (text.drop skip) else none) = some (text.drop skip) := by
        split
        · next hz => rw [hz, List.drop_zero]
        · rw [if_pos (boundary_of_append h hlt)]
      have hne : text.drop skip ≠ [] := by
        rw [← List.length_pos_iff, List.length_drop]
        omega
      have hzero : isCharBoundary deltas.flatten 0 = true := by simp [isCharBoundary]
      rw [hpiece]
      dsimp only
      rw [if_neg hne, ih hzero, ProgressSink.deliver_room hroom, List.drop_append_of_le_length hlt.le]
      dsimp only
      rw [heard_snoc, List.drop_zero]
      exact List.append_assoc _ _ _

private theorem flushDeltas_marked {room : ℕ → Bool} (hroom : Room room) {deltas : List Bytes} {skip : ℕ}
    {sink : ProgressSink} (h : Marked sink) : Marked (sink.flushDeltas room skip deltas) := by
  induction deltas generalizing skip sink with
  | nil => exact h
  | cons text deltas ih =>
    rw [ProgressSink.flushDeltas]
    split
    · exact ih h
    · dsimp only
      split
      · exact ih h
      · refine ih ?_
        split
        · exact h
        · rw [ProgressSink.deliver_room hroom]
          exact fun hs => absurd hs (by simp [ProgressSink.isDelta])

theorem Voice.flush {room : ℕ → Bool} (hroom : Room room) {sink : ProgressSink} {told round : Bytes}
    {flushed : Bool} (h : Voice cap sink told round flushed) : Voice cap (sink.flushHeld room) told round true := by
  obtain ⟨buf, hb, hcap, hmarked, h⟩ := h
  unfold ProgressSink.flushHeld
  rw [hb]
  dsimp only
  refine Voice.quiet ?_ (flushSegments_quiet room _ _)
  refine ⟨_, flushDeltas_held room buf.deltas _ _, hcap, flushDeltas_marked hroom hmarked, ?_⟩
  rcases h with h | h
  · left
    obtain ⟨gone, hgone, hlen⟩ := h.rest
    have hsum : (buf.deltas.map List.length).sum = buf.deltas.flatten.length := List.length_flatten.symm
    have hskip : buf.gate.released - (buf.gate.buf.length - (buf.deltas.map List.length).sum) =
        buf.gate.released - gone.length := by
      rw [h.taken, hsum, hgone, List.length_append, Nat.add_sub_cancel]
    have hbound : isCharBoundary buf.deltas.flatten (buf.gate.released - gone.length) = true := by
      cases hf : flushed with
      | false =>
        refine boundary_append_right ?_ hlen
        rw [← hgone]
        rcases h.starts hf with h0 | hs
        · simp [h0, isCharBoundary]
        · exact hs.isCharBoundary
      | true =>
        rw [(h.all hf).2]
        have : buf.gate.released = gone.length := by
          rw [(h.all hf).1, hgone, (h.all hf).2, List.flatten_nil, List.append_nil]
        simp [this, isCharBoundary]
    have hround : round.take buf.gate.released ++ buf.deltas.flatten.drop (buf.gate.released - gone.length) =
        round := by
      rw [hgone, List.take_append, List.take_of_length_le hlen, List.append_assoc, List.take_append_drop]
    refine ⟨?_, h.taken, h.live, ⟨round, by simp, ?_⟩, ?_, fun ht => absurd ht (by decide), fun _ => ⟨?_, rfl⟩,
      h.ever, fun he => ?_, h.unsettled, h.room, h.bytes⟩
    · rw [hskip, flushDeltas_heard hroom hbound]
      simp only [SpeechGate.noteRawFlush, h.taken, List.take_length]
      rw [h.heard, List.append_assoc, hround]
    · exact (congrArg List.length h.taken).ge
    · exact (congrArg List.length h.taken).le
    · exact congrArg List.length h.taken
    · refine (h.only he).imp_right fun hr => ?_
      have := congrArg List.length h.taken
      have := h.within
      dsimp only [SpeechGate.noteRawFlush]
      omega
  · right
    refine ⟨h.overflowed, h.beyond, ?_, rfl, h.unsettled⟩
    rw [h.deltas]
    exact h.silent

theorem Voice.nextRound {sink : ProgressSink} {told round : Bytes} (h : Voice cap sink told round true) :
    Voice cap sink.beginNextRound (told ++ round) [] false := by
  obtain ⟨buf, hb, hcap, hmarked, h⟩ := h
  have hheld : sink.beginNextRound.held = some { buf with
      everReleased := buf.everReleased || decide (0 < buf.gate.released)
      gate := buf.gate.restartRound } := by
    rw [ProgressSink.beginNextRound, hb]
    rfl
  refine ⟨_, hheld, hcap, hmarked, ?_⟩
  rcases h with h | h
  · obtain ⟨hreleased, hdeltas⟩ := h.all rfl
    refine .inl ⟨?_, rfl, rfl, ⟨[], ?_, le_rfl⟩, le_rfl, fun _ => .inl rfl, nofun, fun ht => ?_, fun he => ?_,
      h.unsettled, h.room, ?_⟩
    · have hheard := h.heard
      rw [hreleased, List.take_length] at hheard
      rw [List.take_nil, List.append_nil]
      exact hheard
    · simp [hdeltas]
    · by_cases ht' : told = []
      · have hr : round ≠ [] := fun hr => ht (by rw [ht', hr]; rfl)
        simp [hreleased, List.length_pos_iff.mpr hr]
      · simp [h.ever ht']
    · left
      simp only [Bool.or_eq_true, decide_eq_true_eq] at he
      have hsome : told ≠ [] ∨ 0 < buf.gate.released := he.elim h.only .inr
      rcases hsome with ht | hr
      · exact List.append_ne_nil_of_left_ne_nil ht _
      · exact List.append_ne_nil_of_right_ne_nil _ (List.length_pos_iff.mp (hreleased ▸ hr))
    · rw [List.append_nil]
      exact h.bytes
  · exact .inr ⟨h.overflowed, by rw [List.append_nil]; exact h.beyond, h.silent, h.deltas, h.unsettled⟩

/-! A cut. -/

/-- How the client stands after a cut reply of which `kept` is kept: it has the kept text, or nothing of a reply
that it had not begun to hear after earlier ones; else the cut is still to be told. -/
def Cut (sink : ProgressSink) (told kept : Bytes) : Prop :=
  (sink.cutWasHandled = false ∧ sink.held.isSome = true) ∨
    sink.cutWasHandled = true ∧ (sink.held.any (·.overflowed)) = false ∧
      (heard sink.out = told ++ kept ∨ told ≠ [] ∧ heard sink.out = told)

theorem Voice.unsettled {sink : ProgressSink} {told round : Bytes} {flushed : Bool}
    (h : Voice cap sink told round flushed) : sink.cutWasHandled = false ∧ sink.held.isSome = true := by
  obtain ⟨buf, hb, hcap, hmarked, h⟩ := h
  rw [ProgressSink.cutWasHandled, hb]
  exact ⟨h.elim (·.unsettled) (·.unsettled), rfl⟩

theorem Cut.isSome {sink : ProgressSink} {told kept : Bytes} (h : Cut sink told kept) :
    sink.held.isSome = true := by
  rcases h with ⟨-, hheld⟩ | ⟨hhandled, -⟩
  · exact hheld
  · rw [ProgressSink.cutWasHandled] at hhandled
    cases hb : sink.held with
    | none =>
      rw [hb] at hhandled
      exact nomatch hhandled
    | some buf => rfl

private theorem finish_ok {gate gate' : SpeechGate} {kept : Bytes} {rest : Option Bytes}
    (hle : gate.released ≤ gate.buf.length) (h : gate.finish kept = (.ok rest, gate')) :
    gate.buf.take gate.released ++ rest.getD [] = kept := by
  unfold SpeechGate.finish at h
  dsimp only at h
  by_cases hbound : isCharBoundary gate.buf gate.released = true
  · by_cases hpre : (gate.buf.take gate.released).isPrefixOf kept = true
    · rw [if_neg (by simp [hbound]), if_neg (by simp [hpre])] at h
      obtain ⟨tail, rfl⟩ := List.isPrefixOf_iff_prefix.mp hpre
      have hdrop : (gate.buf.take gate.released ++ tail).drop gate.released = tail := by
        conv_lhs => arg 1; rw [← min_eq_left hle, ← List.length_take]
        exact List.drop_left
      rw [hdrop] at h
      have hrest := Except.ok.inj (Prod.mk.inj h).1
      rw [← hrest]
      split
      · next hnil => rw [hnil, Option.getD_none]
      · rfl
    · rw [if_neg (by simp [hbound]), if_pos (by simp [hpre])] at h
      exact nomatch (Prod.mk.inj h).1
  · rw [if_pos (by simp [hbound])] at h
    exact nomatch (Prod.mk.inj h).1

theorem Voice.cut {room : ℕ → Bool} (hroom : Room room) {sink : ProgressSink} {told round : Bytes}
    (h : Voice cap sink told round false) (kept : Bytes) : Cut (sink.finishCut room kept).2 told kept := by
  have hun := h.unsettled
  obtain ⟨buf, hb, hcap, hmarked, h⟩ := h
  unfold ProgressSink.finishCut
  rw [hb]
  dsimp only
  rcases h with h | h
  · rw [if_neg (by simp [h.room])]
    split
    · next hz =>
      split
      · next he =>
        right
        have ht := (h.only he).resolve_right (by omega)
        refine ⟨rfl, h.room, .inr ⟨ht, ?_⟩⟩
        have hheard := h.heard
        rwa [hz, List.take_zero, List.append_nil] at hheard
      · exact .inl hun
    · split
      · exact .inl ⟨rfl, rfl⟩
      · next rest gate hfin =>
        right
        have hkept := finish_ok (h.taken ▸ h.within) hfin
        rw [h.taken] at hkept
        cases rest with
        | none =>
          refine ⟨rfl, h.room, .inl ?_⟩
          rw [Option.getD_none, List.append_nil] at hkept
          exact hkept ▸ h.heard
        | some rest =>
          dsimp only
          rw [ProgressSink.deliver_room hroom]
          refine ⟨rfl, h.room, .inl ?_⟩
          dsimp only
          rw [heard_snoc, h.heard, ← hkept]
          exact List.append_assoc _ _ _
  · rw [if_pos h.overflowed]
    exact .inl hun

end PulseNull.ToolLoop
