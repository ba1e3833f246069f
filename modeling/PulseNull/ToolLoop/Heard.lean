import PulseNull.ToolLoop.Sink

/-! What a client holds of a turn: the text sent since the last reset. What a voice hold has let go is the
start of what was streamed, and a flush sends the rest, once. -/
namespace PulseNull.ToolLoop
open Server.TurnStream (TurnEvent)
open Session (isCharBoundary)
open Speech (Automaton SpeechGate StartsAt)

/-- What a client makes of an event. -/
def hear (text : Bytes) : TurnEvent → Bytes
  | .delta more => text ++ more
  | .reset _ => []
  | .status _ | .segment .. => text

/-- The text since the last reset. -/
def heard (out : List TurnEvent) : Bytes := out.foldl hear []

@[simp] theorem heard_snoc (out : List TurnEvent) (event : TurnEvent) :
    heard (out ++ [event]) = hear (heard out) event := by
  rw [heard, List.foldl_append]
  rfl

/-! Character boundaries. -/

theorem boundary_append_right {a b : Bytes} {n : ℕ} (h : isCharBoundary (a ++ b) n = true) (hn : a.length ≤ n) :
    isCharBoundary b (n - a.length) = true := by
  unfold isCharBoundary at h ⊢
  rcases Nat.eq_zero_or_pos (n - a.length) with hz | hpos
  · simp [hz]
  · have hne : n ≠ 0 := by omega
    rw [List.getElem?_append_right hn] at h
    simp only [hne, decide_false, Bool.false_or] at h
    simp only [Nat.ne_of_gt hpos, decide_false, Bool.false_or]
    cases hc : b[n - a.length]? with
    | some c => rwa [hc] at h
    | none =>
      rw [hc] at h
      simp only [decide_eq_true_eq, List.length_append] at h ⊢
      omega

theorem boundary_of_append {a b : Bytes} {n : ℕ} (h : isCharBoundary (a ++ b) n = true) (hn : n < a.length) :
    isCharBoundary a n = true := by
  unfold isCharBoundary at h ⊢
  rw [List.getElem?_append_left hn] at h
  rw [List.getElem?_eq_getElem hn] at h ⊢
  exact h

theorem starts_append {text : Bytes} {n : ℕ} (h : StartsAt text n) (more : Bytes) : StartsAt (text ++ more) n := by
  obtain ⟨b, rest, hd, hb⟩ := h
  have hlt : n < text.length := by
    by_contra hge
    rw [List.drop_eq_nil_of_le (by omega)] at hd
    exact nomatch hd
  exact ⟨b, rest ++ more, by rw [List.drop_append_of_le_length hlt.le, hd, List.cons_append], hb⟩

/-! Deliveries. -/

namespace ProgressSink

/-- The channel takes all it is offered. -/
def Room (room : ℕ → Bool) : Prop := ∀ n, room n = true

theorem deliver_held (room : ℕ → Bool) (sink : ProgressSink) (event : TurnEvent) :
    (sink.deliver room event).2.held = sink.held := by
  unfold deliver
  split <;> rfl

theorem deliver_out (room : ℕ → Bool) (sink : ProgressSink) (event : TurnEvent) :
    heard (sink.deliver room event).2.out = hear (heard sink.out) event ∨
      (sink.deliver room event).2.out = sink.out := by
  unfold deliver
  split
  · exact .inl (heard_snoc _ _)
  · exact .inr rfl

theorem deliver_room {room : ℕ → Bool} (h : Room room) (sink : ProgressSink) (event : TurnEvent) :
    sink.deliver room event = (true, { sink with
      offered := sink.offered + 1
      out := sink.out ++ [event]
      sawDelta := sink.sawDelta || isDelta event }) := by
  rw [deliver, if_pos (h _)]

end ProgressSink

/-! The gate. -/

/-- What one push does to a gate that is not closed: the text is taken in, and what is let go goes on from
what was let go before, up to the start of a character. -/
structure Pushed (gate : SpeechGate) (text : Bytes) (pushed : Option Bytes × SpeechGate) : Prop where
  buf : pushed.2.buf = gate.buf ++ text
  live : pushed.2.closed = false
  within : pushed.2.released ≤ (gate.buf ++ text).length
  grows : gate.released ≤ pushed.2.released
  piece : (gate.buf ++ text).take pushed.2.released = gate.buf.take gate.released ++ pushed.1.getD []
  told : pushed.1.isSome = true → 0 < pushed.2.released
  starts : pushed.2.released = 0 ∨ StartsAt (gate.buf ++ text) pushed.2.released

private theorem earliestViable_le (dfa : Automaton) (buf : Bytes) (start : ℕ) :
    Speech.earliestViable dfa buf start ≤ buf.length := by
  have hfrom : ∀ (text : Bytes) (index : ℕ), Speech.earliestFrom dfa index text ≤ index + text.length := by
    intro text
    induction text with
    | nil => exact fun index => le_rfl
    | cons byte rest ih =>
      intro index
      unfold Speech.earliestFrom
      split
      · exact Nat.le_add_right _ _
      · have := ih (index + 1)
        rw [List.length_cons]
        omega
  have := hfrom (buf.drop (min start buf.length)) (min start buf.length)
  rw [List.length_drop] at this
  exact this.trans (by omega)

theorem push_pushed (dfa : Automaton) {gate : SpeechGate} (hlive : gate.closed = false)
    (hwithin : gate.released ≤ gate.buf.length) (hstarts : gate.released = 0 ∨ StartsAt gate.buf gate.released)
    (text : Bytes) (now : ℕ) : Pushed gate text (gate.push dfa text now) := by
  have htake : (gate.buf ++ text).take gate.released = gate.buf.take gate.released :=
    List.take_append_of_le_length hwithin
  have hlen : gate.released ≤ (gate.buf ++ text).length := by
    rw [List.length_append]
    omega
  rw [SpeechGate.push, if_neg (by simp [hlive])]
  generalize (if gate.firstDeltaAt.isNone && text ≠ [] then some now else gate.firstDeltaAt) = first
  unfold SpeechGate.takeRelease
  have quiet : Pushed gate text
      (none, { gate with firstDeltaAt := first, buf := gate.buf ++ text }) :=
    ⟨rfl, hlive, hlen, le_rfl, by simpa using htake, nofun, hstarts.imp_right (starts_append · text)⟩
  split
  · exact quiet
  split
  · exact quiet
  next candidate hcand =>
  split_ifs
  · exact quiet
  · exact quiet
  · obtain ⟨hgt, hsafe, hcut⟩ := Speech.releaseCandidate_cut (earliestViable_le dfa _ _) hcand
    have hle : candidate ≤ (gate.buf ++ text).length := hsafe.trans (earliestViable_le dfa _ _)
    refine ⟨rfl, hlive, hle, hgt.le, ?_, fun _ => ?_, .inr hcut.starts⟩
    · have hfirst : ((gate.buf ++ text).take candidate).take gate.released = gate.buf.take gate.released := by
        rw [List.take_take, min_eq_left hgt.le, htake]
      rw [← hfirst]
      exact (List.take_append_drop _ _).symm
    · exact Nat.lt_of_le_of_lt (Nat.zero_le _) hgt

end PulseNull.ToolLoop
