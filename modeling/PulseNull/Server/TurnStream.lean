import PulseNull.Machine
import PulseNull.Weave
import PulseNull.Text.Bytes

/-! The events of one streamed turn: the turn's side puts them on a bounded channel or beside it, the
stream's side writes them, and either may take its next step at any time. -/
namespace PulseNull.Server.TurnStream

inductive TurnStatus where
  | thinking
  | tool (name : Bytes)
  | responding
  deriving DecidableEq

inductive ResetReason where
  | fallback | guard | budget | refusal | error
  deriving DecidableEq

inductive TurnEvent where
  | status (status : TurnStatus)
  | delta (text : Bytes)
  | segment (index : ℕ) (tool : Bool)
  | reset (reason : ResetReason)
  deriving DecidableEq

def TurnEvent.isReset : TurnEvent → Bool
  | .reset _ => true
  | _ => false

def TurnEvent.isSegment : TurnEvent → Bool
  | .segment .. => true
  | _ => false

def streamChannelCapacity : ℕ := 256

/-- Resets and segments that must survive a full delta channel. -/
structure ControlPlane where
  resets : List TurnEvent
  segments : List (Parked TurnEvent)
  accepted : ℕ
  notified : Bool
  resetQueued : Bool
  closed : Bool

namespace ControlPlane

def new : ControlPlane := ⟨[], [], 0, false, false, false⟩

def pushReset (control : ControlPlane) (event : TurnEvent) : ControlPlane × Bool :=
  if control.closed then (control, false)
  else ({ control with resets := control.resets ++ [event], resetQueued := true, notified := true }, true)

def noteAccepted (control : ControlPlane) : ControlPlane := { control with accepted := control.accepted + 1 }

def pushSegment (control : ControlPlane) (event : TurnEvent) : ControlPlane × Bool :=
  if control.closed then (control, false)
  else ({ control with segments := control.segments ++ [⟨event, control.accepted⟩], notified := true }, true)

def drainResets (control : ControlPlane) : List TurnEvent × ControlPlane :=
  (control.resets, { control with resets := [] })

/-- Segments whose preceding channel events have all been written. -/
def takeDue (control : ControlPlane) (written : ℕ) : List TurnEvent × ControlPlane :=
  ((control.segments.takeWhile (·.after ≤ written)).map Parked.event,
    { control with segments := control.segments.dropWhile (·.after ≤ written) })

/-- At the end of the stream no count holds a segment back. -/
def takeAll (control : ControlPlane) : List TurnEvent × ControlPlane :=
  (control.segments.map Parked.event, { control with segments := [] })

end ControlPlane

/-- Where the turn's side is in the delivery of an event. -/
inductive Writer where
  | idle
  | reserved (event : TurnEvent)
  | noted (event : TurnEvent)
  | full (event : TurnEvent)
  | gone

/-- How the stream ends: with the turn's result, or saying that a reset was not delivered. -/
inductive Terminal where
  | result | resetLost
  deriving DecidableEq

/-- Where the stream is in its loop; what it drained is written before it goes on. -/
inductive Reader where
  | drain
  | due
  | wait
  | gotDrain (event : TurnEvent)
  | gotDue (event : TurnEvent)
  | gotWrite (event : TurnEvent)
  | wrote
  | endDrain
  | endDue
  | endCheck
  | ended (terminal : Terminal)
  | dropped

/-- Both sides, with all the turn's side had accepted. -/
structure Stream where
  control : ControlPlane
  queue : List TurnEvent
  writer : Writer
  reader : Reader
  drained : List TurnEvent
  written : ℕ
  resetSent : Bool
  emitted : List TurnEvent
  log : List TurnEvent

inductive Action where
  | deliver (event : TurnEvent)
  | note
  | send
  | park
  | finish
  | read
  | receive
  | wake
  | drop
  | close

namespace Stream

def new : Stream := ⟨.new, [], .idle, .drain, [], 0, false, [], []⟩

/-- `ProgressSink::deliver` up to the channel's answer: a reset goes beside the channel, a segment that
does not fit is parked next, and any other event that does not fit is dropped. -/
def deliver (s : Stream) (event : TurnEvent) : Stream :=
  if event.isReset then
    let pushed := s.control.pushReset event
    { s with control := pushed.1, log := if pushed.2 then s.log ++ [event] else s.log }
  else match s.reader with
    | .dropped => s
    | _ =>
      if s.queue.length < streamChannelCapacity then { s with writer := .reserved event }
      else if event.isSegment then { s with writer := .full event }
      else s

def park (s : Stream) (event : TurnEvent) : Stream :=
  let pushed := s.control.pushSegment event
  { s with control := pushed.1, writer := .idle, log := if pushed.2 then s.log ++ [event] else s.log }

/-- The next step of the stream where it does not wait. -/
def read (s : Stream) : Stream :=
  match s.drained with
  | event :: drained =>
    { s with drained, emitted := s.emitted ++ [event], resetSent := s.resetSent || event.isReset }
  | [] => match s.reader with
    | .drain => { s with drained := s.control.drainResets.1, control := s.control.drainResets.2, reader := .due }
    | .due =>
      { s with drained := (s.control.takeDue s.written).1, control := (s.control.takeDue s.written).2, reader := .wait }
    | .gotDrain event =>
      { s with drained := s.control.drainResets.1, control := s.control.drainResets.2, reader := .gotDue event }
    | .gotDue event =>
      { s with
        drained := (s.control.takeDue s.written).1
        control := (s.control.takeDue s.written).2
        reader := .gotWrite event }
    | .gotWrite event => { s with drained := [event], reader := .wrote }
    | .wrote => { s with written := s.written + 1, reader := .drain }
    | .endDrain => { s with drained := s.control.drainResets.1, control := s.control.drainResets.2, reader := .endDue }
    | .endDue => { s with drained := s.control.takeAll.1, control := s.control.takeAll.2, reader := .endCheck }
    | .endCheck =>
      { s with reader := .ended (if s.control.resetQueued && !s.resetSent then .resetLost else .result) }
    | .wait | .ended _ | .dropped => s

def receive (s : Stream) : Stream :=
  match s.queue with
  | event :: queue => { s with queue, reader := .gotDrain event }
  | [] => { s with reader := .endDrain }

def step (s : Stream) : Action → Stream
  | .deliver event => s.deliver event
  | .note => match s.writer with
    | .reserved event =>
      { s with control := s.control.noteAccepted, writer := .noted event, log := s.log ++ [event] }
    | _ => s
  | .send => match s.writer with
    | .noted event => { s with queue := s.queue ++ [event], writer := .idle }
    | _ => s
  | .park => match s.writer with
    | .full event => s.park event
    | _ => s
  | .finish => { s with writer := .gone }
  | .read => s.read
  | .receive => s.receive
  | .wake => { s with control := { s.control with notified := false }, reader := .drain }
  | .drop => { s with reader := .dropped, drained := [] }
  | .close => { s with control := { s.control with closed := true } }

/-- What each side can do: the turn delivers one event after the other and ends with none under way,
the stream waits for a notice, an event, or the end of the turn, and its client can leave. -/
def Enabled (s : Stream) : Action → Prop
  | .deliver _ | .finish => s.writer = .idle
  | .note => ∃ event, s.writer = .reserved event
  | .send => ∃ event, s.writer = .noted event
  | .park => ∃ event, s.writer = .full event
  | .read => s.reader ≠ .dropped
  | .receive => s.reader = .wait ∧ s.drained = [] ∧ (s.queue ≠ [] ∨ s.writer = .gone)
  | .wake => s.reader = .wait ∧ s.drained = [] ∧ s.control.notified = true
  | .drop => ∀ terminal, s.reader ≠ .ended terminal
  | .close => s.reader = .dropped

end Stream

def streams : Machine Stream Action where
  start := .new
  step := Stream.step

/-- The events that keep their order. -/
def inOrder (events : List TurnEvent) : List TurnEvent := events.filter fun e => !e.isReset

def resetsOf (events : List TurnEvent) : List TurnEvent := events.filter TurnEvent.isReset

/-- What the client gets of what the turn's side had accepted. -/
structure Delivered (s : Stream) : Prop where
  order : inOrder s.emitted <+: inOrder s.log
  resets : resetsOf s.emitted <+: resetsOf s.log
  first : ∀ before reset after, s.log = before ++ reset :: after → reset.isReset = true →
    (inOrder before).length < (inOrder s.emitted).length →
      (resetsOf before).length < (resetsOf s.emitted).length
  complete : ∀ terminal, s.reader = .ended terminal → terminal = .result ∧
    inOrder s.emitted = inOrder s.log ∧ resetsOf s.emitted = resetsOf s.log

/-! What the two sides keep between them. -/

/-- For each reset of a log, how many of the other events were accepted before it. -/
def marksFrom : ℕ → List TurnEvent → List ℕ
  | _, [] => []
  | n, event :: log => if event.isReset then n :: marksFrom n log else marksFrom (n + 1) log

def marks (log : List TurnEvent) : List ℕ := marksFrom 0 log

def Reader.held : Reader → List TurnEvent
  | .gotDrain event | .gotDue event | .gotWrite event => [event]
  | _ => []

/-- An event that is written and not counted yet. -/
def Reader.counted : Reader → ℕ
  | .wrote => 1
  | _ => 0

/-- How far the end of the stream has come. -/
def Reader.stage : Reader → ℕ
  | .endDrain => 1
  | .endDue => 2
  | .endCheck => 3
  | .ended _ => 4
  | _ => 0

/-- The events that go out before the resets are looked at again. -/
def Reader.committed (due all : ℕ) : Reader → ℕ
  | .due => due
  | .gotDue _ => due + 1
  | .gotWrite _ => 1
  | .endDue => all
  | _ => 0

def Writer.inFlight : Writer → List TurnEvent
  | .noted event => [event]
  | _ => []

def Writer.under : Writer → Option TurnEvent
  | .reserved event | .full event => some event
  | _ => none

namespace Stream

def handed (s : Stream) : ℕ := s.written + s.reader.counted

def line (s : Stream) : List TurnEvent := s.reader.held ++ s.queue ++ s.writer.inFlight

def out (s : Stream) : List TurnEvent := s.emitted ++ s.drained

def committed (s : Stream) : ℕ :=
  s.reader.committed (s.control.segments.takeWhile (·.after ≤ s.written)).length s.control.segments.length

structure Inv (s : Stream) : Prop where
  order : inOrder s.log = inOrder s.out ++ weave s.handed s.control.segments s.line
  resets : resetsOf s.log = resetsOf s.out ++ s.control.resets
  accepted : s.control.accepted = s.handed + s.line.length
  parked : ∀ p ∈ s.control.segments, p.after ≤ s.control.accepted
  sorted : s.control.segments.Pairwise (·.after ≤ ·.after)
  later : ∀ event, s.reader = .gotWrite event → ∀ p ∈ s.control.segments, s.written < p.after
  full : ∀ event, s.writer = .full event →
    s.control.resets = [] ∨ s.queue ≠ [] ∨ ∃ held, s.reader = .gotDrain held
  /-- What goes out before a reset that is still to be drained was accepted before it. -/
  marks : ∀ m ∈ (marks s.log).drop (resetsOf s.out).length, (inOrder s.out).length + s.committed ≤ m
  marksOut : ∀ m ∈ (TurnStream.marks s.log).drop (resetsOf s.emitted).length, (inOrder s.emitted).length ≤ m
  uniform : inOrder s.drained = [] ∨ resetsOf s.drained = []
  lineKind : ∀ event ∈ s.line, event.isReset = false
  segmentKind : ∀ p ∈ s.control.segments, p.event.isReset = false
  resetKind : ∀ event ∈ s.control.resets, event.isReset = true
  under : ∀ event, s.writer.under = some event → event.isReset = false
  queued : s.control.resetQueued = true → resetsOf s.log ≠ []
  sent : resetsOf s.emitted ≠ [] → s.resetSent = true
  ending : 1 ≤ s.reader.stage → s.writer = .gone ∧ s.queue = []
  lastResets : 2 ≤ s.reader.stage → s.control.resets = []
  lastSegments : 3 ≤ s.reader.stage → s.control.segments = []
  last : ∀ terminal, s.reader = .ended terminal → terminal = .result ∧ s.drained = []

end Stream

section events
variable {a b : List TurnEvent}

theorem inOrder_append : inOrder (a ++ b) = inOrder a ++ inOrder b := List.filter_append _ _

theorem resetsOf_append : resetsOf (a ++ b) = resetsOf a ++ resetsOf b := List.filter_append _ _

theorem inOrder_kind (h : ∀ event ∈ a, event.isReset = false) : inOrder a = a ∧ resetsOf a = [] :=
  ⟨List.filter_eq_self.mpr fun event he => by simp [h event he],
    List.filter_eq_nil_iff.mpr fun event he => by simp [h event he]⟩

theorem resetsOf_kind (h : ∀ event ∈ a, event.isReset = true) : inOrder a = [] ∧ resetsOf a = a :=
  ⟨List.filter_eq_nil_iff.mpr fun event he => by simp [h event he], List.filter_eq_self.mpr h⟩

private theorem marksFrom_append (n : ℕ) (a b : List TurnEvent) :
    marksFrom n (a ++ b) = marksFrom n a ++ marksFrom (n + (inOrder a).length) b := by
  induction a generalizing n with
  | nil => rfl
  | cons event a ih =>
    rw [List.cons_append, marksFrom, marksFrom]
    cases hr : event.isReset with
    | true => simp [ih, inOrder, hr]
    | false =>
      simp only [ih, inOrder, hr, Bool.false_eq_true, if_false, List.filter_cons, Bool.not_false, if_true,
        List.length_cons]
      rw [Nat.add_assoc, Nat.add_comm 1]

theorem marks_event {event : TurnEvent} (h : event.isReset = false) : marks (a ++ [event]) = marks a := by
  simp [marks, marksFrom_append, marksFrom, h]

theorem marks_reset {event : TurnEvent} (h : event.isReset = true) :
    marks (a ++ [event]) = marks a ++ [(inOrder a).length] := by
  simp [marks, marksFrom_append, marksFrom, h]

theorem length_marks (a : List TurnEvent) : (marks a).length = (resetsOf a).length := by
  induction a using List.reverseRecOn with
  | nil => rfl
  | append_singleton a event ih =>
    cases h : event.isReset with
    | true => rw [marks_reset h, resetsOf_append, List.length_append, ih]; simp [resetsOf, h]
    | false => rw [marks_event h, resetsOf_append, List.length_append, ih]; simp [resetsOf, h]

theorem marks_split {event : TurnEvent} (h : event.isReset = true) :
    (inOrder a).length ∈ (marks (a ++ event :: b)).drop (resetsOf a).length := by
  have hsplit : a ++ event :: b = (a ++ [event]) ++ b := by simp
  rw [hsplit, marks, marksFrom_append, ← marks, marks_reset h, List.append_assoc, ← length_marks, List.drop_left]
  exact List.mem_cons_self

end events

namespace Stream
variable {s : Stream}

theorem Inv.new : Stream.new.Inv where
  order := rfl
  resets := rfl
  accepted := rfl
  parked := by simp [Stream.new, ControlPlane.new]
  sorted := .nil
  later := by simp [Stream.new]
  full := by simp [Stream.new]
  marks := by simp [Stream.new, TurnStream.marks, marksFrom]
  marksOut := by simp [Stream.new, TurnStream.marks, marksFrom]
  uniform := .inl rfl
  lineKind := by simp [Stream.new, line, Reader.held, Writer.inFlight]
  segmentKind := by simp [Stream.new, ControlPlane.new]
  resetKind := by simp [Stream.new, ControlPlane.new]
  under := by simp [Stream.new, Writer.under]
  queued := by simp [Stream.new, ControlPlane.new]
  sent := by simp [Stream.new, resetsOf]
  ending := by simp [Stream.new, Reader.stage]
  lastResets := by simp [Stream.new, Reader.stage]
  lastSegments := by simp [Stream.new, Reader.stage]
  last := by simp [Stream.new]

section inv
variable (h : s.Inv)
include h

theorem Inv.length_log : (inOrder s.log).length =
    (inOrder s.out).length + (s.control.segments.length + s.line.length) := by
  rw [h.order, List.length_append, Weave.length]

omit h in
theorem committed_le (s : Stream) : s.committed ≤ s.control.segments.length + s.line.length := by
  have hdue := (List.takeWhile_prefix (l := s.control.segments) fun p => p.after ≤ s.written).length_le
  rw [committed, line, List.length_append, List.length_append]
  cases s.reader <;> simp only [Reader.committed, Reader.held, List.length_nil, List.length_singleton] <;> omega

/-- With no reset to drain, none is before anything that goes out. -/
theorem Inv.drop_marks (hr : s.control.resets = []) :
    (TurnStream.marks s.log).drop (resetsOf s.out).length = [] := by
  rw [List.drop_eq_nil_iff, length_marks, h.resets, hr, List.append_nil]

theorem Inv.loop (hw : s.writer ≠ .gone) : s.reader.stage = 0 := by
  by_contra hs
  exact hw (h.ending (Nat.one_le_iff_ne_zero.mpr hs)).1

/-! The turn's side. -/

theorem Inv.writing {writer : Writer} (hin : writer.inFlight = s.writer.inFlight)
    (hunder : ∀ event, writer.under = some event → event.isReset = false)
    (hfull : ∀ event, writer = .full event → s.queue ≠ [])
    (hgone : 1 ≤ s.reader.stage → writer = .gone) : Inv { s with writer } where
  order := by
    have hline : line { s with writer } = s.line := by rw [line, line, hin]
    rw [hline]
    exact h.order
  resets := h.resets
  accepted := by
    have hline : line { s with writer } = s.line := by rw [line, line, hin]
    rw [hline]
    exact h.accepted
  parked := h.parked
  sorted := h.sorted
  later := h.later
  full event hw := .inr (.inl (hfull event hw))
  marks := h.marks
  marksOut := h.marksOut
  uniform := h.uniform
  lineKind := by
    have hline : line { s with writer } = s.line := by rw [line, line, hin]
    rw [hline]
    exact h.lineKind
  segmentKind := h.segmentKind
  resetKind := h.resetKind
  under := hunder
  queued := h.queued
  sent := h.sent
  ending hs := ⟨hgone hs, (h.ending hs).2⟩
  lastResets := h.lastResets
  lastSegments := h.lastSegments
  last := h.last

theorem Inv.pushReset {event : TurnEvent} (hw : s.writer = .idle) (hr : event.isReset = true) :
    (s.deliver event).Inv := by
  have hcases : s.deliver event = s ∨ s.deliver event =
      { s with
        control := { s.control with
          resets := s.control.resets ++ [event], resetQueued := true, notified := true }
        log := s.log ++ [event] } := by
    rw [deliver, if_pos hr, ControlPlane.pushReset]
    split
    · exact .inl rfl
    · exact .inr rfl
  obtain he | he := hcases
  · rw [he]
    exact h
  rw [he]
  have hstage := h.loop (by simp [hw])
  have hevent : ∀ e ∈ [event], e.isReset = true := by simpa using hr
  have hle : (resetsOf s.out).length ≤ (TurnStream.marks s.log).length := by
    rw [length_marks, h.resets, List.length_append]
    exact Nat.le_add_right _ _
  have hout : (resetsOf s.out).length = (resetsOf s.emitted).length + (resetsOf s.drained).length := by
    rw [out, resetsOf_append, List.length_append]
  have hin : (inOrder s.out).length = (inOrder s.emitted).length + (inOrder s.drained).length := by
    rw [out, inOrder_append, List.length_append]
  exact {
    order := by
      show inOrder (s.log ++ [event]) = _
      rw [inOrder_append, (resetsOf_kind hevent).1, List.append_nil]
      exact h.order
    resets := by
      show resetsOf (s.log ++ [event]) = resetsOf s.out ++ (s.control.resets ++ [event])
      rw [resetsOf_append, (resetsOf_kind hevent).2, h.resets, List.append_assoc]
    accepted := h.accepted
    parked := h.parked
    sorted := h.sorted
    later := h.later
    full := fun e he => by simp [hw] at he
    marks := by
      show ∀ m ∈ (TurnStream.marks (s.log ++ [event])).drop (resetsOf s.out).length, _
      rw [marks_reset hr, List.drop_append_of_le_length hle]
      intro m hm
      obtain hm | hm := List.mem_append.mp hm
      · exact h.marks m hm
      · obtain rfl := List.mem_singleton.mp hm
        rw [h.length_log]
        exact Nat.add_le_add_left s.committed_le _
    marksOut := by
      show ∀ m ∈ (TurnStream.marks (s.log ++ [event])).drop (resetsOf s.emitted).length, _
      rw [marks_reset hr, List.drop_append_of_le_length (by omega)]
      intro m hm
      obtain hm | hm := List.mem_append.mp hm
      · exact h.marksOut m hm
      · obtain rfl := List.mem_singleton.mp hm
        rw [h.length_log]
        show (inOrder s.emitted).length ≤ _
        omega
    uniform := h.uniform
    lineKind := h.lineKind
    segmentKind := h.segmentKind
    resetKind := fun e he => (List.mem_append.mp he).elim (h.resetKind e) (hevent e)
    under := h.under
    queued := fun _ => by
      show resetsOf (s.log ++ [event]) ≠ []
      rw [resetsOf_append, (resetsOf_kind hevent).2]
      simp
    sent := h.sent
    ending := h.ending
    lastResets := fun hs => by rw [hstage] at hs; omega
    lastSegments := h.lastSegments
    last := h.last }

theorem Inv.reserve {event : TurnEvent} (hw : s.writer = .idle) (hr : event.isReset = false) :
    (s.deliver event).Inv := by
  have hstage := h.loop (by simp [hw])
  have hidle : s.writer.inFlight = [] := by rw [hw]; rfl
  have hcases : s.deliver event = s ∨ s.deliver event = { s with writer := .reserved event } ∨
      s.deliver event = { s with writer := .full event } ∧ s.queue ≠ [] := by
    unfold deliver
    rw [if_neg (by simp [hr])]
    split
    · exact .inl rfl
    · split
      · exact .inr (.inl rfl)
      · next hlong =>
        split
        · refine .inr (.inr ⟨rfl, fun hq => hlong ?_⟩)
          rw [hq]
          decide
        · exact .inl rfl
  obtain he | he | ⟨he, hq⟩ := hcases
  · rw [he]
    exact h
  · rw [he]
    refine h.writing hidle.symm (fun e hu => ?_) (fun _ hf => nomatch hf) fun hs => by rw [hstage] at hs; omega
    rwa [← Option.some.inj hu]
  · rw [he]
    refine h.writing hidle.symm (fun e hu => ?_) (fun _ _ => hq) fun hs => by rw [hstage] at hs; omega
    rwa [← Option.some.inj hu]

theorem Inv.note {event : TurnEvent} (hw : s.writer = .reserved event) : (s.step .note).Inv := by
  have hr := h.under event (by rw [hw]; rfl)
  have hevent : ∀ e ∈ [event], e.isReset = false := by simpa using hr
  have hline : s.reader.held ++ s.queue ++ [event] = s.line ++ [event] := by
    rw [line, hw]
    simp [Writer.inFlight]
  have hstep : s.step .note =
      { s with control := s.control.noteAccepted, writer := .noted event, log := s.log ++ [event] } := by
    rw [step, hw]
  rw [hstep]
  exact {
    order := by
      show inOrder (s.log ++ [event]) = inOrder s.out ++ weave s.handed s.control.segments (s.reader.held ++ s.queue ++ [event])
      rw [hline, Weave.push event fun p hp => (h.parked p hp).trans_eq h.accepted, inOrder_append,
        (inOrder_kind hevent).1, h.order, List.append_assoc]
    resets := by
      show resetsOf (s.log ++ [event]) = _
      rw [resetsOf_append, (inOrder_kind hevent).2, List.append_nil]
      exact h.resets
    accepted := by
      show s.control.accepted + 1 = s.handed + (s.reader.held ++ s.queue ++ [event]).length
      rw [hline, List.length_append, h.accepted, List.length_singleton, Nat.add_assoc]
    parked := fun p hp => (h.parked p hp).trans (Nat.le_succ _)
    sorted := h.sorted
    later := h.later
    full := fun _ hf => nomatch hf
    marks := by
      show ∀ m ∈ (TurnStream.marks (s.log ++ [event])).drop (resetsOf s.out).length, _
      rw [marks_event hr]
      exact h.marks
    marksOut := by
      show ∀ m ∈ (TurnStream.marks (s.log ++ [event])).drop (resetsOf s.emitted).length, _
      rw [marks_event hr]
      exact h.marksOut
    uniform := h.uniform
    lineKind := by
      show ∀ e ∈ s.reader.held ++ s.queue ++ [event], e.isReset = false
      rw [hline]
      exact fun e he => (List.mem_append.mp he).elim (h.lineKind e) (hevent e)
    segmentKind := h.segmentKind
    resetKind := h.resetKind
    under := fun _ hu => nomatch hu
    queued := fun hq => by
      show resetsOf (s.log ++ [event]) ≠ []
      rw [resetsOf_append, (inOrder_kind hevent).2, List.append_nil]
      exact h.queued hq
    sent := h.sent
    ending := fun hs => absurd (h.ending hs).1 (by simp [hw])
    lastResets := h.lastResets
    lastSegments := h.lastSegments
    last := h.last }

theorem Inv.send {event : TurnEvent} (hw : s.writer = .noted event) : (s.step .send).Inv := by
  have hstep : s.step .send = { s with queue := s.queue ++ [event], writer := .idle } := by rw [step, hw]
  have hline : line { s with queue := s.queue ++ [event], writer := .idle } = s.line := by
    simp [line, hw, Writer.inFlight]
  rw [hstep]
  exact {
    order := by rw [hline]; exact h.order
    resets := h.resets
    accepted := by rw [hline]; exact h.accepted
    parked := h.parked
    sorted := h.sorted
    later := h.later
    full := fun _ hf => nomatch hf
    marks := h.marks
    marksOut := h.marksOut
    uniform := h.uniform
    lineKind := by rw [hline]; exact h.lineKind
    segmentKind := h.segmentKind
    resetKind := h.resetKind
    under := fun _ hu => nomatch hu
    queued := h.queued
    sent := h.sent
    ending := fun hs => absurd (h.ending hs).1 (by simp [hw])
    lastResets := h.lastResets
    lastSegments := h.lastSegments
    last := h.last }

/-- A segment is parked behind an event that is still to be written, or no reset waits. -/
theorem Inv.park {event : TurnEvent} (hw : s.writer = .full event) : (s.park event).Inv := by
  have hr := h.under event (by rw [hw]; rfl)
  have hstage := h.loop (by simp [hw])
  have hevent : ∀ e ∈ [event], e.isReset = false := by simpa using hr
  have hline : line { s with writer := .idle } = s.line := by rw [line, line, hw]; rfl
  let p : Parked TurnEvent := ⟨event, s.control.accepted⟩
  have hcases : s.park event = { s with writer := .idle } ∨ s.park event =
      { s with
        control := { s.control with segments := s.control.segments ++ [p], notified := true }
        writer := .idle
        log := s.log ++ [event] } := by
    rw [Stream.park, ControlPlane.pushSegment]
    split
    · exact .inl rfl
    · exact .inr rfl
  obtain he | he := hcases
  · rw [he]
    refine h.writing (by rw [hw]; rfl) (fun e hu => ?_) (fun e hf => ?_) fun hs => by rw [hstage] at hs; omega
    · cases hu
    · cases hf
  rw [he]
  have hdue (hlt : s.written < s.control.accepted) : (s.control.segments ++ [p]).takeWhile (·.after ≤ s.written) =
      s.control.segments.takeWhile (·.after ≤ s.written) := by
    rw [List.takeWhile_append]
    split
    · next hall =>
      rw [List.takeWhile_cons_of_neg (by simpa [p] using hlt), List.append_nil]
      exact (List.takeWhile_prefix _).eq_of_length hall |>.symm
    · rfl
  exact {
    order := by
      show inOrder (s.log ++ [event]) = inOrder s.out ++
        weave s.handed (s.control.segments ++ [p]) (line { s with writer := .idle })
      rw [hline, Weave.park p h.accepted.ge, inOrder_append, (inOrder_kind hevent).1, h.order, List.append_assoc]
    resets := by
      show resetsOf (s.log ++ [event]) = _
      rw [resetsOf_append, (inOrder_kind hevent).2, List.append_nil]
      exact h.resets
    accepted := by
      show s.control.accepted = s.handed + (line { s with writer := .idle }).length
      rw [hline]
      exact h.accepted
    parked := fun q hq => (List.mem_append.mp hq).elim (h.parked q) fun hq => by
      obtain rfl := List.mem_singleton.mp hq
      exact le_rfl
    sorted := List.pairwise_append.mpr ⟨h.sorted, List.pairwise_singleton _ _, fun q hq q' hq' => by
      obtain rfl := List.mem_singleton.mp hq'
      exact h.parked q hq⟩
    later := fun e he q hq => (List.mem_append.mp hq).elim (h.later e he q) fun hq => by
      obtain rfl := List.mem_singleton.mp hq
      have haccepted := h.accepted
      have hheld : s.reader = .gotWrite e := he
      simp only [handed, line, hheld, Reader.counted, Reader.held, List.length_append, List.length_singleton]
        at haccepted
      show s.written < s.control.accepted
      omega
    full := fun _ hf => nomatch hf
    marks := by
      show ∀ m ∈ (TurnStream.marks (s.log ++ [event])).drop (resetsOf s.out).length, (inOrder s.out).length +
        s.reader.committed ((s.control.segments ++ [p]).takeWhile (·.after ≤ s.written)).length
          (s.control.segments ++ [p]).length ≤ m
      rw [marks_event hr]
      obtain hnone | hq := h.full event hw
      · rw [h.drop_marks hnone]
        simp
      · have hsame : s.reader.committed
            ((s.control.segments ++ [p]).takeWhile (·.after ≤ s.written)).length
            (s.control.segments ++ [p]).length = s.committed := by
          have hmore : s.queue ≠ [] → s.written < s.control.accepted := by
            intro hne
            have := List.length_pos_iff.mpr hne
            rw [h.accepted, handed, line, List.length_append, List.length_append]
            omega
          obtain hq | ⟨held, hheld⟩ := hq
          · rw [hdue (hmore hq), committed]
            cases hreader : s.reader <;> simp_all [Reader.committed, Reader.stage]
          · simp [committed, hheld, Reader.committed]
        rw [hsame]
        exact h.marks
    marksOut := by
      show ∀ m ∈ (TurnStream.marks (s.log ++ [event])).drop (resetsOf s.emitted).length, _
      rw [marks_event hr]
      exact h.marksOut
    uniform := h.uniform
    lineKind := by
      show ∀ e ∈ line { s with writer := .idle }, e.isReset = false
      rw [hline]
      exact h.lineKind
    segmentKind := fun q hq => (List.mem_append.mp hq).elim (h.segmentKind q) fun hq => by
      obtain rfl := List.mem_singleton.mp hq
      exact hr
    resetKind := h.resetKind
    under := fun _ hu => nomatch hu
    queued := fun hq => by
      show resetsOf (s.log ++ [event]) ≠ []
      rw [resetsOf_append, (inOrder_kind hevent).2, List.append_nil]
      exact h.queued hq
    sent := h.sent
    ending := fun hs => by
      have hs' : 1 ≤ s.reader.stage := hs
      omega
    lastResets := h.lastResets
    lastSegments := fun hs => by
      have hs' : 3 ≤ s.reader.stage := hs
      omega
    last := h.last }

/-! The stream's side. -/

theorem Inv.yielded {event : TurnEvent} {rest : List TurnEvent} (hd : s.drained = event :: rest) :
    Inv { s with
      drained := rest, emitted := s.emitted ++ [event], resetSent := s.resetSent || event.isReset } := by
  have hout : out { s with
      drained := rest, emitted := s.emitted ++ [event], resetSent := s.resetSent || event.isReset } = s.out := by
    simp [out, hd]
  have hle : (inOrder (s.emitted ++ [event])).length ≤ (inOrder s.out).length := by
    have hsplit : s.out = s.emitted ++ [event] ++ rest := by rw [out, hd, List.append_cons]
    rw [hsplit, inOrder_append (b := rest), List.length_append]
    exact Nat.le_add_right _ _
  exact {
    order := by rw [hout]; exact h.order
    resets := by rw [hout]; exact h.resets
    accepted := h.accepted
    parked := h.parked
    sorted := h.sorted
    later := h.later
    full := h.full
    marks := by rw [hout]; exact h.marks
    marksOut := by
      show ∀ m ∈ (TurnStream.marks s.log).drop (resetsOf (s.emitted ++ [event])).length,
        (inOrder (s.emitted ++ [event])).length ≤ m
      cases hr : event.isReset with
      | true =>
        have hevent : ∀ e ∈ [event], e.isReset = true := by simpa using hr
        rw [inOrder_append, resetsOf_append, (resetsOf_kind hevent).1, (resetsOf_kind hevent).2, List.append_nil,
          List.length_append, ← List.drop_drop]
        exact fun m hm => h.marksOut m (List.mem_of_mem_drop hm)
      | false =>
        have hevent : ∀ e ∈ [event], e.isReset = false := by simpa using hr
        have hnone : resetsOf s.drained = [] := h.uniform.resolve_left (by simp [hd, inOrder, hr])
        have hsame : resetsOf s.out = resetsOf s.emitted := by rw [out, resetsOf_append, hnone, List.append_nil]
        rw [resetsOf_append, (inOrder_kind hevent).2, List.append_nil, ← hsame]
        exact fun m hm => hle.trans ((Nat.le_add_right _ _).trans (h.marks m hm))
    uniform := by
      have hsub : rest.Sublist s.drained := hd ▸ List.sublist_cons_self event rest
      refine h.uniform.imp (fun hn => ?_) fun hn => ?_
      · have := hsub.filter fun e => !e.isReset
        rwa [← inOrder, ← inOrder, hn, List.sublist_nil] at this
      · have := hsub.filter TurnEvent.isReset
        rwa [← resetsOf, ← resetsOf, hn, List.sublist_nil] at this
    lineKind := h.lineKind
    segmentKind := h.segmentKind
    resetKind := h.resetKind
    under := h.under
    queued := h.queued
    sent := fun hn => by
      show (s.resetSent || event.isReset) = true
      cases hr : event.isReset with
      | true => rw [Bool.or_true]
      | false =>
        rw [Bool.or_false]
        refine h.sent fun he => hn ?_
        show resetsOf (s.emitted ++ [event]) = []
        rw [resetsOf_append, he, (inOrder_kind (by simpa using hr)).2]
        rfl
    ending := h.ending
    lastResets := h.lastResets
    lastSegments := h.lastSegments
    last := fun terminal ht => absurd (h.last terminal ht).2 (by simp [hd]) }

/-- All resets that wait go out together. -/
theorem Inv.drained {reader : Reader} (hd : s.drained = []) (hheld : reader.held = s.reader.held)
    (hcounted : reader.counted = s.reader.counted) (hlater : ∀ event, reader ≠ .gotWrite event)
    (hlow : reader.stage ≤ 2) (hstage : 1 ≤ reader.stage → 1 ≤ s.reader.stage) :
    Inv { s with drained := s.control.drainResets.1, control := s.control.drainResets.2, reader } := by
  have hline : line { s with reader } = s.line := by rw [line, line, hheld]
  have hhanded : handed { s with reader } = s.handed := by rw [handed, handed, hcounted]
  have hempty : s.out = s.emitted := by rw [out, hd, List.append_nil]
  obtain ⟨hin, hresets⟩ := resetsOf_kind h.resetKind
  have hnone : (TurnStream.marks s.log).drop (resetsOf (s.emitted ++ s.control.resets)).length = [] := by
    rw [List.drop_eq_nil_iff, length_marks, h.resets, hempty, resetsOf_append, hresets]
  exact {
    order := by
      show inOrder s.log = inOrder (s.emitted ++ s.control.resets) ++
        weave (handed { s with reader }) s.control.segments (line { s with reader })
      rw [hline, hhanded, inOrder_append, hin, List.append_nil, ← hempty]
      exact h.order
    resets := by
      show resetsOf s.log = resetsOf (s.emitted ++ s.control.resets) ++ []
      rw [resetsOf_append, hresets, List.append_nil, ← hempty]
      exact h.resets
    accepted := by
      show s.control.accepted = handed { s with reader } + (line { s with reader }).length
      rw [hline, hhanded]
      exact h.accepted
    parked := h.parked
    sorted := h.sorted
    later := fun event he => absurd he (hlater event)
    full := fun _ _ => .inl rfl
    marks := by
      show ∀ m ∈ (TurnStream.marks s.log).drop (resetsOf (s.emitted ++ s.control.resets)).length, _
      rw [hnone]
      simp
    marksOut := h.marksOut
    uniform := .inl hin
    lineKind := by
      show ∀ event ∈ line { s with reader }, event.isReset = false
      rw [hline]
      exact h.lineKind
    segmentKind := h.segmentKind
    resetKind := fun _ he => nomatch he
    under := h.under
    queued := h.queued
    sent := h.sent
    ending := fun hs => h.ending (hstage hs)
    lastResets := fun _ => rfl
    lastSegments := fun hs => by
      have hs' : 3 ≤ reader.stage := hs
      omega
    last := fun terminal ht => by
      have ht' : reader = .ended terminal := ht
      rw [ht', Reader.stage] at hlow
      exact absurd hlow (by decide) }

/-- The segments that are due go out, and what is left is behind the next event. -/
theorem Inv.due {reader : Reader} (hd : s.drained = []) (hheld : reader.held = s.reader.held)
    (hcounted : s.reader.counted = 0) (hcounted' : reader.counted = 0) (hstage : reader.stage = 0)
    (hnew : ∀ event, s.reader = .gotDrain event → reader = .gotDrain event) {c : ℕ}
    (hcommitted : ∀ due all, s.reader.committed due all = due + c)
    (hcommitted' : ∀ due all, reader.committed due all = c) :
    Inv { s with
      drained := (s.control.takeDue s.written).1, control := (s.control.takeDue s.written).2, reader } := by
  have hline : line { s with reader } = s.line := by rw [line, line, hheld]
  have hhanded : handed { s with reader } = s.written := by rw [handed, hcounted']; rfl
  have hhanded' : s.handed = s.written := by rw [handed, hcounted]; rfl
  have hempty : s.out = s.emitted := by rw [out, hd, List.append_nil]
  let due := s.control.segments.takeWhile (·.after ≤ s.written)
  let rest := s.control.segments.dropWhile (·.after ≤ s.written)
  have hparts : due ++ rest = s.control.segments := List.takeWhile_append_dropWhile
  have hkind : ∀ event ∈ due.map Parked.event, event.isReset = false := by
    intro event he
    obtain ⟨p, hp, rfl⟩ := List.mem_map.mp he
    exact h.segmentKind p (List.takeWhile_subset _ hp)
  have hrest : ∀ p ∈ rest, s.written < p.after := Weave.behind h.sorted
  obtain ⟨hin, hresets⟩ := inOrder_kind hkind
  exact {
    order := by
      show inOrder s.log = inOrder (s.emitted ++ due.map Parked.event) ++
        weave (handed { s with reader }) rest (line { s with reader })
      rw [hline, hhanded, inOrder_append, hin, List.append_assoc, ← Weave.due, ← hempty, ← hhanded']
      exact h.order
    resets := by
      show resetsOf s.log = resetsOf (s.emitted ++ due.map Parked.event) ++ s.control.resets
      rw [resetsOf_append, hresets, List.append_nil, ← hempty]
      exact h.resets
    accepted := by
      show s.control.accepted = handed { s with reader } + (line { s with reader }).length
      rw [hline, hhanded, ← hhanded']
      exact h.accepted
    parked := fun p hp => h.parked p (List.dropWhile_subset _ hp)
    sorted := h.sorted.sublist (List.dropWhile_sublist _)
    later := fun _ _ => hrest
    full := fun event hf => (h.full event hf).imp_right fun hq => hq.imp_right fun ⟨held, hr⟩ => ⟨held, hnew held hr⟩
    marks := by
      show ∀ m ∈ (TurnStream.marks s.log).drop (resetsOf (s.emitted ++ due.map Parked.event)).length,
        (inOrder (s.emitted ++ due.map Parked.event)).length +
          reader.committed (rest.takeWhile (·.after ≤ s.written)).length rest.length ≤ m
      rw [resetsOf_append, hresets, List.append_nil, inOrder_append, hin, List.length_append, List.length_map, hcommitted']
      intro m hm
      have hle := h.marks m (by rwa [hempty])
      rwa [hempty, committed, hcommitted, ← Nat.add_assoc] at hle
    marksOut := h.marksOut
    uniform := .inr hresets
    lineKind := by
      show ∀ event ∈ line { s with reader }, event.isReset = false
      rw [hline]
      exact h.lineKind
    segmentKind := fun p hp => h.segmentKind p (List.dropWhile_subset _ hp)
    resetKind := h.resetKind
    under := h.under
    queued := h.queued
    sent := h.sent
    ending := fun hs => by
      have hs' : 1 ≤ reader.stage := hs
      omega
    lastResets := fun hs => by
      have hs' : 2 ≤ reader.stage := hs
      omega
    lastSegments := fun hs => by
      have hs' : 3 ≤ reader.stage := hs
      omega
    last := fun terminal ht => by
      have ht' : reader = .ended terminal := ht
      rw [ht', Reader.stage] at hstage
      exact absurd hstage (by decide) }

theorem Inv.write {event : TurnEvent} (hd : s.drained = []) (hreader : s.reader = .gotWrite event) :
    Inv { s with drained := [event], reader := .wrote } := by
  have hempty : s.out = s.emitted := by rw [out, hd, List.append_nil]
  have hhanded : s.handed = s.written := by rw [handed, hreader]; rfl
  have hline : s.line = event :: ([] ++ s.queue ++ s.writer.inFlight) := by rw [line, hreader]; rfl
  have hevent : ∀ e ∈ [event], e.isReset = false := by
    have := h.lineKind event (by rw [hline]; exact List.mem_cons_self)
    simpa using this
  obtain ⟨hin, hresets⟩ := inOrder_kind hevent
  have hfull : ∀ e, s.writer = .full e → s.control.resets = [] ∨ s.queue ≠ [] := fun e he =>
    (h.full e he).imp_right fun hq => hq.resolve_right fun ⟨_, hr⟩ => by
      rw [hreader] at hr
      cases hr
  exact {
    order := by
      show inOrder s.log = inOrder (s.emitted ++ [event]) ++
        weave (s.written + 1) s.control.segments ([] ++ s.queue ++ s.writer.inFlight)
      rw [inOrder_append, hin, List.append_assoc, List.singleton_append, ← Weave.next event (h.later event hreader),
        ← hline, ← hempty, ← hhanded]
      exact h.order
    resets := by
      show resetsOf s.log = resetsOf (s.emitted ++ [event]) ++ s.control.resets
      rw [resetsOf_append, hresets, List.append_nil, ← hempty]
      exact h.resets
    accepted := by
      show s.control.accepted = s.written + 1 + ([] ++ s.queue ++ s.writer.inFlight).length
      rw [h.accepted, hline, hhanded, List.length_cons]
      omega
    parked := h.parked
    sorted := h.sorted
    later := fun _ he => nomatch he
    full := fun e he => (hfull e he).imp_right .inl
    marks := by
      show ∀ m ∈ (TurnStream.marks s.log).drop (resetsOf (s.emitted ++ [event])).length,
        (inOrder (s.emitted ++ [event])).length + 0 ≤ m
      rw [resetsOf_append, hresets, List.append_nil, inOrder_append, hin, List.length_append, List.length_singleton,
        ← hempty]
      intro m hm
      have hle := h.marks m hm
      rwa [committed, hreader, Reader.committed] at hle
    marksOut := h.marksOut
    uniform := .inr hresets
    lineKind := fun e he => h.lineKind e (by rw [hline]; exact List.mem_cons_of_mem _ he)
    segmentKind := h.segmentKind
    resetKind := h.resetKind
    under := h.under
    queued := h.queued
    sent := h.sent
    ending := fun hs => absurd hs (by simp [Reader.stage])
    lastResets := fun hs => absurd hs (by simp [Reader.stage])
    lastSegments := fun hs => absurd hs (by simp [Reader.stage])
    last := fun _ ht => nomatch ht }

/-- A step of the stream that changes its place, where the events that are still to be written stay. -/
theorem Inv.moved {reader : Reader} {written : ℕ} {queue : List TurnEvent}
    (hline : reader.held ++ queue ++ s.writer.inFlight = s.line)
    (hcounted : written + reader.counted = s.handed) (hlater : ∀ event, reader ≠ .gotWrite event)
    (hfull : ∀ event, s.writer = .full event →
      s.control.resets = [] ∨ queue ≠ [] ∨ ∃ held, reader = .gotDrain held)
    (hcommitted : ∀ due all, reader.committed due all = 0) (hlow : reader.stage ≤ 1)
    (hending : 1 ≤ reader.stage → s.writer = .gone ∧ queue = []) :
    Inv { s with queue, written, reader } where
  order := by
    show inOrder s.log = inOrder s.out ++ weave (written + reader.counted) s.control.segments
      (reader.held ++ queue ++ s.writer.inFlight)
    rw [hline, hcounted]
    exact h.order
  resets := h.resets
  accepted := by
    show s.control.accepted = written + reader.counted + (reader.held ++ queue ++ s.writer.inFlight).length
    rw [hline, hcounted]
    exact h.accepted
  parked := h.parked
  sorted := h.sorted
  later event he := absurd he (hlater event)
  full := hfull
  marks m hm := by
    rw [committed, hcommitted]
    exact (Nat.le_add_right _ _).trans (h.marks m hm)
  marksOut := h.marksOut
  uniform := h.uniform
  lineKind := by
    show ∀ event ∈ reader.held ++ queue ++ s.writer.inFlight, event.isReset = false
    rw [hline]
    exact h.lineKind
  segmentKind := h.segmentKind
  resetKind := h.resetKind
  under := h.under
  queued := h.queued
  sent := h.sent
  ending := hending
  lastResets hs := by
    have hs' : 2 ≤ reader.stage := hs
    omega
  lastSegments hs := by
    have hs' : 3 ≤ reader.stage := hs
    omega
  last terminal ht := by
    have ht' : reader = .ended terminal := ht
    rw [ht', Reader.stage] at hlow
    exact absurd hlow (by decide)

theorem Inv.noticed (hreader : s.reader = .wait) :
    Inv { s with control := { s.control with notified := false }, reader := .drain } := by
  have hquiet : Inv { s with control := { s.control with notified := false } } := { h with }
  refine hquiet.moved (by rw [line, hreader]; rfl) (by rw [handed, hreader]; rfl) (by simp) (fun event he => ?_)
    (fun _ _ => rfl) (by decide) (by simp [Reader.stage])
  exact (h.full event he).imp_right fun hq => .inl (hq.resolve_right fun ⟨_, hr⟩ => by simp [hreader] at hr)

theorem Inv.received (hreader : s.reader = .wait) (hq : s.queue ≠ [] ∨ s.writer = .gone) : s.receive.Inv := by
  have hhanded : s.handed = s.written := by rw [handed, hreader]; rfl
  have hcases : (∃ event queue, s.queue = event :: queue ∧ s.receive = { s with queue, reader := .gotDrain event }) ∨
      s.queue = [] ∧ s.receive = { s with reader := .endDrain } := by
    unfold receive
    cases hqueue : s.queue with
    | nil => exact .inr ⟨rfl, rfl⟩
    | cons event queue => exact .inl ⟨event, queue, rfl, rfl⟩
  obtain ⟨event, queue, hqueue, he⟩ | ⟨hqueue, he⟩ := hcases
  · rw [he]
    exact h.moved (by rw [line, hreader, hqueue]; rfl) hhanded.symm (by simp) (fun _ _ => .inr (.inr ⟨event, rfl⟩))
      (fun _ _ => rfl) (by simp [Reader.stage]) (by simp [Reader.stage])
  · have hgone := hq.resolve_left fun hne => hne hqueue
    rw [he]
    exact h.moved (by rw [line, hreader]; rfl) hhanded.symm (by simp) (fun _ hf => by simp [hgone] at hf)
      (fun _ _ => rfl) (by simp [Reader.stage]) fun _ => ⟨hgone, hqueue⟩

theorem Inv.counted (hreader : s.reader = .wrote) :
    Inv { s with written := s.written + 1, reader := .drain } := by
  refine h.moved (by rw [line, hreader]; rfl) (by rw [handed, hreader]; rfl) (by simp) (fun event he => ?_)
    (fun _ _ => rfl) (by decide) (by simp [Reader.stage])
  exact (h.full event he).imp_right fun hq => .inl (hq.resolve_right fun ⟨_, hr⟩ => by simp [hreader] at hr)

/-! The end of the stream. -/

theorem Inv.allDue (hd : s.drained = []) (hreader : s.reader = .endDue) :
    Inv { s with drained := s.control.takeAll.1, control := s.control.takeAll.2, reader := .endCheck } := by
  have hstage : s.reader.stage = 2 := by rw [hreader]; rfl
  obtain ⟨hgone, hqueue⟩ := h.ending (by omega)
  have hnone := h.lastResets hstage.ge
  have hempty : s.out = s.emitted := by rw [out, hd, List.append_nil]
  have hline : s.line = [] := by rw [line, hreader, hqueue, hgone]; rfl
  have hkind : ∀ event ∈ s.control.segments.map Parked.event, event.isReset = false := by
    intro event he
    obtain ⟨p, hp, rfl⟩ := List.mem_map.mp he
    exact h.segmentKind p hp
  obtain ⟨hin, hresets⟩ := inOrder_kind hkind
  have hline' : line { s with reader := .endCheck } = [] := by rw [line, hqueue, hgone]; rfl
  exact {
    order := by
      show inOrder s.log = inOrder (s.emitted ++ s.control.segments.map Parked.event) ++
        weave (s.written + 0) [] (line { s with reader := .endCheck })
      rw [hline', inOrder_append, hin, ← hempty, h.order, hline]
      simp [weave]
    resets := by
      show resetsOf s.log = resetsOf (s.emitted ++ s.control.segments.map Parked.event) ++ s.control.resets
      rw [resetsOf_append, hresets, List.append_nil, ← hempty]
      exact h.resets
    accepted := by
      show s.control.accepted = s.written + 0 + (line { s with reader := .endCheck }).length
      rw [hline', h.accepted, hline, handed, hreader]
      rfl
    parked := fun _ hp => nomatch hp
    sorted := .nil
    later := fun _ he => nomatch he
    full := fun _ hf => by simp [hgone] at hf
    marks := by
      show ∀ m ∈ (TurnStream.marks s.log).drop
        (resetsOf (s.emitted ++ s.control.segments.map Parked.event)).length, _
      rw [resetsOf_append, hresets, List.append_nil, ← hempty, h.drop_marks hnone]
      simp
    marksOut := h.marksOut
    uniform := .inr hresets
    lineKind := by
      show ∀ event ∈ line { s with reader := .endCheck }, event.isReset = false
      rw [hline']
      simp
    segmentKind := fun _ hp => nomatch hp
    resetKind := h.resetKind
    under := h.under
    queued := h.queued
    sent := h.sent
    ending := fun _ => ⟨hgone, hqueue⟩
    lastResets := fun _ => hnone
    lastSegments := fun _ => rfl
    last := fun _ ht => nomatch ht }

/-- At the end every reset is written, so the stream never says that one was not. -/
theorem Inv.checked (hd : s.drained = []) (hreader : s.reader = .endCheck) :
    Inv { s with reader := .ended (if s.control.resetQueued && !s.resetSent then .resetLost else .result) } := by
  have hstage : s.reader.stage = 3 := by rw [hreader]; rfl
  have hending := h.ending (by omega)
  have hnone := h.lastResets (by omega)
  have hsent : s.control.resetQueued = true → s.resetSent = true := by
    intro hq
    refine h.sent fun he => h.queued hq ?_
    rw [h.resets, hnone, out, hd, List.append_nil, List.append_nil, he]
  have hresult : (if s.control.resetQueued && !s.resetSent then Terminal.resetLost else .result) = .result := by
    cases hq : s.control.resetQueued with
    | false => rfl
    | true => rw [hsent hq]; rfl
  rw [hresult]
  exact {
    order := by
      have hline : line { s with reader := .ended .result } = s.line := by rw [line, line, hreader]; rfl
      have hhanded : handed { s with reader := .ended .result } = s.handed := by rw [handed, handed, hreader]; rfl
      rw [hline, hhanded]
      exact h.order
    resets := h.resets
    accepted := by
      have haccepted := h.accepted
      rw [handed, line, hreader] at haccepted
      exact haccepted
    parked := h.parked
    sorted := h.sorted
    later := fun _ he => nomatch he
    full := fun _ _ => .inl hnone
    marks := fun m hm => (Nat.le_add_right _ _).trans (h.marks m hm)
    marksOut := h.marksOut
    uniform := h.uniform
    lineKind := by
      have hkind := h.lineKind
      rw [line, hreader] at hkind
      exact hkind
    segmentKind := h.segmentKind
    resetKind := h.resetKind
    under := h.under
    queued := h.queued
    sent := h.sent
    ending := fun _ => hending
    lastResets := fun _ => hnone
    lastSegments := fun _ => h.lastSegments hstage.ge
    last := fun _ ht => ⟨(Reader.ended.inj ht).symm, hd⟩ }

theorem Inv.read (hdropped : s.reader ≠ .dropped) : s.read.Inv := by
  cases hd : s.drained with
  | cons event rest =>
    have hread : s.read = { s with
        drained := rest, emitted := s.emitted ++ [event], resetSent := s.resetSent || event.isReset } := by
      rw [Stream.read, hd]
    rw [hread]
    exact h.yielded hd
  | nil =>
    cases hr : s.reader with
    | drain =>
      have hread : s.read = { s with
          drained := s.control.drainResets.1, control := s.control.drainResets.2, reader := .due } := by
        rw [Stream.read, hd, hr]
      rw [hread]
      exact h.drained hd (by rw [hr]; rfl) (by rw [hr]; rfl) (by simp) (by decide) (by simp [Reader.stage])
    | due =>
      have hread : s.read = { s with
          drained := (s.control.takeDue s.written).1, control := (s.control.takeDue s.written).2
          reader := .wait } := by
        rw [Stream.read, hd, hr]
      rw [hread]
      exact h.due hd (by rw [hr]; rfl) (by rw [hr]; rfl) rfl rfl (by simp [hr])
        (fun due all => by rw [hr, Reader.committed, Nat.add_zero]) fun _ _ => rfl
    | gotDrain event =>
      have hread : s.read = { s with
          drained := s.control.drainResets.1, control := s.control.drainResets.2, reader := .gotDue event } := by
        rw [Stream.read, hd, hr]
      rw [hread]
      exact h.drained hd (by rw [hr]; rfl) (by rw [hr]; rfl) (by simp) (by simp [Reader.stage])
        (by simp [Reader.stage])
    | gotDue event =>
      have hread : s.read = { s with
          drained := (s.control.takeDue s.written).1, control := (s.control.takeDue s.written).2
          reader := .gotWrite event } := by
        rw [Stream.read, hd, hr]
      rw [hread]
      exact h.due hd (by rw [hr]; rfl) (by rw [hr]; rfl) rfl rfl (by simp [hr])
        (fun due all => by rw [hr, Reader.committed]) fun _ _ => rfl
    | gotWrite event =>
      have hread : s.read = { s with drained := [event], reader := .wrote } := by rw [Stream.read, hd, hr]
      rw [hread]
      exact h.write hd hr
    | wrote =>
      have hread : s.read = { s with written := s.written + 1, reader := .drain } := by rw [Stream.read, hd, hr]
      rw [hread]
      exact h.counted hr
    | endDrain =>
      have hread : s.read = { s with
          drained := s.control.drainResets.1, control := s.control.drainResets.2, reader := .endDue } := by
        rw [Stream.read, hd, hr]
      rw [hread]
      exact h.drained hd (by rw [hr]; rfl) (by rw [hr]; rfl) (by simp) (by decide) fun _ => by rw [hr]; decide
    | endDue =>
      have hread : s.read = { s with
          drained := s.control.takeAll.1, control := s.control.takeAll.2, reader := .endCheck } := by
        rw [Stream.read, hd, hr]
      rw [hread]
      exact h.allDue hd hr
    | endCheck =>
      have hread : s.read = { s with
          reader := .ended (if s.control.resetQueued && !s.resetSent then .resetLost else .result) } := by
        rw [Stream.read, hd, hr]
      rw [hread]
      exact h.checked hd hr
    | wait =>
      have hread : s.read = s := by rw [Stream.read, hd, hr]
      rw [hread]
      exact h
    | ended terminal =>
      have hread : s.read = s := by rw [Stream.read, hd, hr]
      rw [hread]
      exact h
    | dropped => exact absurd hr hdropped

theorem Inv.step (hdropped : s.reader ≠ .dropped) {act : Action} (hok : s.Enabled act) :
    (s.step act).reader ≠ .dropped → (s.step act).Inv := by
  intro hstill
  cases act with
  | deliver event =>
    cases hr : event.isReset with
    | true => exact h.pushReset hok hr
    | false => exact h.reserve hok hr
  | note =>
    obtain ⟨event, hw⟩ := hok
    exact h.note hw
  | send =>
    obtain ⟨event, hw⟩ := hok
    exact h.send hw
  | park =>
    obtain ⟨event, hw⟩ := hok
    have hstep : s.step .park = s.park event := by rw [Stream.step, hw]
    rw [hstep]
    exact h.park hw
  | finish =>
    have hw : s.writer = .idle := hok
    refine h.writing (by rw [hw]; rfl) (fun _ hu => ?_) (fun _ hf => ?_) fun _ => rfl
    · cases hu
    · cases hf
  | read => exact h.read hdropped
  | receive => exact h.received hok.1 hok.2.2
  | wake => exact h.noticed hok.1
  | drop => exact absurd rfl hstill
  | close => exact absurd hok hdropped

theorem Inv.delivered : Delivered s where
  order := by
    rw [h.order, out, inOrder_append, List.append_assoc]
    exact List.prefix_append _ _
  resets := by
    rw [h.resets, out, resetsOf_append, List.append_assoc]
    exact List.prefix_append _ _
  first before reset after he hr hlt := by
    by_contra hle
    have hmem := marks_split (a := before) (b := after) hr
    rw [← he] at hmem
    have hdrop : (inOrder before).length ∈ (TurnStream.marks s.log).drop (resetsOf s.emitted).length := by
      obtain ⟨k, hk⟩ := Nat.exists_eq_add_of_le (Nat.not_lt.mp hle)
      rw [hk, ← List.drop_drop] at hmem
      exact List.mem_of_mem_drop hmem
    exact absurd (h.marksOut _ hdrop) (Nat.not_le.mpr hlt)
  complete terminal ht := by
    obtain ⟨hresult, hd⟩ := h.last terminal ht
    have hstage : s.reader.stage = 4 := by rw [ht]; rfl
    obtain ⟨hgone, hqueue⟩ := h.ending (by omega)
    refine ⟨hresult, ?_, ?_⟩
    · rw [h.order, out, hd, List.append_nil, h.lastSegments (by omega), line, ht, hqueue, hgone]
      simp [weave, Reader.held, Writer.inFlight]
    · rw [h.resets, out, hd, List.append_nil, h.lastResets (by omega), List.append_nil]

end inv

/-- Once the client has left nothing more is written, and the turn's side can only go on. -/
theorem delivered_grow {s' : Stream} (h : Delivered s) (hemitted : s'.emitted = s.emitted)
    (hlog : s.log <+: s'.log) (hreader : s'.reader = .dropped) : Delivered s' where
  order := hemitted ▸ h.order.trans (hlog.filter _)
  resets := hemitted ▸ h.resets.trans (hlog.filter _)
  first before reset after he hr hlt := by
    obtain ⟨rest, hrest⟩ := hlog
    rw [hemitted] at hlt ⊢
    obtain ⟨more, rfl, -⟩ | ⟨more, hmore, hafter⟩ := List.append_eq_append_iff.mp (hrest.trans he)
    · rw [inOrder_append, List.length_append] at hlt
      exact absurd h.order.length_le (by omega)
    · cases more with
      | nil =>
        rw [List.append_nil] at hmore
        rw [← hmore] at hlt
        exact absurd h.order.length_le (by omega)
      | cons first more =>
        obtain ⟨rfl, -⟩ := List.cons.inj hafter
        exact h.first before _ more hmore hr hlt
  complete terminal ht := by
    rw [hreader] at ht
    cases ht

theorem dropped_step (hreader : s.reader = .dropped) {act : Action} (hok : s.Enabled act) :
    (s.step act).emitted = s.emitted ∧ s.log <+: (s.step act).log ∧ (s.step act).reader = .dropped := by
  have hmaybe (pushed : Bool) (event : TurnEvent) : s.log <+: if pushed then s.log ++ [event] else s.log := by
    split
    · exact List.prefix_append _ _
    · exact List.prefix_rfl
  cases act with
  | deliver event =>
    rw [step, deliver, hreader]
    split
    · exact ⟨rfl, hmaybe _ _, rfl⟩
    · exact ⟨rfl, List.prefix_rfl, hreader⟩
  | note =>
    obtain ⟨event, hw⟩ := hok
    rw [step, hw]
    exact ⟨rfl, List.prefix_append _ _, hreader⟩
  | send =>
    obtain ⟨event, hw⟩ := hok
    rw [step, hw]
    exact ⟨rfl, List.prefix_rfl, hreader⟩
  | park =>
    obtain ⟨event, hw⟩ := hok
    rw [step, hw]
    exact ⟨rfl, hmaybe _ _, hreader⟩
  | finish => exact ⟨rfl, List.prefix_rfl, hreader⟩
  | read => exact absurd hreader hok
  | receive => exact absurd (hreader.symm.trans hok.1) (by simp)
  | wake => exact absurd (hreader.symm.trans hok.1) (by simp)
  | drop => exact ⟨rfl, List.prefix_rfl, rfl⟩
  | close => exact ⟨rfl, List.prefix_rfl, hreader⟩

theorem read_not_dropped (hreader : s.reader ≠ .dropped) : s.read.reader ≠ .dropped := by
  unfold read
  split
  · exact hreader
  · split <;> simp_all

theorem deliver_reader (s : Stream) (event : TurnEvent) : (s.deliver event).reader = s.reader := by
  unfold deliver
  split
  · rfl
  · split
    · rfl
    · split
      · rfl
      · split <;> rfl

theorem step_dropped (hreader : s.reader ≠ .dropped) {act : Action}
    (hstep : (s.step act).reader = .dropped) : act = .drop := by
  have hsame : (s.step act).reader = s.reader → act = .drop := fun he => absurd (he.symm.trans hstep) hreader
  cases act with
  | deliver event => exact hsame (deliver_reader s event)
  | note =>
    refine hsame ?_
    simp only [step]
    split <;> rfl
  | send =>
    refine hsame ?_
    simp only [step]
    split <;> rfl
  | park =>
    refine hsame ?_
    simp only [step]
    split <;> rfl
  | finish => exact hsame rfl
  | read => exact absurd hstep (read_not_dropped hreader)
  | receive =>
    rw [step, receive] at hstep
    cases hq : s.queue <;> simp [hq] at hstep
  | wake => exact nomatch hstep
  | drop => rfl
  | close => exact hsame rfl

end Stream

/-- Whatever the order of steps, the client gets the events in the order they were accepted, each reset
before every event accepted after it, and at the end all of them. -/
theorem stream_exact (s : Stream) (h : streams.Runs Stream.Enabled s) : Delivered s := by
  have hinv : Delivered s ∧ (s.reader ≠ .dropped → s.Inv) := by
    refine h.invariant (I := fun s => Delivered s ∧ (s.reader ≠ .dropped → s.Inv))
      ⟨Stream.Inv.new.delivered, fun _ => Stream.Inv.new⟩ fun s act ⟨hd, hs⟩ hok => ?_
    by_cases hreader : s.reader = .dropped
    · obtain ⟨hemitted, hlog, hr⟩ := Stream.dropped_step hreader hok
      exact ⟨Stream.delivered_grow hd hemitted hlog hr, fun hne => absurd hr hne⟩
    · have hnext := (hs hreader).step hreader hok
      refine ⟨?_, hnext⟩
      by_cases hdrop : (s.step act).reader = .dropped
      · obtain rfl := Stream.step_dropped hreader hdrop
        exact Stream.delivered_grow hd rfl List.prefix_rfl rfl
      · exact (hnext hdrop).delivered
  exact hinv.1

/-- A check of `Enabled` for runs that end on their own. -/
def Stream.takes (s : Stream) : Action → Bool
  | .deliver _ | .finish => match s.writer with
    | .idle => true
    | _ => false
  | .note => match s.writer with
    | .reserved _ => true
    | _ => false
  | .send => match s.writer with
    | .noted _ => true
    | _ => false
  | .read => match s.reader with
    | .dropped => false
    | _ => true
  | .receive => match s.reader, s.drained, s.queue, s.writer with
    | .wait, [], _ :: _, _ => true
    | .wait, [], [], .gone => true
    | _, _, _, _ => false
  | _ => false

theorem Stream.takes_enabled (s : Stream) (act : Action) (h : s.takes act = true) : s.Enabled act := by
  cases act <;> simp only [takes] at h <;> (try split at h) <;> simp_all [Enabled]

def sampleActions : List Action :=
  [.deliver (.delta (Text.ascii "a")), .note, .send, .deliver (.reset .guard), .finish] ++
    List.replicate 3 .read ++ [.receive] ++ List.replicate 7 .read ++ [.receive] ++ List.replicate 3 .read

/-- A reset queued after a delta goes out before it. -/
theorem stream_exact_sample : ∃ s, streams.Runs Stream.Enabled s ∧ s.reader = .ended .result ∧
    s.log = [.delta (Text.ascii "a"), .reset .guard] ∧
    s.emitted = [.reset .guard, .delta (Text.ascii "a")] ∧ Delivered s := by
  have hrun : ∃ s, streams.follow Stream.takes streams.start sampleActions = some s ∧ s.reader = .ended .result ∧
      s.log = [.delta (Text.ascii "a"), .reset .guard] ∧
      s.emitted = [.reset .guard, .delta (Text.ascii "a")] := ⟨_, rfl, rfl, rfl, rfl⟩
  obtain ⟨s, hfollow, hend, hlog, hemitted⟩ := hrun
  have hs := Machine.Runs.follow Stream.takes_enabled .start hfollow
  exact ⟨s, hs, hend, hlog, hemitted, stream_exact s hs⟩

end PulseNull.Server.TurnStream
