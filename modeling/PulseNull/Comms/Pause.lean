import PulseNull.Machine
import PulseNull.Comms.Dialogue

/-! Pause, resume and stop crossing the loop of a dialogue. A request takes more than one step: a pause
or resume sends its signal before it takes the lock, a stop aborts the task after it. -/
namespace PulseNull.Comms
open Text (ascii)

/-- A request in progress: with its signal sent, with a status to send, or with a task to abort. -/
inductive Request where
  | signalled (paused : Bool)
  | noticing
  | aborting
  deriving DecidableEq

/-- `set_paused` before the lock: the signal the loop waits on. -/
def Dialogue.signal (d : Dialogue) (paused : Bool) : Dialogue := { d with pause := !paused }

/-- `set_paused` under the lock, and whether a status is to be sent. -/
def Dialogue.showPaused (d : Dialogue) (paused : Bool) : Dialogue × Bool :=
  if d.phase.isOver then (d, false)
  else match paused, d.phase with
    | true, .localThinking | true, .peerThinking =>
      ({ d with phase := .paused, beforePause := some d.phase }, true)
    | false, .paused =>
      ({ d with phase := d.beforePause.getD .localThinking, beforePause := none }, true)
    | _, _ => (d, false)

/-- `stop` under the lock, and whether it took the handle of the task. -/
def Dialogue.cancel (d : Dialogue) : Dialogue × Bool :=
  if d.phase.isOver then (d, false) else ({ d with phase := .cancelled, abort := false }, d.abort)

theorem setPaused_eq (d : Dialogue) (paused : Bool) :
    d.setPaused paused = (d.signal paused).showPaused paused := by
  obtain ⟨id, localName, peer, topic, maxTurns, turns, phase⟩ := d
  cases phase <;> cases paused <;> rfl

theorem stop_eq (d : Dialogue) :
    d.stop = { d.cancel.1 with aborted := d.cancel.1.aborted || d.cancel.2 } := by
  unfold Dialogue.stop Dialogue.cancel
  split
  · simp
  · rfl

/-- A dialogue and the requests in progress. -/
structure Talk where
  dialogue : Dialogue
  requests : List Request
  deriving DecidableEq

inductive Move where
  | loop (env : Env)
  | land
  | setPaused (paused : Bool)
  | stop
  | proceed (k : Nat)

/-- The next step of a request. -/
def Talk.proceed (s : Talk) (k : Nat) : Talk :=
  match s.requests[k]? with
  | none => s
  | some (.signalled paused) =>
    { dialogue := (s.dialogue.showPaused paused).1
      requests := s.requests.eraseIdx k ++
        if (s.dialogue.showPaused paused).2 then [.noticing] else [] }
  | some .noticing =>
    { dialogue := s.dialogue.send (.status s.dialogue.status), requests := s.requests.eraseIdx k }
  | some .aborting =>
    { dialogue := { s.dialogue with aborted := true }, requests := s.requests.eraseIdx k }

def Talk.step (s : Talk) : Move → Talk
  | .loop env => { s with dialogue := s.dialogue.run env }
  | .land => { s with dialogue := s.dialogue.land }
  | .setPaused paused =>
    { dialogue := s.dialogue.signal paused, requests := s.requests ++ [.signalled paused] }
  | .stop =>
    { dialogue := s.dialogue.cancel.1
      requests := s.requests ++ if s.dialogue.cancel.2 then [.aborting] else [] }
  | .proceed k => s.proceed k

def talk (id : Nat) (localName : Bytes) (req : StartRequest) (slots : Nat) : Machine Talk Move :=
  ⟨⟨.new id localName req slots, []⟩, .step⟩

/-- The phase says what the signal says, once no request is in progress. -/
def Talk.Agrees (s : Talk) : Prop :=
  s.requests = [] → s.dialogue.phase.isOver = false →
    (s.dialogue.phase = .paused ↔ s.dialogue.pause = false)

/-- An ending stays, whatever comes. -/
def Talk.Final (s : Talk) : Prop :=
  s.dialogue.phase.isOver = true →
    ∀ moves : List Move, (moves.foldl Talk.step s).dialogue.phase = s.dialogue.phase

/-- A pause does not start between the two halves of a resume, nor a resume between those of a pause. -/
def Talk.Uncrossed (s : Talk) : Move → Prop
  | .setPaused paused => .signalled (!paused) ∉ s.requests
  | _ => True

instance (s : Talk) : (move : Move) → Decidable (s.Uncrossed move)
  | .setPaused paused => inferInstanceAs (Decidable (.signalled (!paused) ∉ s.requests))
  | .loop _ | .land | .stop | .proceed _ => isTrue trivial

instance (s : Talk) : Decidable s.Agrees :=
  inferInstanceAs (Decidable (s.requests = [] → s.dialogue.phase.isOver = false →
    (s.dialogue.phase = .paused ↔ s.dialogue.pause = false)))

/-! The phase under each step. -/

/-- The ending a stage is about to put down. -/
def Stage.concludes : Stage → Option Phase
  | .concluding phase => some phase
  | .telling next => next.concludes
  | _ => none

theorem setPhase_pause (d : Dialogue) (phase : Phase) : (d.setPhase phase).1.pause = d.pause := by
  unfold Dialogue.setPhase
  split
  · rfl
  · split <;> rfl

theorem setPhase_stage (d : Dialogue) (phase : Phase) : (d.setPhase phase).1.stage = d.stage := by
  unfold Dialogue.setPhase
  split
  · rfl
  · split <;> rfl

theorem setPhase_over {d : Dialogue} (h : d.phase.isOver = true) (phase : Phase) :
    d.setPhase phase = (d, false) := if_pos h

theorem showPaused_over {d : Dialogue} (h : d.phase.isOver = true) (paused : Bool) :
    d.showPaused paused = (d, false) := if_pos h

theorem run_pause (d : Dialogue) (env : Env) : (d.run env).pause = d.pause := by
  unfold Dialogue.run
  split <;> try rfl
  · split <;> rfl
  · exact setPhase_pause d _
  · split <;> rfl
  · exact setPhase_pause d _

theorem run_over {d : Dialogue} (h : d.phase.isOver = true) (env : Env) :
    (d.run env).phase = d.phase := by
  unfold Dialogue.run
  split <;> try rfl
  · split <;> rfl
  · rw [setPhase_over h]
    rfl
  · split <;> rfl
  · rw [setPhase_over h]
    rfl
  · exact if_pos h

theorem land_phase (d : Dialogue) : d.land.phase = d.phase := by
  unfold Dialogue.land
  split <;> rfl

theorem step_over {s : Talk} (h : s.dialogue.phase.isOver = true) (move : Move) :
    (s.step move).dialogue.phase = s.dialogue.phase := by
  cases move with
  | loop env => exact run_over h env
  | land => exact land_phase s.dialogue
  | setPaused paused => rfl
  | stop =>
    show s.dialogue.cancel.1.phase = _
    rw [Dialogue.cancel, if_pos h]
  | proceed k =>
    show (s.proceed k).dialogue.phase = _
    unfold Talk.proceed
    split
    · rfl
    · next paused _ => exact congrArg (·.1.phase) (showPaused_over h paused)
    · rfl
    · rfl

theorem final (s : Talk) : s.Final := by
  intro h moves
  induction moves generalizing s with
  | nil => rfl
  | cons move moves ih =>
    have hstep := step_over h move
    rw [List.foldl_cons, ih (s.step move) (by rw [hstep]; exact h), hstep]

/-! The signal and the phase. -/

/-- What the dialogue remembers of phases: a pause replaced a thinking phase, and the loop only puts
down endings beside those. -/
structure Dialogue.Phased (d : Dialogue) : Prop where
  before : ∀ p ∈ d.beforePause, p = .localThinking ∨ p = .peerThinking
  concludes : ∀ p ∈ d.stage.concludes, p.isOver = true

/-- The requests on their way all say what the signal says; without any, the phase does. -/
structure Talk.Inv (s : Talk) : Prop where
  phased : s.dialogue.Phased
  signal : ∀ b, .signalled b ∈ s.requests → s.dialogue.pause = !b
  phase : (∀ b, .signalled b ∉ s.requests) → s.dialogue.phase.isOver = false →
    (s.dialogue.phase = .paused ↔ s.dialogue.pause = false)

variable {d d' : Dialogue}

/-- The phase is not over only where it was not, and paused exactly where it was. -/
def Dialogue.SamePause (d d' : Dialogue) : Prop :=
  d'.phase.isOver = false → d.phase.isOver = false ∧ (d'.phase = .paused ↔ d.phase = .paused)

theorem Dialogue.SamePause.of_eq (h : d'.phase = d.phase) : d.SamePause d' := by
  intro ho
  rw [h] at ho
  exact ⟨ho, by rw [h]⟩

theorem setPhase_same {phase : Phase} (h : phase ≠ .paused) : d.SamePause (d.setPhase phase).1 := by
  unfold Dialogue.setPhase
  split
  · exact .of_eq rfl
  · next hover =>
    split
    · exact .of_eq rfl
    · next hpaused =>
      intro ho
      refine ⟨Bool.eq_false_iff.mpr hover, iff_of_false h fun hp => hpaused ⟨hp, ?_⟩⟩
      cases phase <;> simp_all [Phase.isOver]

theorem run_same (h : d.Phased) (env : Env) : d.SamePause (d.run env) := by
  unfold Dialogue.run
  split <;> try exact .of_eq rfl
  · split <;> exact .of_eq rfl
  · next side _ => exact setPhase_same (by cases side <;> simp [Side.thinking])
  · split <;> exact .of_eq rfl
  · next phase hs =>
    have hover : phase.isOver = true := h.concludes phase (by rw [hs]; rfl)
    exact setPhase_same fun hp => by simp [hp, Phase.isOver] at hover
  · intro ho
    change (if d.phase.isOver then d.phase else Phase.cancelled).isOver = false at ho
    split at ho
    · next hover => simp [hover] at ho
    · simp [Phase.isOver] at ho

theorem setPhase_before (h : d.Phased) (phase : Phase) :
    ∀ p ∈ (d.setPhase phase).1.beforePause, p = .localThinking ∨ p = .peerThinking := by
  unfold Dialogue.setPhase
  split
  · exact h.before
  · split
    · next hp =>
      rintro p ⟨rfl⟩
      exact hp.2
    · exact h.before

theorem told_concludes {next : Stage} (h : next.concludes = none) (r : Dialogue × Bool) :
    (Dialogue.told r next).stage.concludes = none := by
  unfold Dialogue.told
  split <;> exact h

theorem run_phased (h : d.Phased) (env : Env) : (d.run env).Phased where
  before := by
    unfold Dialogue.run
    split <;> try exact h.before
    · split <;> exact h.before
    · exact setPhase_before h _
    · split <;> exact h.before
    · exact setPhase_before h _
  concludes := by
    unfold Dialogue.run
    split
    · split <;> simp [Stage.concludes, Phase.isOver]
    · split
      · exact h.concludes
      · split <;> simp [Stage.concludes, Phase.isOver]
    · rw [told_concludes rfl]
      simp
    · split <;> simp [Stage.concludes, Phase.isOver]
    · simp [Stage.concludes]
    · split <;> simp [Stage.concludes, Phase.isOver]
    · rw [told_concludes rfl]
      simp
    · next next hs =>
      intro p hp
      exact h.concludes p (by rw [hs]; exact hp)
    all_goals first | exact h.concludes | simp [Stage.concludes]

theorem showPaused_agrees (h : d.Phased) (paused : Bool) :
    (d.showPaused paused).1.phase.isOver = false →
      ((d.showPaused paused).1.phase = .paused ↔ paused = true) := by
  unfold Dialogue.showPaused
  split
  · next hover =>
    intro ho
    exact absurd (hover.symm.trans ho) (by decide)
  · next hover =>
    intro _
    have hb : d.beforePause.getD .localThinking ≠ .paused := by
      cases hb : d.beforePause with
      | none => simp
      | some p =>
        rcases h.before p hb with rfl | rfl <;> simp
    cases paused <;> cases hp : d.phase <;> simp_all [Phase.isOver]

theorem showPaused_phased (h : d.Phased) (paused : Bool) : (d.showPaused paused).1.Phased := by
  unfold Dialogue.showPaused
  split
  · exact h
  · split
    · next hp =>
      refine ⟨?_, h.concludes⟩
      rintro p ⟨rfl⟩
      exact .inl hp
    · next hp =>
      refine ⟨?_, h.concludes⟩
      rintro p ⟨rfl⟩
      exact .inr hp
    · exact ⟨by simp, h.concludes⟩
    · exact h

theorem showPaused_pause (d : Dialogue) (paused : Bool) :
    (d.showPaused paused).1.pause = d.pause := by
  unfold Dialogue.showPaused
  split
  · rfl
  · split <;> rfl

variable {s : Talk}

/-- The dialogue moved and no pause or resume did. -/
theorem Talk.Inv.dialogue (h : s.Inv) {d : Dialogue} {requests : List Request} (hd : d.Phased)
    (hpause : d.pause = s.dialogue.pause) (hsame : s.dialogue.SamePause d)
    (hr : ∀ b, .signalled b ∈ requests ↔ .signalled b ∈ s.requests) : Talk.Inv ⟨d, requests⟩ where
  phased := hd
  signal b hb := hpause.trans (h.signal b ((hr b).mp hb))
  phase hnone ho := by
    obtain ⟨ho', hiff⟩ := hsame ho
    have hagree := h.phase (fun b hb => hnone b ((hr b).mpr hb)) ho'
    show d.phase = .paused ↔ d.pause = false
    rw [hiff, hagree, hpause]

/-- A request that is no signal goes. -/
theorem signalled_erase {requests : List Request} {k : Nat} {r : Request}
    (hk : requests[k]? = some r) (hr : ∀ b, r ≠ .signalled b) (b : Bool) :
    .signalled b ∈ requests.eraseIdx k ↔ .signalled b ∈ requests := by
  obtain ⟨hlt, rfl⟩ := List.getElem?_eq_some_iff.mp hk
  refine ⟨List.mem_of_mem_eraseIdx, fun hb => ?_⟩
  obtain ⟨i, hi, hget⟩ := List.getElem_of_mem hb
  refine List.mem_eraseIdx_iff_getElem.mpr ⟨i, hi, fun hik => ?_, hget⟩
  subst hik
  exact hr b hget

theorem Talk.Inv.proceed (h : s.Inv) (k : Nat) : (s.proceed k).Inv := by
  unfold Talk.proceed
  split
  · exact h
  · next paused hk =>
    have hpause : s.dialogue.pause = !paused := h.signal paused (List.mem_of_getElem? hk)
    refine ⟨showPaused_phased h.phased paused, fun b hb => ?_, fun _ ho => ?_⟩
    · rw [showPaused_pause]
      rcases List.mem_append.mp hb with hb | hb
      · exact h.signal b (List.mem_of_mem_eraseIdx hb)
      · split at hb <;> simp at hb
    · rw [showPaused_agrees h.phased paused ho, showPaused_pause, hpause]
      simp
  · next hk => exact h.dialogue ⟨h.phased.1, h.phased.2⟩ rfl (.of_eq rfl) (signalled_erase hk (by simp))
  · next hk => exact h.dialogue ⟨h.phased.1, h.phased.2⟩ rfl (.of_eq rfl) (signalled_erase hk (by simp))

theorem Talk.Inv.step (h : s.Inv) (move : Move) (hm : s.Uncrossed move) : (s.step move).Inv := by
  cases move with
  | loop env =>
    exact h.dialogue (run_phased h.phased env) (run_pause _ env) (run_same h.phased env) fun _ => .rfl
  | land =>
    refine h.dialogue ⟨?_, ?_⟩ ?_ (.of_eq (land_phase _)) fun _ => .rfl
    · unfold Dialogue.land
      split <;> exact h.phased.before
    · unfold Dialogue.land
      split
      · simp [Stage.concludes]
      · exact h.phased.concludes
    · unfold Dialogue.land
      split <;> rfl
  | setPaused paused =>
    refine ⟨⟨h.phased.1, h.phased.2⟩, fun b hb => ?_, fun hnone => ?_⟩
    · rcases List.mem_append.mp hb with hb | hb
      · have hne : b ≠ !paused := by
          rintro rfl
          exact hm hb
        show (!paused) = !b
        cases b <;> cases paused <;> simp_all
      · obtain rfl : b = paused := by simpa using hb
        rfl
    · exact absurd (List.mem_append_right _ (List.mem_singleton_self _)) (hnone paused)
  | stop =>
    have hr : ∀ b, Request.signalled b ∈ s.requests ++ (if s.dialogue.cancel.2 then [.aborting] else [])
        ↔ .signalled b ∈ s.requests := by
      intro b
      split <;> simp
    refine h.dialogue ⟨?_, ?_⟩ ?_ ?_ hr
    · unfold Dialogue.cancel
      split <;> exact h.phased.before
    · unfold Dialogue.cancel
      split <;> exact h.phased.concludes
    · unfold Dialogue.cancel
      split <;> rfl
    · unfold Dialogue.cancel
      split
      · exact .of_eq rfl
      · intro ho
        simp [Phase.isOver] at ho
  | proceed k => exact h.proceed k

theorem Talk.Inv.start (id : Nat) (localName : Bytes) (req : StartRequest) (slots : Nat) :
    (talk id localName req slots).start.Inv := by
  refine ⟨⟨by simp [talk, Dialogue.new], by simp [talk, Dialogue.new, Stage.concludes]⟩, by simp [talk], ?_⟩
  simp [talk, Dialogue.new]

theorem Talk.Inv.agrees (h : s.Inv) : s.Agrees := by
  intro hnone ho
  exact h.phase (by simp [hnone]) ho

/-- In runs where no pause and resume cross, phase and signal agree whenever no request is in progress;
in every run, an ending stays. -/
theorem pause_agrees (id : Nat) (localName : Bytes) (req : StartRequest) (slots : Nat) (s : Talk) :
    ((talk id localName req slots).Runs Talk.Uncrossed s → s.Agrees) ∧
    ((talk id localName req slots).Runs (fun _ _ => True) s → s.Final) := by
  refine ⟨fun h => ?_, fun _ => final s⟩
  have hinv : s.Inv := h.invariant (I := Talk.Inv) (.start id localName req slots) fun _ move hi hm => hi.step move hm
  exact hinv.agrees

def pauseSample : Machine Talk Move := talk 0 (ascii "echo") ⟨ascii "nova", none, 6⟩ 8

def pauseEnv : Env := ⟨false, .ok (ascii "hello"), true⟩

theorem pause_agrees_sample : ∃ s : Talk, pauseSample.Runs Talk.Uncrossed s ∧ s.requests = [] ∧
    s.dialogue.phase = .paused ∧ s.dialogue.pause = false ∧ s.Final := by
  have hrun : (pauseSample.follow (fun s move => s.Uncrossed move) pauseSample.start
      [.loop pauseEnv, .setPaused true, .setPaused true, .loop pauseEnv, .proceed 0, .loop pauseEnv,
        .proceed 0, .proceed 0, .setPaused false, .proceed 0, .proceed 0, .setPaused true, .proceed 0,
        .proceed 0]).map (fun s => (s.requests, s.dialogue.phase)) = some ([], .paused) := by decide
  obtain ⟨s, hs, hend⟩ := Option.map_eq_some_iff.mp hrun
  obtain ⟨hnone, hphase⟩ := Prod.mk.inj hend
  have hr : pauseSample.Runs Talk.Uncrossed s := .follow (fun s move hc => of_decide_eq_true hc) .start hs
  obtain ⟨hagree, hfinal⟩ := pause_agrees 0 (ascii "echo") ⟨ascii "nova", none, 6⟩ 8 s
  exact ⟨s, hr, hnone, hphase, (hagree hr hnone (by rw [hphase]; rfl)).mp hphase,
    hfinal (hr.mono fun _ _ _ => trivial)⟩

/-- A resume goes through between the signal of a pause and its phase: the loop goes on, shown paused. -/
theorem crossed_disagrees : ∃ s : Talk, pauseSample.Runs (fun _ _ => True) s ∧ s.requests = [] ∧
    s.dialogue.phase = .paused ∧ s.dialogue.pause = true ∧ ¬ s.Agrees := by
  have hrun : (pauseSample.follow (fun _ _ => true) pauseSample.start
      [.loop pauseEnv, .setPaused true, .setPaused false, .proceed 1, .proceed 0, .proceed 0]).map
      (fun s => (s.requests, s.dialogue.phase, s.dialogue.pause)) = some ([], .paused, true) := by decide
  obtain ⟨s, hs, hend⟩ := Option.map_eq_some_iff.mp hrun
  simp only [Prod.mk.injEq] at hend
  obtain ⟨hnone, hphase, hpause⟩ := hend
  refine ⟨s, .follow (fun _ _ _ => trivial) .start hs, hnone, hphase, hpause, fun h => ?_⟩
  have hp : s.dialogue.pause = false := (h hnone (by rw [hphase]; rfl)).mp hphase
  exact absurd (hpause.symm.trans hp) (by decide)

end PulseNull.Comms
