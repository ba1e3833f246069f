import PulseNull.Machine
import PulseNull.Comms.Dialogue

/-! Dialogues run one at a time, are archived once, and end with what was archived. -/
namespace PulseNull.Comms

/-- Nothing changes any more but what is sent: the ending has been recorded. -/
def Stage.recorded : Stage → Bool
  | .noting | .ending _ | .gone => true
  | _ => false

/-- The archive has been dealt with. -/
def Stage.filed : Stage → Bool
  | .recording _ | .noting | .ending _ | .gone => true
  | _ => false

def Stage.isCalling : Stage → Bool
  | .calling _ => true
  | _ => false

def CommsEvent.turn? : CommsEvent → Option Turn
  | .turn t => some t
  | _ => none

def CommsEvent.archived? : CommsEvent → Option Bool
  | .done archived | .error _ archived => some archived
  | _ => none

def turnsOf (events : List CommsEvent) : List Turn := events.filterMap CommsEvent.turn?

/-- The conversation files of a dialogue. -/
def Sys.filesOf (s : Sys) (id : Nat) : List (List (Bytes × Bytes)) :=
  s.archives.filterMap fun file => if file.1 = id then some file.2 else none

/-- What a dialogue is to leave: its turns, once it has got to the archive. -/
def Dialogue.files (d : Dialogue) : List (List (Bytes × Bytes)) :=
  if d.stage.filed = true ∧ d.turns ≠ [] then [d.messages] else []

/-- A watcher has had the first turns, in order; at its end it has had all turns of a dialogue that is
at its end, and one ending, the last it has seen, with the final value. -/
structure Watcher.Sound (d : Dialogue) (w : Watcher) : Prop where
  turns : ∃ k, turnsOf w.seen = d.turns.take k
  live : w.stage ≠ .ended → ∀ e ∈ w.seen, e.archived? = none
  ended : w.stage = .ended → d.stage.recorded = true ∧ turnsOf w.seen = d.turns ∧
    ∃ before e, w.seen = before ++ [e] ∧ e.archived? = some d.archived ∧
      ∀ e ∈ before, e.archived? = none

/-- One dialogue at most is in a call; each has left its files and says so; the shutdown returns when
all have; and watchers are told the truth. -/
structure Sys.Sound (s : Sys) : Prop where
  single : s.dialogues.countP (·.stage.isCalling) ≤ 1
  files : ∀ d ∈ s.dialogues, s.filesOf d.id = d.files
  flags : ∀ d ∈ s.dialogues, d.stage.recorded = true → d.archived = decide (d.files ≠ [])
  shutdown : s.shutdown = .returned → ∀ d ∈ s.dialogues, d.stage.filed = true
  watchers : ∀ w ∈ s.watchers, ∃ d, s.dialogues[w.dialogue]? = some d ∧ w.Sound d

/-- An ending has been recorded when the phase says over. -/
def Dialogue.Settled (d : Dialogue) : Prop := d.phase.isOver = true → d.stage.recorded = true

instance (d : Dialogue) : Decidable d.Settled :=
  inferInstanceAs (Decidable (d.phase.isOver = true → d.stage.recorded = true))

/-- A watcher that has fallen behind subscribes again. -/
def Watcher.MeetsRun (w : Watcher) (d : Dialogue) : Prop :=
  match w.stage with
  | .live pos => pos + d.tx.slots < d.tx.sent.length → d.Settled
  | _ => True

def Sys.MeetsShutdown (s : Sys) : Prop :=
  match s.shutdown with
  | .found id => ∀ d ∈ s.dialogues[id]?, d.Settled
  | _ => True

def Sys.MeetsTimeout (s : Sys) : Prop :=
  match s.shutdown with
  | .waiting id _ => ∀ d ∈ s.dialogues[id]?, d.stage.recorded = true
  | _ => True

/-- Nobody looks at a dialogue while it says over and its ending is not recorded: not a start that
goes ahead, a watcher that subscribes, nor the shutdown. A start does not go ahead once the daemon is
closed, the turns there are get archived, and the shutdown does not give up before. -/
def Sys.Meets (s : Sys) : Act → Prop
  | .admits _ => (s.running.any fun d => !d.phase.isOver) = false →
    s.closed = false ∧ ∀ d ∈ s.running, d.Settled
  | .run id env => ∀ d ∈ s.dialogues[id]?, d.stage = .archiving → d.turns ≠ [] →
    env.isolated = false ∧ env.written = true
  | .watch id => ∀ d ∈ s.dialogues[id]?, d.Settled
  | .watcher k => ∀ w ∈ s.watchers[k]?, ∀ d ∈ s.dialogues[w.dialogue]?, w.MeetsRun d
  | .shutdown => s.MeetsShutdown
  | .timeout => s.MeetsTimeout
  | _ => True

instance (d : Dialogue) : (w : Watcher) → Decidable (w.MeetsRun d)
  | ⟨_, .live pos, _, _⟩ =>
    inferInstanceAs (Decidable (pos + d.tx.slots < d.tx.sent.length → d.Settled))
  | ⟨_, .subscribed _ _ _, _, _⟩ | ⟨_, .ended, _, _⟩ => isTrue trivial

instance : (s : Sys) → Decidable s.MeetsShutdown
  | ⟨_, _, dialogues, _, _, _, .found id, _⟩ =>
    inferInstanceAs (Decidable (∀ d ∈ dialogues[id]?, d.Settled))
  | ⟨_, _, _, _, _, _, .idle, _⟩ | ⟨_, _, _, _, _, _, .closing, _⟩
  | ⟨_, _, _, _, _, _, .stopping _ _, _⟩ | ⟨_, _, _, _, _, _, .waiting _ _, _⟩
  | ⟨_, _, _, _, _, _, .returned, _⟩ => isTrue trivial

instance : (s : Sys) → Decidable s.MeetsTimeout
  | ⟨_, _, dialogues, _, _, _, .waiting id _, _⟩ =>
    inferInstanceAs (Decidable (∀ d ∈ dialogues[id]?, d.stage.recorded = true))
  | ⟨_, _, _, _, _, _, .idle, _⟩ | ⟨_, _, _, _, _, _, .closing, _⟩
  | ⟨_, _, _, _, _, _, .stopping _ _, _⟩ | ⟨_, _, _, _, _, _, .found _, _⟩
  | ⟨_, _, _, _, _, _, .returned, _⟩ => isTrue trivial

instance (s : Sys) : (act : Act) → Decidable (s.Meets act)
  | .admits _ => inferInstanceAs (Decidable ((s.running.any fun d => !d.phase.isOver) = false →
      s.closed = false ∧ ∀ d ∈ s.running, d.Settled))
  | .run id env => inferInstanceAs (Decidable (∀ d ∈ s.dialogues[id]?, d.stage = .archiving →
      d.turns ≠ [] → env.isolated = false ∧ env.written = true))
  | .watch id => inferInstanceAs (Decidable (∀ d ∈ s.dialogues[id]?, d.Settled))
  | .watcher k => inferInstanceAs (Decidable (∀ w ∈ s.watchers[k]?,
      ∀ d ∈ s.dialogues[w.dialogue]?, w.MeetsRun d))
  | .shutdown => inferInstanceAs (Decidable s.MeetsShutdown)
  | .timeout => inferInstanceAs (Decidable s.MeetsTimeout)
  | .request .. | .land _ | .setPaused .. | .notice _ | .stop _ => isTrue trivial

def daemon (localName : Bytes) (slots : Nat) : Machine Sys Act := ⟨.start, .step localName slots⟩

/-! Events. -/

@[simp] theorem turnsOf_append (a b : List CommsEvent) : turnsOf (a ++ b) = turnsOf a ++ turnsOf b :=
  List.filterMap_append

@[simp] theorem turnsOf_map_turn (ts : List Turn) : turnsOf (ts.map .turn) = ts := by
  unfold turnsOf
  rw [List.filterMap_map]
  exact List.filterMap_some

theorem turnsOf_none {events : List CommsEvent} (h : ∀ e ∈ events, e.turn? = none) :
    turnsOf events = [] := List.filterMap_eq_nil_iff.mpr h

theorem isEnding_iff (e : CommsEvent) : e.isEnding = true ↔ ∃ archived, e.archived? = some archived := by
  cases e <;> simp [CommsEvent.isEnding, CommsEvent.archived?]

/-! A dialogue. -/

/-- A turn that is not announced yet. -/
def Stage.unsent : Stage → List Turn
  | .pushed _ turn => [turn]
  | _ => []

/-- From here the guard has marked the end. -/
def Stage.guarded : Stage → Bool
  | .archiving | .recording _ | .noting | .ending _ | .gone => true
  | _ => false

/-- The turns are announced, and nothing has been archived. -/
def Stage.plain : Stage → Bool
  | .begin | .between _ | .thinking _ | .calling _ | .answered _ _ | .concluding _ | .telling _
  | .leaving | .archiving => true
  | .pushed _ _ | .recording _ | .noting | .ending _ | .gone => false

/-- What follows a status is a call or the guard. -/
def Stage.Next : Stage → Prop
  | .telling next => next = .leaving ∨ ∃ side, next = .calling side
  | _ => True

/-- The turns are numbered and sent in order, and the ending last; the phase is over before the
archive; and the flag says what was archived. -/
structure Dialogue.Ok (d : Dialogue) : Prop where
  numbered : ∀ i t, d.turns[i]? = some t → t.n = i + 1
  sent : turnsOf d.tx.sent ++ d.stage.unsent = d.turns
  noEnding : d.stage ≠ .gone → ∀ e ∈ d.tx.sent, e.archived? = none
  ending : d.stage = .gone → ∃ before e after, d.tx.sent = before ++ e :: after ∧
    e.archived? = some d.archived ∧ (∀ e ∈ before, e.archived? = none) ∧
    ∀ e ∈ after, e.turn? = none ∧ e.archived? = none
  guarded : d.stage.guarded = true → d.phase.isOver = true
  next : d.stage.Next
  recording : ∀ archived, d.stage = .recording archived → archived = decide (d.files ≠ [])
  recorded : d.stage.recorded = true → d.archived = decide (d.files ≠ [])

/-- What a later state of a dialogue keeps. -/
structure Dialogue.Grows (d d' : Dialogue) : Prop where
  turns : d.turns <+: d'.turns
  sent : d.tx.sent <+: d'.tx.sent
  recorded : d.stage.recorded = true →
    d'.stage.recorded = true ∧ d'.turns = d.turns ∧ d'.archived = d.archived

/-- A step that leaves no file. -/
structure Dialogue.Keeps (d d' : Dialogue) : Prop where
  ok : d'.Ok
  grows : d.Grows d'
  files : d'.files = d.files
  id : d'.id = d.id

section
variable {d d' : Dialogue}

theorem Dialogue.Grows.refl : d.Grows d :=
  ⟨List.prefix_rfl, List.prefix_rfl, fun h => ⟨h, rfl, rfl⟩⟩

theorem Dialogue.Ok.new (id : Nat) (localName : Bytes) (req : StartRequest) (slots : Nat) :
    (Dialogue.new id localName req slots).Ok where
  numbered _ _ h := nomatch h
  sent := rfl
  noEnding _ _ h := nomatch h
  ending h := nomatch h
  guarded h := nomatch h
  next := trivial
  recording _ h := nomatch h
  recorded h := nomatch h

theorem Dialogue.Ok.keeps (h : d.Ok) : d.Keeps d := ⟨h, .refl, rfl, rfl⟩

theorem Dialogue.Keeps.trans {d'' : Dialogue} (h : d.Keeps d') (h' : d'.Keeps d'') : d.Keeps d'' where
  ok := h'.ok
  grows := by
    refine ⟨h.grows.turns.trans h'.grows.turns, h.grows.sent.trans h'.grows.sent, fun hr => ?_⟩
    obtain ⟨hr', ht, ha⟩ := h.grows.recorded hr
    obtain ⟨hr'', ht', ha'⟩ := h'.grows.recorded hr'
    exact ⟨hr'', ht'.trans ht, ha'.trans ha⟩
  files := h'.files.trans h.files
  id := h'.id.trans h.id

/-- A status goes out. -/
theorem Dialogue.Ok.send (h : d.Ok) {e : CommsEvent} (ht : e.turn? = none)
    (ha : e.archived? = none) : d.Keeps (d.send e) := by
  refine ⟨⟨h.numbered, ?_, fun hs e' he' => ?_, fun hs => ?_, h.guarded, h.next, h.recording,
    h.recorded⟩, ⟨List.prefix_rfl, List.prefix_append _ _, fun h => ⟨h, rfl, rfl⟩⟩, rfl, rfl⟩
  · have hsent := h.sent
    simpa [Dialogue.send, Broadcast.send, turnsOf_none, ht] using hsent
  · rcases List.mem_append.mp he' with he' | he'
    · exact h.noEnding hs e' he'
    · exact List.mem_singleton.mp he' ▸ ha
  · obtain ⟨before, e', after, hsent, ha', hbefore, hafter⟩ := h.ending hs
    refine ⟨before, e', after ++ [e], by simp [Dialogue.send, Broadcast.send, hsent], ha', hbefore, ?_⟩
    intro e'' he''
    rcases List.mem_append.mp he'' with he'' | he''
    · exact hafter e'' he''
    · exact List.mem_singleton.mp he'' ▸ ⟨ht, ha⟩

/-- The phase changes, and stays over once it is. -/
theorem Dialogue.Ok.phase (h : d.Ok) (hid : d'.turns = d.turns ∧ d'.tx = d.tx ∧
    d'.archived = d.archived ∧ d'.stage = d.stage ∧ d'.id = d.id)
    (ho : d.phase.isOver = true → d'.phase.isOver = true) : d.Keeps d' := by
  obtain ⟨ht, hx, ha, hs, hid⟩ := hid
  have hfiles : d'.files = d.files := by simp only [Dialogue.files, Dialogue.messages, ht, hs]
  refine ⟨⟨?_, ?_, ?_, ?_, ?_, ?_, ?_, ?_⟩, ⟨?_, ?_, ?_⟩, hfiles, hid⟩
  · rw [ht]; exact h.numbered
  · rw [ht, hx, hs]; exact h.sent
  · rw [hx, hs]; exact h.noEnding
  · rw [hx, hs, ha]; exact h.ending
  · rw [hs]; exact fun hg => ho (h.guarded hg)
  · rw [hs]; exact h.next
  · rw [hs, hfiles]; exact h.recording
  · rw [hs, ha, hfiles]; exact h.recorded
  · rw [ht]
  · rw [hx]
  · rw [hs]; exact fun hr => ⟨hr, ht, ha⟩

theorem Stage.plain_facts {stage : Stage} (h : stage.plain = true) : stage.unsent = [] ∧
    stage.filed = false ∧ stage.recorded = false ∧ stage ≠ .gone := by
  cases stage with
  | pushed | recording | noting | ending | gone => exact nomatch h
  | _ => exact ⟨rfl, rfl, rfl, Stage.noConfusion⟩

theorem Dialogue.files_nil (h : d.stage.filed = false) : d.files = [] := by
  simp [Dialogue.files, h]

/-- The task moves on, with nothing to show. -/
theorem Dialogue.Ok.moved (h : d.Ok) (hid : d'.turns = d.turns ∧ d'.tx = d.tx ∧
    d'.archived = d.archived ∧ d'.id = d.id) (hfrom : d.stage.plain = true)
    (hto : d'.stage.plain = true) (hnext : d'.stage.Next)
    (hg : d'.stage.guarded = true → d'.phase.isOver = true) : d.Keeps d' := by
  obtain ⟨ht, hx, ha, hid⟩ := hid
  obtain ⟨hunsent, hfiled, hrec, hgone⟩ := Stage.plain_facts hfrom
  obtain ⟨hunsent', hfiled', hrec', hgone'⟩ := Stage.plain_facts hto
  refine ⟨⟨?_, ?_, ?_, fun he => absurd he hgone', hg, hnext, ?_, ?_⟩, ⟨?_, ?_, ?_⟩, ?_, hid⟩
  · rw [ht]; exact h.numbered
  · rw [ht, hx, hunsent', ← hunsent]; exact h.sent
  · rw [hx]; exact fun _ => h.noEnding hgone
  · intro archived he
    rw [he] at hfiled'
    exact nomatch hfiled'
  · exact fun hr => nomatch hrec'.symm.trans hr
  · rw [ht]
  · rw [hx]
  · exact fun hr => nomatch hrec.symm.trans hr
  · rw [Dialogue.files_nil hfiled, Dialogue.files_nil hfiled']

theorem setPhase_frame (d : Dialogue) (phase : Phase) :
    (d.setPhase phase).1.turns = d.turns ∧ (d.setPhase phase).1.tx = d.tx ∧
      (d.setPhase phase).1.archived = d.archived ∧ (d.setPhase phase).1.id = d.id := by
  unfold Dialogue.setPhase
  split
  · exact ⟨rfl, rfl, rfl, rfl⟩
  · split <;> exact ⟨rfl, rfl, rfl, rfl⟩

/-- The task sets the phase, and goes on to a call or the guard. -/
theorem Dialogue.Ok.told (h : d.Ok) (phase : Phase) {next : Stage} (hfrom : d.stage.plain = true)
    (hnext : next = .leaving ∨ ∃ side, next = .calling side) :
    d.Keeps (Dialogue.told (d.setPhase phase) next) := by
  have hstage : ∀ sent : Bool, (if sent then Stage.telling next else next).plain = true ∧
      (if sent then Stage.telling next else next).Next ∧
      (if sent then Stage.telling next else next).guarded = false := by
    intro sent
    cases sent with
    | true => exact ⟨rfl, hnext, rfl⟩
    | false => rcases hnext with rfl | ⟨side, rfl⟩ <;> exact ⟨rfl, trivial, rfl⟩
  obtain ⟨hplain, hnext', hg⟩ := hstage (d.setPhase phase).2
  exact h.moved (setPhase_frame d phase) hfrom hplain hnext' fun hg' => nomatch hg.symm.trans hg'

theorem Dialogue.Ok.setPaused (h : d.Ok) (paused : Bool) : d.Keeps (d.setPaused paused).1 := by
  unfold Dialogue.setPaused
  dsimp only
  split
  · exact h.phase ⟨rfl, rfl, rfl, rfl, rfl⟩ fun h => h
  · next ho =>
    split
    · exact h.phase ⟨rfl, rfl, rfl, rfl, rfl⟩ fun h => absurd h ho
    · split
      · exact h.phase ⟨rfl, rfl, rfl, rfl, rfl⟩ fun h => absurd h ho
      · exact h.phase ⟨rfl, rfl, rfl, rfl, rfl⟩ fun h => h

theorem Dialogue.Ok.stop (h : d.Ok) : d.Keeps d.stop := by
  unfold Dialogue.stop
  split
  · exact h.keeps
  · exact h.phase ⟨rfl, rfl, rfl, rfl, rfl⟩ fun _ => rfl

theorem Dialogue.Ok.land (h : d.Ok) : d.Keeps d.land := by
  unfold Dialogue.land
  split
  · next hw =>
    refine h.moved ⟨rfl, rfl, rfl, rfl⟩ ?_ rfl trivial (nomatch ·)
    cases hs : d.stage with
    | begin | between | calling => rfl
    | _ => exact nomatch hs ▸ hw.2
  · exact h.keeps

/-- A turn is pushed. -/
theorem Dialogue.Ok.answered (h : d.Ok) {side : Side} {text : Bytes}
    (hs : d.stage = .answered side text) (env : Env) : d.Keeps (d.run env) := by
  have hsent : turnsOf d.tx.sent ++ [] = d.turns := by
    have := h.sent
    rwa [hs] at this
  have hfiles : d.files = [] := Dialogue.files_nil (by rw [hs]; rfl)
  unfold Dialogue.run
  rw [hs]
  refine ⟨⟨fun i t ht => ?_, ?_, fun _ => h.noEnding (by simp [hs]), (nomatch ·), (nomatch ·), trivial,
    (fun _ h => nomatch h), (nomatch ·)⟩, ⟨List.prefix_append _ _, List.prefix_rfl, fun hr => ?_⟩,
    hfiles.symm, rfl⟩
  · rcases Nat.lt_or_ge i d.turns.length with hi | hi
    · rw [List.getElem?_append_left hi] at ht
      exact h.numbered i t ht
    · rw [List.getElem?_append_right hi, List.getElem?_singleton] at ht
      split at ht
      · obtain rfl := Option.some.inj ht
        dsimp only
        omega
      · exact nomatch ht
  · change turnsOf d.tx.sent ++ [_] = d.turns ++ [_]
    rw [← hsent, List.append_nil]
  · rw [hs] at hr
    exact nomatch hr

/-- The turn is announced. -/
theorem Dialogue.Ok.pushed (h : d.Ok) {side : Side} {turn : Turn} (hs : d.stage = .pushed side turn)
    {stage : Stage} (hplain : stage.plain = true) (hnext : stage.Next)
    (hguarded : stage.guarded = false) : d.Keeps { d.send (.turn turn) with stage := stage } := by
  have hsent : turnsOf d.tx.sent ++ [turn] = d.turns := by
    have := h.sent
    rwa [hs] at this
  have hfiles : d.files = [] := Dialogue.files_nil (by rw [hs]; rfl)
  obtain ⟨hunsent, hfiled, hrec, hgone⟩ := Stage.plain_facts hplain
  refine ⟨⟨h.numbered, ?_, fun _ e he => ?_, fun he => absurd he hgone, fun he => ?_, hnext,
    fun archived he => ?_, fun he => ?_⟩, ⟨List.prefix_rfl, List.prefix_append _ _, fun hr => ?_⟩,
    (Dialogue.files_nil hfiled).trans hfiles.symm, rfl⟩
  · change turnsOf (d.tx.sent ++ [_]) ++ stage.unsent = d.turns
    rw [hunsent, List.append_nil, turnsOf_append]
    exact hsent
  · rcases List.mem_append.mp he with he | he
    · exact h.noEnding (by simp [hs]) e he
    · exact List.mem_singleton.mp he ▸ rfl
  · exact nomatch hguarded.symm.trans he
  · obtain rfl : stage = .recording archived := he
    exact nomatch hfiled
  · exact nomatch hrec.symm.trans he
  · rw [hs] at hr
    exact nomatch hr

/-- The ending is sent. -/
theorem Dialogue.Ok.ended (h : d.Ok) {error : Option Bytes} (hs : d.stage = .ending error)
    {e : CommsEvent} (ht : e.turn? = none) (ha : e.archived? = some d.archived) :
    d.Keeps { d.send e with stage := .gone } := by
  have hsent : turnsOf d.tx.sent ++ [] = d.turns := by
    have := h.sent
    rwa [hs] at this
  have hfiles : { d.send e with stage := .gone }.files = d.files := by
    simp only [Dialogue.files, hs]
    rfl
  have hnone : turnsOf [e] = [] := turnsOf_none (by simpa using ht)
  refine ⟨⟨h.numbered, ?_, (fun hn => absurd rfl hn), fun _ =>
    ⟨d.tx.sent, e, [], rfl, ha, h.noEnding (by simp [hs]), by simp⟩,
    fun _ => h.guarded (by rw [hs]; rfl), trivial, (fun _ h => nomatch h), fun _ => ?_⟩,
    ⟨List.prefix_rfl, List.prefix_append _ _, fun _ => ⟨rfl, rfl, rfl⟩⟩, hfiles, rfl⟩
  · change turnsOf (d.tx.sent ++ [e]) ++ [] = d.turns
    rw [turnsOf_append, hnone]
    simpa using hsent
  · rw [hfiles]
    exact h.recorded (by rw [hs]; rfl)

/-- A step of the task, other than to archive. -/
theorem Dialogue.Ok.run (h : d.Ok) (env : Env) (hne : d.stage ≠ .archiving) :
    d.Keeps (d.run env) := by
  cases hs : d.stage with
  | begin =>
    unfold Dialogue.run
    rw [hs]
    cases env.isolated <;>
      exact h.moved ⟨rfl, rfl, rfl, rfl⟩ (by rw [hs]; rfl) rfl trivial (nomatch ·)
  | between side =>
    unfold Dialogue.run
    rw [hs]
    dsimp only
    split
    · exact h.keeps
    · cases env.isolated <;>
        exact h.moved ⟨rfl, rfl, rfl, rfl⟩ (by rw [hs]; rfl) rfl trivial (nomatch ·)
  | thinking side =>
    unfold Dialogue.run
    rw [hs]
    exact h.told _ (by rw [hs]; rfl) (.inr ⟨side, rfl⟩)
  | calling side =>
    unfold Dialogue.run
    rw [hs]
    dsimp only
    split <;> exact h.moved ⟨rfl, rfl, rfl, rfl⟩ (by rw [hs]; rfl) rfl trivial (nomatch ·)
  | answered side text => exact h.answered hs env
  | pushed side turn =>
    unfold Dialogue.run
    rw [hs]
    dsimp only
    split
    · exact h.pushed hs rfl trivial rfl
    · exact h.pushed hs rfl trivial rfl
  | concluding phase =>
    unfold Dialogue.run
    rw [hs]
    exact h.told _ (by rw [hs]; rfl) (.inl rfl)
  | telling next =>
    have hnext : next = .leaving ∨ ∃ side, next = .calling side := by
      have := h.next
      rwa [hs] at this
    unfold Dialogue.run
    rw [hs]
    have hsend : d.Keeps (d.send (.status d.status)) := h.send rfl rfl
    have hfrom : (d.send (.status d.status)).stage.plain = true := by
      change d.stage.plain = true
      rw [hs]
      rfl
    refine hsend.trans ?_
    rcases hnext with rfl | ⟨side, rfl⟩ <;>
      exact hsend.ok.moved ⟨rfl, rfl, rfl, rfl⟩ hfrom rfl trivial (nomatch ·)
  | leaving =>
    unfold Dialogue.run
    rw [hs]
    refine h.moved ⟨rfl, rfl, rfl, rfl⟩ (by rw [hs]; rfl) rfl trivial fun _ => ?_
    dsimp only
    split
    · next ho => exact ho
    · rfl
  | archiving => exact absurd hs hne
  | recording archived =>
    have hsent : turnsOf d.tx.sent ++ [] = d.turns := by
      have := h.sent
      rwa [hs] at this
    have hrec := h.recording archived hs
    have hfiles : { d with archived := archived, stage := .noting }.files = d.files := by
      simp only [Dialogue.files, hs]
      rfl
    unfold Dialogue.run
    rw [hs]
    refine ⟨⟨h.numbered, hsent, fun _ => h.noEnding (by simp [hs]), (nomatch ·),
      fun _ => h.guarded (by rw [hs]; rfl), trivial, (fun _ h => nomatch h), fun _ => ?_⟩,
      ⟨List.prefix_rfl, List.prefix_rfl, fun hr => ?_⟩, hfiles, rfl⟩
    · rw [hfiles]
      exact hrec
    · rw [hs] at hr
      exact nomatch hr
  | noting =>
    have hsend : d.Keeps (d.send (.status d.status)) := h.send rfl rfl
    have hsent : turnsOf (d.tx.sent ++ [.status d.status]) ++ [] = d.turns := by
      have := hsend.ok.sent
      simpa [Dialogue.send, Broadcast.send, hs, Stage.unsent] using this
    have hfiles : { d.send (.status d.status) with stage := .ending d.status.error }.files =
        d.files := by
      simp only [Dialogue.files, hs]
      rfl
    unfold Dialogue.run
    rw [hs]
    refine ⟨⟨h.numbered, hsent, fun _ => hsend.ok.noEnding (by simp [Dialogue.send, hs]),
      (nomatch ·), fun _ => h.guarded (by rw [hs]; rfl), trivial, (fun _ h => nomatch h),
      fun _ => ?_⟩, ⟨List.prefix_rfl, List.prefix_append _ _, fun _ => ⟨rfl, rfl, rfl⟩⟩, hfiles, rfl⟩
    rw [hfiles]
    exact h.recorded (by rw [hs]; rfl)
  | ending error =>
    unfold Dialogue.run
    rw [hs]
    cases error with
    | none => exact h.ended hs rfl rfl
    | some message => exact h.ended hs rfl rfl
  | gone =>
    unfold Dialogue.run
    rw [hs]
    exact h.keeps

/-- The turns there are get archived. -/
theorem Dialogue.Ok.archiving (h : d.Ok) (hs : d.stage = .archiving) {env : Env}
    (hm : d.turns ≠ [] → env.isolated = false ∧ env.written = true) :
    (d.run env).Ok ∧ d.Grows (d.run env) ∧ d.files = [] ∧
      (d.run env).files = (d.written env).map (·.2) := by
  have hsent : turnsOf d.tx.sent ++ [] = d.turns := by
    have := h.sent
    rwa [hs] at this
  have harchive : d.archive env = decide (d.turns ≠ []) := by
    by_cases ht : d.turns = []
    · simp [Dialogue.archive, ht]
    · obtain ⟨hisolated, hwritten⟩ := hm ht
      simp [Dialogue.archive, ht, hisolated, hwritten]
  have hfiles : (d.run env).files = (d.written env).map (·.2) := by
    unfold Dialogue.run
    rw [hs]
    by_cases ht : d.turns = [] <;>
      simp [Dialogue.files, Dialogue.written, hs, harchive, ht, Stage.filed, Dialogue.messages]
  refine ⟨?_, ?_, Dialogue.files_nil (by rw [hs]; rfl), hfiles⟩
  · unfold Dialogue.run
    rw [hs]
    refine ⟨h.numbered, hsent, fun _ => h.noEnding (by simp [hs]), (nomatch ·),
      fun _ => h.guarded (by rw [hs]; rfl), trivial, ?_, (nomatch ·)⟩
    rintro archived ⟨⟩
    rw [harchive]
    by_cases ht : d.turns = [] <;> simp [Dialogue.files, ht, Stage.filed]
  · unfold Dialogue.run
    rw [hs]
    refine ⟨List.prefix_rfl, List.prefix_rfl, fun hr => ?_⟩
    rw [hs] at hr
    exact nomatch hr

/-! A watcher. -/

/-- The place of a watcher: its snapshot is a part of the turns, and what it is still to receive has
all turns it has not seen. -/
def Watching.Ok (d : Dialogue) (lastN : Nat) (seen : List CommsEvent) : Watching → Prop
  | .subscribed turns isOver pos => turns <+: d.turns ∧ lastN ≤ turns.length ∧
    pos ≤ d.tx.sent.length ∧ (turnsOf (d.tx.sent.take pos)).length ≤ turns.length ∧
    (isOver = true → d.stage.recorded = true ∧ turns = d.turns)
  | .live pos => pos ≤ d.tx.sent.length ∧ (turnsOf (d.tx.sent.take pos)).length ≤ lastN
  | .ended => d.stage.recorded = true ∧ lastN = d.turns.length ∧
    ∃ before e, seen = before ++ [e] ∧ e.archived? = some d.archived ∧
      ∀ e ∈ before, e.archived? = none

structure Watcher.Ok (d : Dialogue) (w : Watcher) : Prop where
  bound : w.lastN ≤ d.turns.length
  turns : turnsOf w.seen = d.turns.take w.lastN
  live : w.stage ≠ .ended → ∀ e ∈ w.seen, e.archived? = none
  place : w.stage.Ok d w.lastN w.seen

theorem Watcher.Ok.sound {w : Watcher} (h : w.Ok d) : w.Sound d where
  turns := ⟨w.lastN, h.turns⟩
  live := h.live
  ended hs := by
    have hp := h.place
    rw [hs] at hp
    obtain ⟨hr, hn, hseen⟩ := hp
    refine ⟨hr, ?_, hseen⟩
    rw [h.turns, hn, List.take_length]

private theorem take_of_isPrefix {α : Type} {a b : List α} (h : a <+: b) {n : Nat} (hn : n ≤ a.length) :
    b.take n = a.take n := by
  obtain ⟨c, rfl⟩ := h
  exact List.take_append_of_le_length hn

/-- A watcher stays what it is while the dialogue goes on. -/
theorem Watcher.Ok.grows {w : Watcher} (h : w.Ok d) (hg : d.Grows d') : w.Ok d' := by
  refine ⟨h.bound.trans hg.turns.length_le, ?_, h.live, ?_⟩
  · rw [h.turns, take_of_isPrefix hg.turns h.bound]
  · have hp := h.place
    cases hs : w.stage with
    | subscribed turns isOver pos =>
      rw [hs] at hp
      obtain ⟨hturns, hn, hpos, hsent, hover⟩ := hp
      refine ⟨hturns.trans hg.turns, hn, hpos.trans hg.sent.length_le, ?_, fun ho => ?_⟩
      · rwa [take_of_isPrefix hg.sent hpos]
      · obtain ⟨hr, rfl⟩ := hover ho
        obtain ⟨hr', ht, -⟩ := hg.recorded hr
        exact ⟨hr', ht.symm⟩
    | live pos =>
      rw [hs] at hp
      refine ⟨hp.1.trans hg.sent.length_le, ?_⟩
      rw [take_of_isPrefix hg.sent hp.1]
      exact hp.2
    | ended =>
      rw [hs] at hp
      obtain ⟨hr, hn, hseen⟩ := hp
      obtain ⟨hr', ht, ha⟩ := hg.recorded hr
      exact ⟨hr', by rw [ht]; exact hn, by rw [ha]; exact hseen⟩

theorem Dialogue.Ok.sentTurns (h : d.Ok) : turnsOf d.tx.sent <+: d.turns := ⟨_, h.sent⟩

/-- A dialogue is subscribed to while it does not say over, or its ending is recorded. -/
theorem Watching.Ok.subscribe (h : d.Ok) (hm : d.Settled) {lastN : Nat} (hn : lastN ≤ d.turns.length)
    (seen : List CommsEvent) : d.subscribe.Ok d lastN seen := by
  refine ⟨List.prefix_rfl, hn, le_rfl, ?_, fun ho => ⟨hm ho, rfl⟩⟩
  change (turnsOf (d.tx.sent.take d.tx.sent.length)).length ≤ d.turns.length
  rw [List.take_length]
  exact h.sentTurns.length_le

/-- The turns after the last one seen are those with a greater number. -/
theorem filter_numbered {turns : List Turn} (h : ∀ i t, turns[i]? = some t → t.n = i + 1) (n : Nat) :
    turns.filter (n < ·.n) = turns.drop n := by
  induction turns using List.reverseRecOn with
  | nil => simp
  | append_singleton turns t ih =>
    have ht : t.n = turns.length + 1 := h turns.length t (by simp)
    have ih := ih fun i t' hi => h i t' (by
      rw [List.getElem?_append_left (List.getElem?_eq_some_iff.mp hi).1]
      exact hi)
    rw [List.filter_append, ih]
    rcases Nat.lt_or_ge n t.n with hn | hn
    · rw [List.drop_append_of_le_length (by omega)]
      simp [hn]
    · rw [List.drop_eq_nil_of_le (by omega), List.drop_eq_nil_of_le (by simp; omega)]
      simp; omega

private theorem numbered_isPrefix {turns : List Turn} (h : d.Ok) (hp : turns <+: d.turns) (i : Nat)
    (t : Turn) (ht : turns[i]? = some t) : t.n = i + 1 := by
  obtain ⟨rest, hrest⟩ := hp
  refine h.numbered i t ?_
  rw [← hrest, List.getElem?_append_left (List.getElem?_eq_some_iff.mp ht).1]
  exact ht

/-- After a snapshot of numbered turns the last number is its length. -/
theorem lastN_numbered {turns : List Turn} (h : ∀ i t, turns[i]? = some t → t.n = i + 1) {n : Nat}
    (hn : n ≤ turns.length) :
    (((turns.drop n).getLast?.map (·.n)).getD n) = turns.length := by
  rw [List.getLast?_drop]
  split
  · next hle => exact Nat.le_antisymm hn hle
  · next hlt =>
    cases hlast : turns.getLast? with
    | none =>
      rw [List.getLast?_eq_none_iff.mp hlast] at hlt
      simp at hlt
    | some t =>
      rw [List.getLast?_eq_getElem?] at hlast
      have := h _ t hlast
      simp only [Option.map_some, Option.getD_some]
      omega

theorem ending_archived (d : Dialogue) : (ending d.status).archived? = some d.archived := by
  unfold ending
  cases d.status.error <;> rfl

theorem ending_turn (status : CommsStatus) : (ending status).turn? = none := by
  unfold ending
  cases status.error <;> rfl

/-- The snapshot is replayed. -/
theorem Watcher.Ok.replay {w : Watcher} (hd : d.Ok) (h : w.Ok d) {turns : List Turn} {isOver : Bool}
    {pos : Nat} (hs : w.stage = .subscribed turns isOver pos) :
    (w.replay turns isOver pos d.status).Ok d := by
  have hp := h.place
  rw [hs] at hp
  obtain ⟨hturns, hn, hpos, hsent, hover⟩ := hp
  have hmissed : turns.filter (w.lastN < ·.n) = turns.drop w.lastN :=
    filter_numbered (numbered_isPrefix hd hturns) w.lastN
  have hlast : (w.replay turns isOver pos d.status).lastN = turns.length := by
    simp only [Watcher.replay, hmissed]
    exact lastN_numbered (numbered_isPrefix hd hturns) hn
  have hlive : ∀ e ∈ w.seen ++ (turns.drop w.lastN).map CommsEvent.turn ++ [.status d.status],
      e.archived? = none := by
    intro e he
    simp only [List.mem_append, List.mem_map, List.mem_singleton] at he
    rcases he with (he | ⟨t, -, rfl⟩) | rfl
    · exact h.live (by simp [hs]) e he
    · rfl
    · rfl
  refine ⟨hlast ▸ hturns.length_le, ?_, fun hne => ?_, ?_⟩
  · have hnone : turnsOf [.status d.status] = [] := rfl
    have hending : turnsOf (if isOver then [ending d.status] else []) = [] := by
      refine turnsOf_none fun e he => ?_
      split at he
      · exact List.mem_singleton.mp he ▸ ending_turn _
      · exact nomatch he
    rw [hlast, take_of_isPrefix hturns le_rfl, List.take_length]
    simp only [Watcher.replay, hmissed, turnsOf_append, turnsOf_map_turn, hnone, hending,
      List.append_nil]
    rw [h.turns, take_of_isPrefix hturns hn, List.take_append_drop]
  · cases isOver with
    | true => exact absurd rfl hne
    | false =>
      simp only [Watcher.replay, hmissed, Bool.false_eq_true, if_false, List.append_nil]
      exact hlive
  · rw [hlast]
    cases isOver with
    | true =>
      obtain ⟨hr, rfl⟩ := hover rfl
      refine ⟨hr, rfl, _, ending d.status, rfl, ending_archived d, ?_⟩
      rw [hmissed]
      exact hlive
    | false => exact ⟨hpos, hsent⟩

/-- The value at a place is one more than what was there before. -/
theorem turnsOf_take_succ {events : List CommsEvent} {pos : Nat} {e : CommsEvent}
    (h : events[pos]? = some e) :
    turnsOf (events.take (pos + 1)) = turnsOf (events.take pos) ++ e.turn?.toList := by
  rw [List.take_add_one, h, turnsOf_append]
  cases ht : e.turn? <;> simp [turnsOf, ht]

/-- A turn is received: it is the next, or one the watcher has seen. -/
theorem Watcher.Ok.turn {w : Watcher} (hd : d.Ok) (h : w.Ok d) {pos : Nat} {t : Turn}
    (hs : w.stage = .live pos) (he : d.tx.sent[pos]? = some (.turn t)) :
    (if t.n ≤ w.lastN then { w with stage := .live (pos + 1) }
      else { w with
        stage := .live (pos + 1)
        lastN := t.n
        seen := w.seen ++ [CommsEvent.turn t] }).Ok d := by
  have hp := h.place
  rw [hs] at hp
  obtain ⟨hpos, hcount⟩ := hp
  have hlt : pos < d.tx.sent.length := (List.getElem?_eq_some_iff.mp he).1
  have htake : turnsOf (d.tx.sent.take (pos + 1)) = turnsOf (d.tx.sent.take pos) ++ [t] :=
    turnsOf_take_succ he
  have hstarts : turnsOf (d.tx.sent.take pos) ++ [t] <+: d.turns :=
    htake ▸ ((List.take_prefix _ _).filterMap _).trans hd.sentTurns
  -- Its place among the turns is the number of turns sent before.
  have hat : d.turns[(turnsOf (d.tx.sent.take pos)).length]? = some t := by
    obtain ⟨rest, hrest⟩ := hstarts
    rw [← hrest]
    simp
  have hn : t.n = (turnsOf (d.tx.sent.take pos)).length + 1 := hd.numbered _ t hat
  have hlen : (turnsOf (d.tx.sent.take (pos + 1))).length = t.n := by
    rw [htake, List.length_append, hn]
    rfl
  split
  · next hle =>
    exact ⟨h.bound, h.turns, fun _ => h.live (by simp [hs]), hlt, hlen.trans_le hle⟩
  · next hgt =>
    have hnext : w.lastN = (turnsOf (d.tx.sent.take pos)).length := by omega
    refine ⟨?_, ?_, fun _ e he => ?_, hlt, hlen.le⟩
    · have := (List.getElem?_eq_some_iff.mp hat).1
      change t.n ≤ _
      omega
    · change turnsOf (w.seen ++ [.turn t]) = d.turns.take t.n
      rw [turnsOf_append, h.turns, hn, List.take_add_one, hat, hnext]
      rfl
    · rcases List.mem_append.mp he with he | he
      · exact h.live (by simp [hs]) e he
      · exact List.mem_singleton.mp he ▸ rfl

/-- Before an ending all turns have been sent, and it says what was recorded. -/
theorem Dialogue.Ok.endingAt (hd : d.Ok) {pos : Nat} {e : CommsEvent} {archived : Bool}
    (he : d.tx.sent[pos]? = some e) (ha : e.archived? = some archived) :
    d.stage = .gone ∧ archived = d.archived ∧ turnsOf (d.tx.sent.take pos) = d.turns := by
  have hmem := List.mem_of_getElem? he
  have hgone : d.stage = .gone := by
    by_contra hne
    exact nomatch (hd.noEnding hne e hmem).symm.trans ha
  obtain ⟨before, e', after, hsent, ha', hbefore, hafter⟩ := hd.ending hgone
  rw [hsent] at he
  rcases Nat.lt_trichotomy pos before.length with hlt | rfl | hgt
  · rw [List.getElem?_append_left hlt] at he
    exact nomatch (hbefore e (List.mem_of_getElem? he)).symm.trans ha
  · rw [List.getElem?_append_right le_rfl, Nat.sub_self] at he
    obtain rfl : e' = e := Option.some.inj he
    have hturn : e'.turn? = none := by
      cases e' with
      | turn => exact nomatch ha
      | _ => rfl
    have htail : turnsOf (e' :: after) = [] :=
      turnsOf_none (List.forall_mem_cons.mpr ⟨hturn, fun e he => (hafter e he).1⟩)
    have hall := hd.sent
    rw [hgone, hsent, turnsOf_append, htail, List.append_nil] at hall
    refine ⟨hgone, Option.some.inj (ha.symm.trans ha'), ?_⟩
    rw [hsent, List.take_append_of_le_length le_rfl, List.take_length]
    simpa [Stage.unsent] using hall
  · rw [List.getElem?_append_right hgt.le] at he
    obtain ⟨k, hk⟩ : ∃ k, pos - before.length = k + 1 := ⟨pos - before.length - 1, by omega⟩
    rw [hk, List.getElem?_cons_succ] at he
    exact nomatch (hafter e (List.mem_of_getElem? he)).2.symm.trans ha

/-- The ending is received. -/
theorem Watcher.Ok.last {w : Watcher} (hd : d.Ok) (h : w.Ok d) {pos : Nat} {e : CommsEvent}
    {archived : Bool} (hs : w.stage = .live pos) (he : d.tx.sent[pos]? = some e)
    (ha : e.archived? = some archived) :
    { w with stage := .ended, seen := w.seen ++ [e] }.Ok d := by
  have hp := h.place
  rw [hs] at hp
  obtain ⟨hgone, rfl, hall⟩ := hd.endingAt he ha
  have hlast : w.lastN = d.turns.length := Nat.le_antisymm h.bound (hall ▸ hp.2)
  have hturn : e.turn? = none := by
    cases e with
    | turn => exact nomatch ha
    | _ => rfl
  refine ⟨h.bound, ?_, fun hne => absurd rfl hne, by rw [hgone]; rfl, hlast,
    w.seen, e, rfl, ha, h.live (by simp [hs])⟩
  have hnone : turnsOf [e] = [] := turnsOf_none (by simpa using hturn)
  change turnsOf (w.seen ++ [e]) = _
  rw [turnsOf_append, h.turns, hnone, List.append_nil]

/-- A step of a watcher. -/
theorem Watcher.Ok.run {w : Watcher} (hd : d.Ok) (h : w.Ok d) (hm : w.MeetsRun d) : (w.run d).Ok d := by
  cases hs : w.stage with
  | subscribed turns isOver pos =>
    unfold Watcher.run
    rw [hs]
    exact h.replay hd hs
  | ended =>
    unfold Watcher.run
    rw [hs]
    exact h
  | live pos =>
    have hp := h.place
    unfold Watcher.MeetsRun at hm
    rw [hs] at hp hm
    unfold Watcher.run Watcher.receive
    rw [hs]
    dsimp only
    cases hr : d.tx.recv pos with
    | pending => exact h
    | lagged missed =>
      have hlag : pos + d.tx.slots < d.tx.sent.length := by
        unfold Broadcast.recv at hr
        split at hr
        · next hlag => exact hlag
        · split at hr <;> exact nomatch hr
      exact ⟨h.bound, h.turns, fun _ => h.live (by simp [hs]), .subscribe hd (hm hlag) h.bound _⟩
    | value e =>
      have he := Broadcast.recv_value hr
      have hlt : pos < d.tx.sent.length := (List.getElem?_eq_some_iff.mp he).1
      have htake := turnsOf_take_succ he
      cases e with
      | turn t => exact h.turn hd hs he
      | status status =>
        refine ⟨h.bound, ?_, fun _ e he => ?_, hlt, ?_⟩
        · change turnsOf (w.seen ++ [.status status]) = _
          rw [turnsOf_append, h.turns]
          exact List.append_nil _
        · rcases List.mem_append.mp he with he | he
          · exact h.live (by simp [hs]) e he
          · exact List.mem_singleton.mp he ▸ rfl
        · rw [htake]
          simpa [CommsEvent.turn?] using hp.2
      | error message archived => exact h.last hd hs he rfl
      | done archived => exact h.last hd hs he rfl

end

end PulseNull.Comms
