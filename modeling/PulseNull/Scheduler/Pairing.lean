import PulseNull.Scheduler.Health
import PulseNull.Machine

/-! The messages of one task over time: each delivery reads what is due, hands it to the webhook and
marks it, while outcomes are recorded and other deliveries run. -/
namespace PulseNull.Scheduler.Pairing

/-- What happened to the task, as far as its messages tell. -/
inductive Entry where
  | success | alert | recovery | flapping | flapResolved
  deriving DecidableEq

def entryOf : LivenessAlert → Option Entry
  | .taskFailing _ _ _ _ _ _ => some .alert
  | .taskRecovered _ _ _ _ _ => some .recovery
  | .taskFlapping _ _ _ _ _ => some .flapping
  | .taskFlapResolved _ _ _ => some .flapResolved
  | .globalSilence _ _ _ _ _ | .globalRecovered _ _ _ => none

/-- A message that was read as due: the successes of the task up to then, whether an outcome came
since, and whether the webhook has accepted it. -/
structure Sending where
  alert : LivenessAlert
  streak : Nat
  fresh : Bool
  accepted : Bool

/-- The store; the messages under way; and what happened: the successes, the log, and the ticks
since the last outcome whose delivery worked. -/
structure Sys where
  store : TaskHealthStore
  sending : List Sending
  successes : Nat
  log : List Entry
  settled : Nat

inductive Act where
  | success (taskId taskName : Bytes) (now : Instant)
  | failure (taskId taskName error : Bytes) (now : Instant)
  | read (now : Instant)
  | accepted (i : Nat)
  | refused (i : Nat)
  | marked (i : Nat) (now : Instant)
  | otherMarked (taskId : Bytes) (alert : LivenessAlert) (now : Instant)
  | globalMarked (alert : LivenessAlert) (now : Instant)

/-- An outcome of the task itself. -/
def Sys.outcome (s : Sys) : Sys :=
  { s with sending := s.sending.map fun d => { d with fresh := false }, settled := 0 }

variable (config : LivenessConfig) (task : Bytes)

def Sys.step (s : Sys) : Act → Sys
  | .success taskId taskName now =>
    let next := { s with store := s.store.recordSuccess taskId taskName now }
    if taskId = task then
      { next.outcome with successes := s.successes + 1, log := s.log ++ [.success] }
    else next
  | .failure taskId taskName error now =>
    let next := { s with store := s.store.recordFailure taskId taskName error now }
    if taskId = task then next.outcome else next
  | .read now =>
    match s.store.pendingTaskAlert task config now with
    | some alert => { s with sending := s.sending ++ [⟨alert, s.successes, true, false⟩] }
    | none => { s with settled := s.settled + 1 }
  | .accepted i =>
    match s.sending[i]? with
    | some d =>
      if d.accepted then s
      else { s with
        sending := s.sending.set i { d with accepted := true }
        log := s.log ++ (entryOf d.alert).toList }
    | none => s
  | .refused i =>
    match s.sending[i]? with
    | some d => if d.accepted then s else { s with sending := s.sending.eraseIdx i }
    | none => s
  | .marked i now =>
    match s.sending[i]? with
    | some d =>
      if d.accepted then
        { s with
          store := s.store.markTaskAlertDelivered task d.alert now
          sending := s.sending.eraseIdx i
          settled := if d.fresh then s.settled + 1 else s.settled }
      else s
    | none => s
  | .otherMarked taskId alert now =>
    if taskId = task then s
    else { s with store := s.store.markTaskAlertDelivered taskId alert now }
  | .globalMarked alert now => { s with store := s.store.markGlobalAlertDelivered alert now }

def pairing (createdAt : Instant) : Machine Sys Act :=
  ⟨⟨.new createdAt, [], 0, [], 0⟩, Sys.step config task⟩

/-! What the messages should tell. -/

/-- No alert is open, one is, or its streak has ended and the recovery is owed. -/
inductive Phase where
  | idle | alerted | ended
  deriving DecidableEq

def Phase.next : Phase → Entry → Option Phase
  | ph, .flapping | ph, .flapResolved => some ph
  | .idle, .success => some .idle
  | .idle, .alert => some .alerted
  | .idle, .recovery => none
  | .alerted, .success => some .ended
  | .alerted, .alert => some .alerted
  | .alerted, .recovery => none
  | .ended, .success => some .ended
  | .ended, .alert => none
  | .ended, .recovery => some .idle

/-- Whether the last message of the flap rule is an alert. -/
def flapNext : Bool → Entry → Option Bool
  | _, .flapping => some true
  | true, .flapResolved => some false
  | false, .flapResolved => none
  | b, .success | b, .alert | b, .recovery => some b

def phaseOf (log : List Entry) : Option Phase := log.foldlM Phase.next .idle
def flapOf (log : List Entry) : Option Bool := log.foldlM flapNext false

theorem phaseOf_append (log : List Entry) (es : List Entry) :
    phaseOf (log ++ es) = (phaseOf log).bind fun ph => es.foldlM Phase.next ph :=
  List.foldlM_append

theorem flapOf_append (log : List Entry) (es : List Entry) :
    flapOf (log ++ es) = (flapOf log).bind fun b => es.foldlM flapNext b :=
  List.foldlM_append

def healthOf (task : Bytes) (store : TaskHealthStore) : TaskHealth :=
  (store.tasks.lookup task).getD .new

/-- The last message of the streak rule. -/
def lastMessage (log : List Entry) : Option Entry :=
  (log.filter fun e => e = .alert || e = .recovery).getLast?

/-- Before a recovery the last message of its rule is an alert, and a success followed it; two alerts
without a recovery between them are about one streak; the same for the flap rule without the
success; and two ticks after the last outcome an alert stands exactly if the task is failing. -/
structure Sys.Paired (s : Sys) : Prop where
  recovery : ∀ before after, s.log = before ++ .recovery :: after →
    ∃ early late, before = early ++ .alert :: late ∧ .success ∈ late ∧
      .alert ∉ late ∧ .recovery ∉ late
  alert : ∀ before between after, s.log = before ++ .alert :: (between ++ .alert :: after) →
    .recovery ∉ between → .success ∉ between
  flap : ∀ before after, s.log = before ++ .flapResolved :: after →
    ∃ early late, before = early ++ .flapping :: late ∧ .flapping ∉ late ∧ .flapResolved ∉ late
  settled : 2 ≤ s.settled → (lastMessage s.log = some .alert ↔
    config.alertAfterConsecutiveFailures ≤
      (healthOf task s.store).consecutiveFailures)

/-- One delivery of the task at a time; an alert is accepted in the streak it was read in; and no
success is recorded between its acceptance and its mark. -/
def Meets (s : Sys) : Act → Prop
  | .success taskId _ _ => taskId = task → ∀ d ∈ s.sending, entryOf d.alert = some .alert →
      d.accepted = false
  | .read _ => s.sending = []
  | .accepted i => ∀ d ∈ s.sending[i]?, entryOf d.alert = some .alert → d.streak = s.successes
  | _ => True

/-! The task's health after each operation. -/

variable {config : LivenessConfig} {task : Bytes} {store : TaskHealthStore}

/-- What the rules look at. -/
structure Signs where
  pending : Bool
  failures : Nat
  alertedAt : Option Instant
  sent : Nat
  flapSent : Nat

def signs (h : TaskHealth) : Signs :=
  ⟨h.pendingResolution.isSome, h.consecutiveFailures, h.lastAlertAt, h.alertsSentThisStreak,
    h.flapAlertsSent⟩

private theorem signs_entry (store : TaskHealthStore) (name : Bytes) :
    signs (store.entry task name) = signs (healthOf task store) := by
  unfold TaskHealthStore.entry
  split <;> rfl

theorem signs_recordSuccess (name : Bytes) (now : Instant) :
    signs (healthOf task (store.recordSuccess task name now)) =
      { signs (healthOf task store) with
        pending := 0 < (signs (healthOf task store)).sent || (signs (healthOf task store)).pending
        failures := 0, alertedAt := none, sent := 0 } := by
  rw [← signs_entry store name]
  unfold TaskHealthStore.recordSuccess healthOf
  simp only [AList.lookup_insert, Option.getD_some, signs]
  split <;> simp_all

theorem signs_recordFailure (name error : Bytes) (now : Instant) :
    signs (healthOf task (store.recordFailure task name error now)) =
      let h := signs (healthOf task store)
      { h with
        failures := saturatingSucc h.failures
        alertedAt := if h.failures = 0 then none else h.alertedAt
        sent := if h.failures = 0 then 0 else h.sent } := by
  rw [← signs_entry store name]
  unfold TaskHealthStore.recordFailure healthOf
  simp only [AList.lookup_insert, Option.getD_some, signs]
  split <;> simp_all

theorem healthOf_recordSuccess_ne {taskId : Bytes} (h : taskId ≠ task) (name : Bytes) (now : Instant) :
    healthOf task (store.recordSuccess taskId name now) = healthOf task store := by
  unfold healthOf TaskHealthStore.recordSuccess
  rw [AList.lookup_insert_ne (Ne.symm h)]

theorem healthOf_recordFailure_ne {taskId : Bytes} (h : taskId ≠ task) (name error : Bytes)
    (now : Instant) :
    healthOf task (store.recordFailure taskId name error now) = healthOf task store := by
  unfold healthOf TaskHealthStore.recordFailure
  rw [AList.lookup_insert_ne (Ne.symm h)]

theorem healthOf_marked_ne {taskId : Bytes} (h : taskId ≠ task) (alert : LivenessAlert)
    (now : Instant) :
    healthOf task (store.markTaskAlertDelivered taskId alert now) = healthOf task store := by
  unfold healthOf TaskHealthStore.markTaskAlertDelivered
  cases store.tasks.lookup taskId with
  | none => rfl
  | some health => cases alert <;> simp only [AList.lookup_insert_ne (Ne.symm h)]

theorem healthOf_globalMarked (alert : LivenessAlert) (now : Instant) :
    healthOf task (store.markGlobalAlertDelivered alert now) = healthOf task store := by
  cases alert <;> rfl

/-- What a mark changes, for a task that is known. -/
theorem signs_marked {alert : LivenessAlert} {now : Instant}
    (h : (store.tasks.lookup task).isSome = true) :
    signs (healthOf task (store.markTaskAlertDelivered task alert now)) =
      let g := signs (healthOf task store)
      match entryOf alert with
      | some .recovery => { g with pending := false }
      | some .alert => { g with alertedAt := some now, sent := saturatingSucc g.sent }
      | some .flapping => { g with flapSent := saturatingSucc g.flapSent }
      | some .flapResolved => { g with flapSent := 0 }
      | some .success | none => g := by
  obtain ⟨health, hh⟩ := Option.isSome_iff_exists.mp h
  unfold healthOf TaskHealthStore.markTaskAlertDelivered
  rw [hh]
  cases alert <;> simp [signs, entryOf, hh]

/-- What is due, by the signs. -/
inductive Due (config : LivenessConfig) (h : Signs) : Option LivenessAlert → Prop where
  | recovery {a} : h.pending = true → entryOf a = some .recovery → Due config h (some a)
  | alert {a} : h.pending = false → config.alertAfterConsecutiveFailures ≤ h.failures →
      entryOf a = some .alert → Due config h (some a)
  | flapping {a} : h.pending = false → h.failures < config.alertAfterConsecutiveFailures →
      entryOf a = some .flapping → Due config h (some a)
  | flapResolved {a} : h.pending = false → h.failures < config.alertAfterConsecutiveFailures →
      0 < h.flapSent → entryOf a = some .flapResolved → Due config h (some a)
  | none : h.pending = false →
      (config.alertAfterConsecutiveFailures ≤ h.failures → h.alertedAt ≠ none) → Due config h none

theorem due (hconfig : 0 < config.alertAfterConsecutiveFailures) (now : Instant) :
    Due config (signs (healthOf task store)) (store.pendingTaskAlert task config now) := by
  unfold TaskHealthStore.pendingTaskAlert healthOf
  cases store.tasks.lookup task with
  | none => exact .none rfl fun h => absurd hconfig (Nat.not_lt.mpr h)
  | some health =>
    simp only [Option.bind_eq_bind, Option.bind_some, Option.getD_some]
    cases hp : health.pendingResolution with
    | some r => exact .recovery (by simp [signs, hp]) rfl
    | none =>
      have hnone : (signs health).pending = false := by simp [signs, hp]
      simp only
      split
      · next hfail =>
        split
        · exact .alert hnone hfail rfl
        · next hdue =>
          refine .none hnone fun _ hat => hdue ?_
          rw [show health.lastAlertAt = none from hat]
          rfl
      · next hfail =>
        have hcalm := Nat.lt_of_not_le hfail
        unfold pendingFlapAlert
        split
        · split
          · exact .flapping hnone hcalm rfl
          · exact .none hnone fun h => absurd h hfail
        · split
          · next hsent => exact .flapResolved hnone hcalm hsent rfl
          · exact .none hnone fun h => absurd h hfail
        · exact .none hnone fun h => absurd h hfail

/-- A task of which something is due is known. -/
theorem known_of_due {now : Instant} {alert : LivenessAlert}
    (h : store.pendingTaskAlert task config now = some alert) :
    (store.tasks.lookup task).isSome = true := by
  unfold TaskHealthStore.pendingTaskAlert at h
  obtain ⟨health, hh, -⟩ := Option.bind_eq_some_iff.mp h
  rw [hh]
  rfl

/-! The invariant: how the phase, the signs and the message under way hang together. -/

/-- A threshold that the configuration accepts. -/
def Valid (config : LivenessConfig) : Prop :=
  0 < config.alertAfterConsecutiveFailures ∧ config.alertAfterConsecutiveFailures < 2^32

/-- No mark of the streak rule is outstanding. -/
structure Rests (ph : Phase) (g : Signs) : Prop where
  idle : ph = .idle → g.pending = false
  alerted : ph = .alerted → 0 < g.sent ∧ g.alertedAt ≠ none

def FlapRests (flap : Bool) (g : Signs) : Prop := flap = true ↔ 0 < g.flapSent

/-- The task is below its threshold and owes no recovery. -/
def Calm (config : LivenessConfig) (g : Signs) : Prop :=
  g.pending = false ∧ g.failures < config.alertAfterConsecutiveFailures

/-- The message under way, read or accepted. -/
inductive Flight (config : LivenessConfig) (ph : Phase) (flap : Bool) (g : Signs)
    (successes settled : Nat) : List Sending → Prop where
  | none : Rests ph g → FlapRests flap g → Flight config ph flap g successes settled []
  | alertRead {a : LivenessAlert} {streak : Nat} {fresh : Bool} : entryOf a = some .alert →
      Rests ph g → FlapRests flap g → streak ≤ successes →
      (streak = successes →
        g.pending = false ∧ config.alertAfterConsecutiveFailures ≤ g.failures) →
      Flight config ph flap g successes settled [⟨a, streak, fresh, false⟩]
  | alertAccepted {a : LivenessAlert} {streak : Nat} {fresh : Bool} : entryOf a = some .alert →
      ph = .alerted → FlapRests flap g →
      Flight config ph flap g successes settled [⟨a, streak, fresh, true⟩]
  | recoveryRead {a : LivenessAlert} {streak : Nat} {fresh : Bool} : entryOf a = some .recovery →
      ph = .ended → FlapRests flap g →
      Flight config ph flap g successes settled [⟨a, streak, fresh, false⟩]
  | recoveryAccepted {a : LivenessAlert} {streak : Nat} {fresh : Bool} : entryOf a = some .recovery →
      ph = .idle → settled = 0 → FlapRests flap g →
      Flight config ph flap g successes settled [⟨a, streak, fresh, true⟩]
  | flapRead {a : LivenessAlert} {e : Entry} {streak : Nat} {fresh : Bool} : entryOf a = some e →
      e = .flapping ∨ e = .flapResolved ∧ flap = true → Rests ph g → FlapRests flap g →
      (fresh = true → Calm config g) →
      Flight config ph flap g successes settled [⟨a, streak, fresh, false⟩]
  | flapAccepted {a : LivenessAlert} {e : Entry} {streak : Nat} {fresh : Bool} : entryOf a = some e →
      e = .flapping ∧ flap = true ∨ e = .flapResolved ∧ flap = false → Rests ph g →
      (fresh = true → Calm config g) →
      Flight config ph flap g successes settled [⟨a, streak, fresh, true⟩]

structure Stands (config : LivenessConfig) (ph : Phase) (flap : Bool) (g : Signs)
    (sending : List Sending) (successes settled : Nat) : Prop where
  idle : ph = .idle → g.sent = 0 ∧ g.alertedAt = none
  alerted : ph = .alerted → g.pending = false ∧ config.alertAfterConsecutiveFailures ≤ g.failures
  ended : ph = .ended → g.pending = true ∧ g.sent = 0 ∧ g.alertedAt = none ∧ settled = 0
  steady : 2 ≤ settled → config.alertAfterConsecutiveFailures ≤ g.failures → ph = .alerted
  flight : Flight config ph flap g successes settled sending

section
variable {ph : Phase} {flap : Bool} {g : Signs} {sending : List Sending} {successes settled : Nat}

/-- The streak of an open alert counts as alerted, unless the mark of the alert is outstanding. -/
theorem Flight.sent (h : Flight config ph flap g successes settled sending)
    (ok : ∀ d ∈ sending, entryOf d.alert = some .alert → d.accepted = false)
    (hph : ph = .alerted) : 0 < g.sent := by
  cases h with
  | none hrests _ => exact (hrests.alerted hph).1
  | alertRead _ hrests _ _ _ => exact (hrests.alerted hph).1
  | alertAccepted ha _ _ => exact nomatch ok _ (List.mem_singleton_self _) ha
  | recoveryRead _ hended _ => exact nomatch hph.symm.trans hended
  | recoveryAccepted _ hidle _ _ => exact nomatch hph.symm.trans hidle
  | flapRead _ _ hrests _ _ => exact (hrests.alerted hph).1
  | flapAccepted _ _ hrests _ => exact (hrests.alerted hph).1

def Signs.succeed (g : Signs) : Signs :=
  { g with pending := 0 < g.sent || g.pending, failures := 0, alertedAt := none, sent := 0 }

def Signs.fail (g : Signs) : Signs :=
  { g with
    failures := saturatingSucc g.failures
    alertedAt := if g.failures = 0 then none else g.alertedAt
    sent := if g.failures = 0 then 0 else g.sent }

def stale (sending : List Sending) : List Sending := sending.map fun d => { d with fresh := false }

/-- A success ends the streak: what was alerted is owed a recovery. -/
theorem Stands.success (h : Stands config ph flap g sending successes settled)
    (ok : ∀ d ∈ sending, entryOf d.alert = some .alert → d.accepted = false) :
    ∃ ph', ph.next .success = some ph' ∧
      Stands config ph' flap g.succeed (stale sending) (successes + 1) 0 := by
  obtain ⟨ph', hnext, hidle, hended, hnot⟩ : ∃ ph', ph.next .success = some ph' ∧
      (ph' = .idle → ph = .idle) ∧ (ph' = .ended → ph ≠ .idle) ∧ ph' ≠ .alerted := by
    cases ph with
    | idle => exact ⟨.idle, rfl, by simp⟩
    | alerted => exact ⟨.ended, rfl, by simp⟩
    | ended => exact ⟨.ended, rfl, by simp⟩
  have howed : ph' = .ended → g.succeed.pending = true := by
    intro hph
    cases ph with
    | idle => exact absurd rfl (hended hph)
    | alerted =>
      have hsent := h.flight.sent ok rfl
      simp [Signs.succeed, hsent]
    | ended => simp [Signs.succeed, (h.ended rfl).1]
  have hrests : Rests ph g → Rests ph' g.succeed := fun hr =>
    ⟨fun hph => by simp [Signs.succeed, (h.idle (hidle hph)).1, hr.idle (hidle hph)],
      fun hph => absurd hph hnot⟩
  refine ⟨ph', hnext, fun _ => ⟨rfl, rfl⟩, fun hph => absurd hph hnot,
    fun hph => ⟨howed hph, rfl, rfl, rfl⟩, fun h2 => absurd h2 (by decide), ?_⟩
  cases h.flight with
  | none hr hf => exact .none (hrests hr) hf
  | alertRead ha hr hf hle _ =>
    refine .alertRead ha (hrests hr) hf (hle.trans (Nat.le_succ _)) fun heq => ?_
    dsimp only at heq
    omega
  | alertAccepted ha _ _ => exact nomatch ok _ (List.mem_singleton_self _) ha
  | recoveryRead ha hph hf =>
    refine .recoveryRead ha ?_ hf
    subst hph
    exact (Option.some.inj hnext).symm
  | recoveryAccepted ha hph _ hf =>
    refine .recoveryAccepted ha ?_ rfl hf
    subst hph
    exact (Option.some.inj hnext).symm
  | flapRead ha he hr hf _ => exact .flapRead ha he (hrests hr) hf nofun
  | flapAccepted ha he hr _ => exact .flapAccepted ha he (hrests hr) nofun

theorem Stands.failure (h : Stands config ph flap g sending successes settled)
    (hconfig : Valid config) : Stands config ph flap g.fail (stale sending) successes 0 := by
  have hgrow : config.alertAfterConsecutiveFailures ≤ g.failures →
      config.alertAfterConsecutiveFailures ≤ g.fail.failures ∧ g.failures ≠ 0 := by
    intro hle
    have hpos := hconfig.1
    have hcap := hconfig.2
    simp only [Signs.fail, saturatingSucc]
    omega
  have hrests : Rests ph g → Rests ph g.fail := fun hr =>
    ⟨hr.idle, fun hph => by
      have hne := (hgrow (h.alerted hph).2).2
      simp only [Signs.fail, if_neg hne]
      exact hr.alerted hph⟩
  have hclear : g.sent = 0 ∧ g.alertedAt = none → g.fail.sent = 0 ∧ g.fail.alertedAt = none := by
    rintro ⟨h1, h2⟩
    simp [Signs.fail, h1, h2]
  refine ⟨fun hph => hclear (h.idle hph),
    fun hph => ⟨(h.alerted hph).1, (hgrow (h.alerted hph).2).1⟩, fun hph => ?_,
    fun h2 => absurd h2 (by decide), ?_⟩
  · obtain ⟨hpending, hsent, hat, -⟩ := h.ended hph
    exact ⟨hpending, (hclear ⟨hsent, hat⟩).1, (hclear ⟨hsent, hat⟩).2, rfl⟩
  cases h.flight with
  | none hr hf => exact .none (hrests hr) hf
  | alertRead ha hr hf hle hdue =>
    exact .alertRead ha (hrests hr) hf hle fun heq => ⟨(hdue heq).1, (hgrow (hdue heq).2).1⟩
  | alertAccepted ha hph hf => exact .alertAccepted ha hph hf
  | recoveryRead ha hph hf => exact .recoveryRead ha hph hf
  | recoveryAccepted ha hph _ hf => exact .recoveryAccepted ha hph rfl hf
  | flapRead ha he hr hf _ => exact .flapRead ha he (hrests hr) hf nofun
  | flapAccepted ha he hr _ => exact .flapAccepted ha he (hrests hr) nofun

theorem Stands.pending (h : Stands config ph flap g [] successes settled) (hp : g.pending = true) :
    ph = .ended := by
  cases h.flight with
  | none hr hf =>
    cases ph with
    | idle => exact absurd hp (by simp [hr.idle rfl])
    | alerted => exact absurd hp (by simp [(h.alerted rfl).1])
    | ended => rfl

/-- A read takes what is due under way. -/
theorem Stands.read (h : Stands config ph flap g [] successes settled) {a : LivenessAlert}
    (hdue : Due config g (some a)) :
    Stands config ph flap g [⟨a, successes, true, false⟩] successes settled := by
  have hended := h.pending
  cases h.flight with
  | none hr hf =>
    cases hdue with
    | recovery hp ha => exact { h with flight := .recoveryRead ha (hended hp) hf }
    | alert hp hle ha => exact { h with flight := .alertRead ha hr hf le_rfl fun _ => ⟨hp, hle⟩ }
    | flapping hp hlt ha => exact { h with flight := .flapRead ha (.inl rfl) hr hf fun _ => ⟨hp, hlt⟩ }
    | flapResolved hp hlt hsent ha =>
      exact { h with flight := .flapRead ha (.inr ⟨rfl, hf.mpr hsent⟩) hr hf fun _ => ⟨hp, hlt⟩ }

/-- A read that finds nothing due is a whole tick. -/
theorem Stands.readNothing (h : Stands config ph flap g [] successes settled)
    (hdue : Due config g none) : Stands config ph flap g [] successes (settled + 1) := by
  cases hdue with
  | none hp hat =>
    have hnot : ph ≠ .ended := by
      rintro rfl
      exact absurd (h.ended rfl).1 (by simp [hp])
    refine ⟨h.idle, h.alerted, fun hph => absurd hph hnot, fun _ hle => ?_, ?_⟩
    · cases ph with
      | idle => exact absurd (h.idle rfl).2 (hat hle)
      | alerted => rfl
      | ended => exact absurd rfl hnot
    · cases h.flight with
      | none hr hf => exact .none hr hf

/-- The webhook takes a message: its entry fits the log. -/
theorem Stands.accepted {d : Sending} (h : Stands config ph flap g [d] successes settled)
    (hd : d.accepted = false) (ok : entryOf d.alert = some .alert → d.streak = successes) :
    ∃ e ph' flap', entryOf d.alert = some e ∧ ph.next e = some ph' ∧ flapNext flap e = some flap' ∧
      Stands config ph' flap' g [{ d with accepted := true }] successes settled := by
  cases h.flight with
  | alertRead ha hr hf hle hdue =>
    obtain ⟨hp, hle⟩ := hdue (ok ha)
    have hnot : ph ≠ .ended := by
      rintro rfl
      exact absurd (h.ended rfl).1 (by simp [hp])
    refine ⟨.alert, .alerted, flap, ha, ?_, ?_, nofun, fun _ => ⟨hp, hle⟩, nofun, fun _ _ => rfl,
      .alertAccepted ha rfl hf⟩
    · cases ph with
      | idle => rfl
      | alerted => rfl
      | ended => exact absurd rfl hnot
    · cases flap <;> rfl
  | recoveryRead ha hph hf =>
    subst hph
    obtain ⟨hp, hsent, hat, hs⟩ := h.ended rfl
    refine ⟨.recovery, .idle, flap, ha, rfl, ?_, fun _ => ⟨hsent, hat⟩, nofun, nofun, ?_,
      .recoveryAccepted ha rfl hs hf⟩
    · cases flap <;> rfl
    · intro h2
      rw [hs] at h2
      exact absurd h2 (by decide)
  | flapRead ha he hr hf hcalm =>
    rcases he with rfl | ⟨rfl, rfl⟩
    · refine ⟨.flapping, ph, true, ha, ?_, ?_,
        { h with flight := .flapAccepted ha (.inl ⟨rfl, rfl⟩) hr hcalm }⟩
      · cases ph <;> rfl
      · cases flap <;> rfl
    · refine ⟨.flapResolved, ph, false, ha, ?_, rfl,
        { h with flight := .flapAccepted ha (.inr ⟨rfl, rfl⟩) hr hcalm }⟩
      cases ph <;> rfl
  | alertAccepted => exact nomatch hd
  | recoveryAccepted => exact nomatch hd
  | flapAccepted => exact nomatch hd

theorem Stands.refused {d : Sending} (h : Stands config ph flap g [d] successes settled)
    (hd : d.accepted = false) : Stands config ph flap g [] successes settled := by
  refine { h with flight := ?_ }
  cases h.flight with
  | alertRead _ hr hf _ _ => exact .none hr hf
  | recoveryRead _ hph hf => exact .none ⟨by simp [hph], by simp [hph]⟩ hf
  | flapRead _ _ hr hf _ => exact .none hr hf
  | alertAccepted => exact nomatch hd
  | recoveryAccepted => exact nomatch hd
  | flapAccepted => exact nomatch hd

def Signs.mark (g : Signs) (now : Instant) : Option Entry → Signs
  | some .recovery => { g with pending := false }
  | some .alert => { g with alertedAt := some now, sent := saturatingSucc g.sent }
  | some .flapping => { g with flapSent := saturatingSucc g.flapSent }
  | some .flapResolved => { g with flapSent := 0 }
  | some .success | none => g

theorem saturatingSucc_pos (n : Nat) : 0 < saturatingSucc n := by
  unfold saturatingSucc
  omega

/-- A mark settles the message; if no outcome came since its read, the tick counts. -/
theorem Stands.marked {d : Sending} {now : Instant}
    (h : Stands config ph flap g [d] successes settled) (hd : d.accepted = true) :
    Stands config ph flap (g.mark now (entryOf d.alert)) [] successes
      (if d.fresh then settled + 1 else settled) := by
  cases h.flight with
  | alertAccepted ha hph hf =>
    subst hph
    simp only [ha, Signs.mark]
    exact ⟨nofun, h.alerted, nofun, fun _ _ => rfl,
      .none ⟨nofun, fun _ => ⟨saturatingSucc_pos _, nofun⟩⟩ hf⟩
  | recoveryAccepted ha hph hs hf =>
    subst hph hs
    simp only [ha, Signs.mark]
    refine ⟨h.idle, nofun, nofun, fun h2 => ?_, .none ⟨fun _ => rfl, nofun⟩ hf⟩
    split at h2 <;> omega
  | @flapAccepted a e streak fresh ha he hr hcalm =>
    have hended : ph = .ended → fresh = false := by
      intro hph
      cases fresh with
      | false => rfl
      | true => exact absurd (h.ended hph).1 (by simp [(hcalm rfl).1])
    have hsettled : 2 ≤ (if fresh = true then settled + 1 else settled) →
        config.alertAfterConsecutiveFailures ≤ g.failures → ph = .alerted := by
      intro h2 hle
      cases fresh with
      | false => exact h.steady h2 hle
      | true => exact absurd (hcalm rfl).2 (Nat.not_lt.mpr hle)
    rcases he with ⟨rfl, rfl⟩ | ⟨rfl, rfl⟩
    · simp only [ha, Signs.mark]
      refine ⟨h.idle, h.alerted, fun hph => ?_, hsettled,
        .none ⟨hr.idle, hr.alerted⟩ ⟨fun _ => saturatingSucc_pos _, fun _ => rfl⟩⟩
      rw [hended hph]
      exact h.ended hph
    · simp only [ha, Signs.mark]
      refine ⟨h.idle, h.alerted, fun hph => ?_, hsettled, .none ⟨hr.idle, hr.alerted⟩ ⟨nofun, ?_⟩⟩
      · rw [hended hph]
        exact h.ended hph
      · exact fun hlt => absurd hlt (lt_irrefl 0)
  | alertRead => exact nomatch hd
  | recoveryRead => exact nomatch hd
  | flapRead => exact nomatch hd

end

/-! What the phase says of the log. -/

private theorem phaseOf_concat {log : List Entry} {e : Entry} {ph : Phase}
    (h : phaseOf (log ++ [e]) = some ph) : ∃ before, phaseOf log = some before ∧ before.next e = some ph := by
  rw [phaseOf_append] at h
  obtain ⟨before, hb, he⟩ := Option.bind_eq_some_iff.mp h
  refine ⟨before, hb, ?_⟩
  rw [List.foldlM_cons] at he
  obtain ⟨after, ha, hn⟩ := Option.bind_eq_some_iff.mp he
  exact Option.some.inj hn ▸ ha

private theorem flapOf_concat {log : List Entry} {e : Entry} {b : Bool}
    (h : flapOf (log ++ [e]) = some b) : ∃ before, flapOf log = some before ∧ flapNext before e = some b := by
  rw [flapOf_append] at h
  obtain ⟨before, hb, he⟩ := Option.bind_eq_some_iff.mp h
  refine ⟨before, hb, ?_⟩
  rw [List.foldlM_cons] at he
  obtain ⟨after, ha, hn⟩ := Option.bind_eq_some_iff.mp he
  exact Option.some.inj hn ▸ ha

/-- An open streak or an owed recovery goes back to the last alert. -/
theorem open_since {log : List Entry} {ph : Phase} (h : phaseOf log = some ph) (hph : ph ≠ .idle) :
    ∃ early late, log = early ++ .alert :: late ∧ .alert ∉ late ∧ .recovery ∉ late ∧
      (ph = .ended → .success ∈ late) := by
  induction log using List.reverseRecOn generalizing ph with
  | nil => exact absurd (Option.some.inj h).symm hph
  | append_singleton log e ih =>
    obtain ⟨before, hb, hn⟩ := phaseOf_concat h
    by_cases he : e = .alert
    · subst he
      refine ⟨log, [], rfl, by simp, by simp, ?_⟩
      rintro rfl
      cases before <;> exact nomatch hn
    have hbefore : before ≠ .idle := by
      rintro rfl
      cases e with
      | alert => exact he rfl
      | recovery => exact nomatch hn
      | success => exact hph (Option.some.inj hn).symm
      | flapping => exact hph (Option.some.inj hn).symm
      | flapResolved => exact hph (Option.some.inj hn).symm
    obtain ⟨early, late, rfl, halert, hrecovery, hsuccess⟩ := ih hb hbefore
    have hnot : e ≠ .recovery := by
      rintro rfl
      cases before with
      | idle => exact nomatch hn
      | alerted => exact nomatch hn
      | ended => exact hph (Option.some.inj hn).symm
    refine ⟨early, late ++ [e], by simp, by simp [halert, Ne.symm he], by simp [hrecovery, Ne.symm hnot],
      ?_⟩
    rintro rfl
    rw [List.mem_append, List.mem_singleton]
    cases before with
    | idle => exact absurd rfl hbefore
    | ended => exact .inl (hsuccess rfl)
    | alerted =>
      cases e with
      | success => exact .inr rfl
      | alert => exact absurd rfl he
      | recovery => exact absurd rfl hnot
      | flapping => exact nomatch hn
      | flapResolved => exact nomatch hn

/-- The part of the log up to an entry has a phase from which the entry may come. -/
theorem phaseOf_before {before after : List Entry} {e : Entry} {ph : Phase}
    (h : phaseOf (before ++ e :: after) = some ph) :
    ∃ b n, phaseOf before = some b ∧ b.next e = some n ∧ after.foldlM Phase.next n = some ph := by
  rw [phaseOf_append] at h
  obtain ⟨b, hb, hrest⟩ := Option.bind_eq_some_iff.mp h
  rw [List.foldlM_cons] at hrest
  obtain ⟨n, hn, hafter⟩ := Option.bind_eq_some_iff.mp hrest
  exact ⟨b, n, hb, hn, hafter⟩

/-- Without a recovery an ended streak stays ended. -/
theorem ended_stays {es : List Entry} {ph : Phase} (h : es.foldlM Phase.next .ended = some ph)
    (hno : .recovery ∉ es) : ph = .ended := by
  induction es with
  | nil => exact (Option.some.inj h).symm
  | cons e es ih =>
    obtain ⟨he, hes⟩ := not_or.mp (mt List.mem_cons.mpr hno)
    rw [List.foldlM_cons] at h
    cases e with
    | alert => exact nomatch h
    | recovery => exact absurd rfl he
    | success => exact ih h hes
    | flapping => exact ih h hes
    | flapResolved => exact ih h hes

/-- After an alert and without a recovery a success ends the streak for good. -/
theorem alerted_success {es : List Entry} {ph : Phase} (h : es.foldlM Phase.next .alerted = some ph)
    (hno : .recovery ∉ es) (hs : .success ∈ es) : ph = .ended := by
  induction es with
  | nil => exact nomatch hs
  | cons e es ih =>
    obtain ⟨he, hes⟩ := not_or.mp (mt List.mem_cons.mpr hno)
    rw [List.foldlM_cons] at h
    rcases List.mem_cons.mp hs with rfl | hin
    · exact ended_stays h hes
    · cases e with
      | alert => exact ih h hes hin
      | recovery => exact absurd rfl he
      | success => exact ended_stays h hes
      | flapping => exact ih h hes hin
      | flapResolved => exact ih h hes hin

theorem lastMessage_concat (log : List Entry) (e : Entry) :
    lastMessage (log ++ [e]) = if e = .alert ∨ e = .recovery then some e else lastMessage log := by
  unfold lastMessage
  rw [List.filter_append]
  cases e <;> simp

theorem lastMessage_alert {log : List Entry} {ph : Phase} (h : phaseOf log = some ph) :
    lastMessage log = some .alert ↔ ph ≠ .idle := by
  induction log using List.reverseRecOn generalizing ph with
  | nil =>
    obtain rfl := Option.some.inj h
    simp [lastMessage]
  | append_singleton log e ih =>
    obtain ⟨before, hb, hn⟩ := phaseOf_concat h
    have hbefore := ih hb
    rw [lastMessage_concat]
    cases before <;> cases e <;> simp only [Phase.next, Option.some.injEq, reduceCtorEq] at hn <;>
      subst hn <;> simp [hbefore]

theorem flap_since {log : List Entry} (h : flapOf log = some true) :
    ∃ early late, log = early ++ .flapping :: late ∧ .flapping ∉ late ∧ .flapResolved ∉ late := by
  induction log using List.reverseRecOn with
  | nil => exact nomatch h
  | append_singleton log e ih =>
    obtain ⟨before, hb, hn⟩ := flapOf_concat h
    by_cases he : e = .flapping
    · subst he
      exact ⟨log, [], rfl, by simp, by simp⟩
    have hsame : before = true ∧ e ≠ .flapResolved := by
      cases before <;> cases e <;> simp_all [flapNext]
    obtain ⟨early, late, rfl, h1, h2⟩ := ih (hsame.1 ▸ hb)
    exact ⟨early, late ++ [e], by simp, by simp [h1, Ne.symm he], by simp [h2, Ne.symm hsame.2]⟩

/-! Runs. -/

structure Sys.Inv (config : LivenessConfig) (task : Bytes) (s : Sys) (ph : Phase) (flap : Bool) :
    Prop where
  phase : phaseOf s.log = some ph
  flaps : flapOf s.log = some flap
  known : s.sending ≠ [] → (s.store.tasks.lookup task).isSome = true
  stands : Stands config ph flap (signs (healthOf task s.store)) s.sending s.successes s.settled

theorem Sys.Inv.paired {s : Sys} {ph : Phase} {flap : Bool} (h : s.Inv config task ph flap) :
    s.Paired config task := by
  refine ⟨fun before after hlog => ?_, fun before between after hlog hno hs => ?_,
    fun before after hlog => ?_, fun h2 => ?_⟩
  · have hphase := h.phase
    rw [hlog] at hphase
    obtain ⟨b, n, hb, hn, -⟩ := phaseOf_before hphase
    have hended : b = .ended := by cases b <;> first | rfl | exact nomatch hn
    obtain ⟨early, late, hsplit, ha, hr, hsuccess⟩ := open_since hb (by simp [hended])
    exact ⟨early, late, hsplit, hsuccess hended, ha, hr⟩
  · have hphase := h.phase
    rw [hlog] at hphase
    obtain ⟨b, n, hb, hn, hrest⟩ := phaseOf_before hphase
    have halerted : n = .alerted := by
      cases b with
      | idle => exact (Option.some.inj hn).symm
      | alerted => exact (Option.some.inj hn).symm
      | ended => exact nomatch hn
    rw [halerted, List.foldlM_append] at hrest
    obtain ⟨m, hm, hnext⟩ := Option.bind_eq_some_iff.mp hrest
    obtain rfl := alerted_success hm hno hs
    exact nomatch hnext
  · have hflap := h.flaps
    rw [hlog, flapOf_append] at hflap
    obtain ⟨b, hb, hrest⟩ := Option.bind_eq_some_iff.mp hflap
    cases b with
    | true => exact flap_since hb
    | false => exact nomatch hrest
  · rw [lastMessage_alert h.phase]
    refine ⟨fun hph => ?_, fun hle => ?_⟩
    · cases ph with
      | idle => exact absurd rfl hph
      | alerted => exact (h.stands.alerted rfl).2
      | ended => exact absurd (h.stands.ended rfl).2.2.2 (by omega)
    · rw [h.stands.steady h2 hle]
      decide

theorem start_inv (createdAt : Instant) :
    (pairing config task createdAt).start.Inv config task .idle false := by
  refine ⟨rfl, rfl, fun h => absurd rfl h, fun _ => ⟨rfl, rfl⟩, nofun, nofun, nofun, ?_⟩
  exact .none ⟨fun _ => rfl, nofun⟩ ⟨nofun, fun h => absurd h (lt_irrefl 0)⟩

/-- At most one message is under way. -/
theorem Flight.single {ph : Phase} {flap : Bool} {g : Signs} {sending : List Sending}
    {successes settled i : Nat} {d : Sending}
    (h : Flight config ph flap g successes settled sending) (hd : sending[i]? = some d) :
    sending = [d] ∧ i = 0 := by
  have hone : sending = [] ∨ ∃ d', sending = [d'] := by
    cases h with
    | none => exact .inl rfl
    | _ => exact .inr ⟨_, rfl⟩
  rcases hone with rfl | ⟨d', rfl⟩
  · exact nomatch hd
  · cases i with
    | zero => exact ⟨by rw [Option.some.inj hd], rfl⟩
    | succ i => exact nomatch hd

/-- A step that leaves the task's health alone. -/
theorem Sys.Inv.frame {s : Sys} {ph : Phase} {flap : Bool} (h : s.Inv config task ph flap)
    {store : TaskHealthStore} (hh : healthOf task store = healthOf task s.store)
    (hk : (s.store.tasks.lookup task).isSome = true → (store.tasks.lookup task).isSome = true) :
    Sys.Inv config task { s with store := store } ph flap :=
  ⟨h.phase, h.flaps, fun hne => hk (h.known hne), hh ▸ h.stands⟩

theorem known_insert {taskId : Bytes} {store : TaskHealthStore} {health : TaskHealth}
    (h : (store.tasks.lookup task).isSome = true ∨ taskId = task) :
    ((store.tasks.insert taskId health).lookup task).isSome = true := by
  by_cases heq : taskId = task
  · rw [heq, AList.lookup_insert]
    rfl
  · rw [AList.lookup_insert_ne (Ne.symm heq)]
    exact h.resolve_right heq

theorem known_marked {taskId : Bytes} {store : TaskHealthStore} (alert : LivenessAlert) (now : Instant)
    (h : (store.tasks.lookup task).isSome = true) :
    ((store.markTaskAlertDelivered taskId alert now).tasks.lookup task).isSome = true := by
  unfold TaskHealthStore.markTaskAlertDelivered
  cases store.tasks.lookup taskId with
  | none => exact h
  | some health => cases alert <;> first | exact known_insert (.inl h) | exact h

theorem Sys.Inv.step {s : Sys} {ph : Phase} {flap : Bool} {act : Act} (hconfig : Valid config)
    (h : s.Inv config task ph flap) (ok : Meets task s act) :
    ∃ ph' flap', (s.step config task act).Inv config task ph' flap' := by
  cases act with
  | success taskId taskName now =>
    simp only [Sys.step]
    split
    · next heq =>
      subst heq
      obtain ⟨ph', hnext, hstands⟩ := h.stands.success (ok rfl)
      refine ⟨ph', flap, ?_, ?_, fun _ => known_insert (.inr rfl), ?_⟩
      · rw [phaseOf_append, h.phase]
        simp [hnext]
      · rw [flapOf_append, h.flaps]
        cases flap <;> rfl
      · have hsigns := @signs_recordSuccess taskId s.store taskName now
        exact hsigns ▸ hstands
    · next hne =>
      exact ⟨ph, flap, h.frame (healthOf_recordSuccess_ne hne _ _) fun hk => known_insert (.inl hk)⟩
  | failure taskId taskName error now =>
    simp only [Sys.step]
    split
    · next heq =>
      subst heq
      refine ⟨ph, flap, h.phase, h.flaps, fun _ => known_insert (.inr rfl), ?_⟩
      have hsigns := @signs_recordFailure taskId s.store taskName error now
      exact hsigns ▸ h.stands.failure hconfig
    · next hne =>
      exact ⟨ph, flap, h.frame (healthOf_recordFailure_ne hne _ _ _) fun hk => known_insert (.inl hk)⟩
  | read now =>
    have hnone : s.sending = [] := ok
    have hstands := h.stands
    rw [hnone] at hstands
    have hdue := @due config task s.store hconfig.1 now
    simp only [Sys.step]
    split
    · next alert hsome =>
      rw [hsome] at hdue
      refine ⟨ph, flap, h.phase, h.flaps, fun _ => known_of_due hsome, ?_⟩
      rw [hnone]
      exact hstands.read hdue
    · next hempty =>
      rw [hempty] at hdue
      refine ⟨ph, flap, h.phase, h.flaps, h.known, ?_⟩
      rw [hnone]
      exact hstands.readNothing hdue
  | accepted i =>
    simp only [Sys.step]
    split
    · next d hd =>
      obtain ⟨hone, rfl⟩ := h.stands.flight.single hd
      split
      · exact ⟨ph, flap, h⟩
      · next hacc =>
        have hstands := h.stands
        rw [hone] at hstands
        obtain ⟨e, ph', flap', he, hnext, hflap, hnew⟩ :=
          hstands.accepted (by simpa using hacc) (ok d hd)
        refine ⟨ph', flap', ?_, ?_, fun _ => h.known (by simp [hone]), ?_⟩
        · rw [phaseOf_append, h.phase, he]
          simp [hnext]
        · rw [flapOf_append, h.flaps, he]
          simp [hflap]
        · rw [hone]
          exact hnew
    · exact ⟨ph, flap, h⟩
  | refused i =>
    simp only [Sys.step]
    split
    · next d hd =>
      obtain ⟨hone, rfl⟩ := h.stands.flight.single hd
      split
      · exact ⟨ph, flap, h⟩
      · next hacc =>
        have hstands := h.stands
        rw [hone] at hstands
        refine ⟨ph, flap, h.phase, h.flaps, fun _ => h.known (by simp [hone]), ?_⟩
        rw [hone]
        exact hstands.refused (by simpa using hacc)
    · exact ⟨ph, flap, h⟩
  | marked i now =>
    simp only [Sys.step]
    split
    · next d hd =>
      obtain ⟨hone, rfl⟩ := h.stands.flight.single hd
      split
      · next hacc =>
        have hknown := h.known (by simp [hone])
        have hstands := h.stands
        rw [hone] at hstands
        refine ⟨ph, flap, h.phase, h.flaps, fun _ => known_marked _ _ hknown, ?_⟩
        rw [signs_marked hknown, hone]
        exact hstands.marked hacc
      · exact ⟨ph, flap, h⟩
    · exact ⟨ph, flap, h⟩
  | otherMarked taskId alert now =>
    simp only [Sys.step]
    split
    · exact ⟨ph, flap, h⟩
    · next hne =>
      exact ⟨ph, flap, h.frame (healthOf_marked_ne hne _ _) fun hk => known_marked _ _ hk⟩
  | globalMarked alert now =>
    refine ⟨ph, flap, h.frame (healthOf_globalMarked _ _) fun hk => ?_⟩
    cases alert <;> exact hk

/-- While deliveries of a task do not overlap and no alert outlives its streak, its messages pair
up. -/
theorem messages_paired (config : LivenessConfig) (task : Bytes) (createdAt : Instant) (s : Sys)
    (hconfig : Valid config) (h : (pairing config task createdAt).Runs (Meets task) s) :
    s.Paired config task := by
  have hinv : ∃ ph flap, s.Inv config task ph flap :=
    h.invariant (I := fun s => ∃ ph flap, s.Inv config task ph flap) ⟨_, _, start_inv createdAt⟩
      fun s act ⟨_, _, hs⟩ ok => hs.step hconfig ok
  obtain ⟨ph, flap, hs⟩ := hinv
  exact hs.paired

/-! A sample task, alerted after one failure and again after six hours. -/

def sampleConfig : LivenessConfig := ⟨1, 24, 6, true, 20, 168, 5, 50⟩

def sampleTask : Bytes := Text.ascii "think"

/-- An hour, in nanoseconds. -/
def hour : Int := 3600000000000

theorem sample_valid : Valid sampleConfig := ⟨by decide, by decide⟩

instance (task : Bytes) (s : Sys) : (act : Act) → Decidable (Meets task s act)
  | .success _ _ _ => inferInstanceAs (Decidable (_ → ∀ d ∈ s.sending, _ → _))
  | .accepted i => inferInstanceAs (Decidable (∀ d ∈ s.sending[i]?, _ → _))
  | .read _ => decidable_of_iff (s.sending.isEmpty = true) List.isEmpty_iff
  | .failure _ _ _ _ | .refused _ | .marked _ _ | .otherMarked _ _ _ | .globalMarked _ _ =>
    inferInstanceAs (Decidable True)

/-- An alert, its repetition and the recovery. -/
def sampleActs : List Act :=
  [.failure sampleTask [] [101] 1, .read 2, .accepted 0, .marked 0 3,
    .read (7 * hour), .accepted 0, .marked 0 (7 * hour), .success sampleTask [] (8 * hour),
    .read (9 * hour), .refused 0, .read (10 * hour), .accepted 0, .marked 0 (10 * hour),
    .read (11 * hour)]

theorem messages_paired_sample : ∃ s, (pairing sampleConfig sampleTask 0).Runs (Meets sampleTask) s ∧
    s.Paired sampleConfig sampleTask ∧ (s.log, s.settled) = ([.alert, .alert, .success, .recovery], 2) := by
  have hrun : ((pairing sampleConfig sampleTask 0).follow (fun s act => Meets sampleTask s act)
      (pairing sampleConfig sampleTask 0).start sampleActs).map (fun s => (s.log, s.settled)) =
      some ([.alert, .alert, .success, .recovery], 2) := by decide +kernel
  obtain ⟨s, hs, hend⟩ := Option.map_eq_some_iff.mp hrun
  have h : (pairing sampleConfig sampleTask 0).Runs (Meets sampleTask) s :=
    .follow (fun s act hc => of_decide_eq_true hc) .start hs
  exact ⟨s, h, messages_paired _ _ _ _ sample_valid h, hend⟩

/-- Strict alternation of the alerts and recoveries, an alert first. -/
def Alternates (log : List Entry) : Prop :=
  let messages := log.filter fun e => e = .alert || e = .recovery
  messages.head? ≠ some .recovery ∧ messages.IsChain (· ≠ ·)

instance (log : List Entry) : Decidable (Alternates log) := by
  unfold Alternates
  infer_instance

/-- A streak that lasts is alerted again. -/
theorem alert_repeated : ¬∀ config task createdAt s, Valid config →
    (pairing config task createdAt).Runs (Meets task) s → Alternates s.log := by
  intro hclaim
  obtain ⟨s, hruns, -, hlog⟩ := messages_paired_sample
  have halternates := hclaim _ _ _ s sample_valid hruns
  rw [(Prod.mk.inj hlog).1] at halternates
  revert halternates
  decide

/-- An alert that is accepted after its streak has ended stands, and no recovery is owed. -/
theorem overtaken_alert_stands : ∃ s, (pairing sampleConfig sampleTask 0).Runs (fun _ _ => True) s ∧
    s.settled = 2 ∧ lastMessage s.log = some .alert ∧
      (healthOf sampleTask s.store).consecutiveFailures = 0 := by
  have hrun : ((pairing sampleConfig sampleTask 0).follow (fun _ _ => true)
      (pairing sampleConfig sampleTask 0).start
      [.failure sampleTask [] [101] 1, .read 2, .success sampleTask [] 3, .accepted 0, .marked 0 4,
        .read 5, .read 6]).map (fun s => decide (s.settled = 2 ∧ lastMessage s.log = some .alert ∧
          (healthOf sampleTask s.store).consecutiveFailures = 0)) = some true := by
    decide +kernel
  obtain ⟨s, hs, hend⟩ := Option.map_eq_some_iff.mp hrun
  exact ⟨s, .follow (fun _ _ _ => trivial) .start hs, of_decide_eq_true hend⟩

end PulseNull.Scheduler.Pairing
