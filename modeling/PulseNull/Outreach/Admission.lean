import PulseNull.Checked
import PulseNull.Outreach.Store

/-! Judging a candidate: quiet hours, the daily cap that the response rate may halve, and the gate,
decided and recorded in one locked update of the log. -/
namespace PulseNull.Outreach

/-- `atFloor responded messages` is the comparison of the response rate with its floor. -/
structure OutreachConfig where
  enabled : Bool
  quietHoursStart : Nat
  quietHoursEnd : Nat
  capFinding : Nat
  capDevelopment : Nat
  capCallback : Nat
  feedbackWindow : Nat
  atFloor : Nat → Nat → Bool

/-- `none` is uncapped. -/
def OutreachConfig.capFor (c : OutreachConfig) : SalienceKind → Option Nat
  | .finding => some c.capFinding
  | .development => some c.capDevelopment
  | .callback => some c.capCallback
  | .blocking => none

structure OutreachCandidate where
  kind : SalienceKind
  threadId : Option Bytes
  headline : Bytes
  evidence : Bytes
  deriving DecidableEq

/-! The cap in force. -/

structure Tightening where
  kind : SalienceKind
  baseCap : Nat
  tightenedCap : Nat
  window : Nat
  deriving DecidableEq

/-- How many of the last `window` were answered, once there are that many. -/
def responses (store : OutreachStore) (kind : SalienceKind) (window : Nat) : Option Nat :=
  if window = 0 then none
  else
    let recent := store.recent kind window
    if recent.length < window then none else some (recent.countP SentMessage.responded)

def tightening (store : OutreachStore) (config : OutreachConfig) (kind : SalienceKind) :
    Option Tightening := do
  let baseCap ← config.capFor kind
  let responded ← responses store kind config.feedbackWindow
  if config.atFloor responded config.feedbackWindow then none
  else some ⟨kind, baseCap, baseCap / 2, config.feedbackWindow⟩

/-- `none` is uncapped. -/
def effectiveCap (store : OutreachStore) (config : OutreachConfig) (kind : SalienceKind) :
    Option Nat := do
  let baseCap ← config.capFor kind
  return (tightening store config kind).elim baseCap Tightening.tightenedCap

/-- The notice still owed; a tightening that has lifted is forgotten. -/
def reconcileTightening (store : OutreachStore) (config : OutreachConfig) (kind : SalienceKind) :
    OutreachStore × Option Tightening :=
  match tightening store config kind with
  | none => (store.clearAnnouncement kind, none)
  | some t =>
    if (store.announced kind).any fun a => a.tightenedCap = t.tightenedCap then (store, none)
    else (store, some t)

/-! The decision. -/

/-- The window may go over midnight; an empty one is no window. -/
def isQuietHour (hour start fin : Nat) : Bool :=
  if start = fin then false
  else if start < fin then start ≤ hour && hour < fin
  else start ≤ hour || hour < fin

def checkQuietHours (kind : SalienceKind) (localHour : Nat) (config : OutreachConfig) :
    Except RejectionReason Unit :=
  if kind = .blocking then .ok ()
  else if isQuietHour localHour config.quietHoursStart config.quietHoursEnd then
    .error (.quietHours localHour)
  else .ok ()

def checkCap (sentToday : Nat) : Option Nat → Except RejectionReason Unit
  | none => .ok ()
  | some cap => if sentToday < cap then .ok () else .error (.dailyCapReached cap sentToday)

inductive Decision where
  | admitted (id : Bytes)
  | rejected (reason : RejectionReason)
  deriving DecidableEq

structure Admission where
  decision : Decision
  pendingNotice : Option Tightening
  deriving DecidableEq

/-- What a decision depends on besides the log: the candidate, the config, the timezone, the time,
the id a message would get, and the gate, which sees the log too. -/
structure Inputs where
  candidate : OutreachCandidate
  config : OutreachConfig
  tz : Tz
  now : Instant
  id : Bytes
  gate : OutreachStore → Except RejectionReason Cost

def Inputs.message (i : Inputs) (cost : Cost) : SentMessage :=
  ⟨i.id, i.candidate.kind, i.candidate.threadId, i.candidate.headline, i.candidate.evidence, cost,
    i.now, none, none⟩

/-- Timing, then budget, then the gate: the cost of the message, or why it does not go. -/
def Inputs.judge (i : Inputs) (store : OutreachStore) : Except RejectionReason Cost := do
  checkQuietHours i.candidate.kind (i.tz.localHour i.now) i.config
  checkCap (store.sentToday i.candidate.kind i.tz i.now)
    (effectiveCap store i.config i.candidate.kind)
  i.gate store

def Inputs.decide (i : Inputs) (store : OutreachStore) : OutreachStore × Decision :=
  match i.judge store with
  | .ok cost => (store.recordSent (i.message cost), .admitted i.id)
  | .error reason => (store, .rejected reason)

/-- The update of the log, and the admission. -/
def Inputs.apply (i : Inputs) (store : OutreachStore) : OutreachStore × Admission :=
  let (store, notice) := reconcileTightening store i.config i.candidate.kind
  match i.decide store with
  | (store, .rejected reason) =>
    (store.recordRejection ⟨i.candidate.kind, i.candidate.headline, reason, i.now⟩,
      ⟨.rejected reason, notice⟩)
  | (store, .admitted id) => (store, ⟨.admitted id, notice⟩)

/-- Nothing goes out when the log cannot be read or written. -/
def admitCandidate (f : StoreFile) (renamed written : Bool) (detail : Bytes) (i : Inputs) :
    StoreFile × Admission :=
  if !i.config.enabled then (f, ⟨.rejected .disabled, none⟩)
  else match saveDelta f renamed written i.apply with
    | (f, some admission) => (f, admission)
    | (f, none) => (f, ⟨.rejected (.storeUnavailable detail), none⟩)

@[simp] theorem sent_reconcileTightening (store : OutreachStore) (config : OutreachConfig)
    (kind : SalienceKind) : (reconcileTightening store config kind).1.sent = store.sent := by
  unfold reconcileTightening
  split
  · rfl
  · split <;> rfl

theorem checkCap_ok {sentToday : Nat} {cap : Option Nat} (h : checkCap sentToday cap = .ok ()) :
    ∀ n ∈ cap, sentToday < n := by
  rintro n rfl
  by_contra hn
  rw [checkCap, if_neg hn] at h
  cases h

/-- The cap in force is the configured one, or half of it. -/
theorem effectiveCap_le {store : OutreachStore} {config : OutreachConfig} {kind : SalienceKind}
    {cap : Nat} (h : effectiveCap store config kind = some cap) :
    ∃ base, config.capFor kind = some base ∧ cap ≤ base := by
  obtain ⟨base, hb, h⟩ := Option.bind_eq_some_iff.mp h
  obtain rfl := Option.some.inj h
  refine ⟨base, hb, ?_⟩
  cases ht : tightening store config kind with
  | none => exact le_rfl
  | some t =>
    obtain ⟨base', hb', ht⟩ := Option.bind_eq_some_iff.mp ht
    obtain ⟨_, -, ht⟩ := Option.bind_eq_some_iff.mp ht
    obtain rfl : base = base' := Option.some.inj (hb.symm.trans hb')
    split at ht
    · cases ht
    · obtain rfl := Option.some.inj ht
      exact Nat.div_le_self _ _

/-- The cap in force depends on what was sent only. -/
theorem effectiveCap_congr {store store' : OutreachStore} (h : store.sent = store'.sent)
    (config : OutreachConfig) (kind : SalienceKind) :
    effectiveCap store config kind = effectiveCap store' config kind := by
  unfold effectiveCap tightening responses OutreachStore.recent
  rw [h]

/-- An update either records nothing as sent, or the message of a candidate under its cap. -/
theorem apply_cases (i : Inputs) (store : OutreachStore) :
    ((∀ id, (i.apply store).2.decision ≠ .admitted id) ∧ (i.apply store).1.sent = store.sent) ∨
    (∃ cost, (i.apply store).2.decision = .admitted i.id ∧
      (i.apply store).1.sent = pruneFront (store.sent ++ [i.message cost]) maxSent ∧
      ∀ cap ∈ effectiveCap store i.config i.candidate.kind,
        store.sentToday i.candidate.kind i.tz i.now < cap) := by
  have hsent := sent_reconcileTightening store i.config i.candidate.kind
  unfold Inputs.apply Inputs.decide
  dsimp only
  cases hj : i.judge (reconcileTightening store i.config i.candidate.kind).1 with
  | error reason => exact .inl ⟨fun id => nofun, hsent⟩
  | ok cost =>
    obtain ⟨_, -, hj⟩ := bind_eq_ok.mp hj
    obtain ⟨_, hcap, -⟩ := bind_eq_ok.mp hj
    refine .inr ⟨cost, rfl, ?_, ?_⟩
    · simp [OutreachStore.recordSent]
    · rw [effectiveCap_congr hsent, OutreachStore.sentToday, hsent] at hcap
      exact checkCap_ok hcap

end PulseNull.Outreach
