import PulseNull.Scheduler.Pairing

/-! The streak rule and the flap rule over one task: which failing runs each of them reports, at
ticks whose delivery works. Runs are numbered by the successes before them. -/
namespace PulseNull.Scheduler.TwoRules
open Pairing (healthOf signs sampleTask)

/-- A delivered message: an alert of the streak rule about a run, an alert of the flap rule and the
failing run it was sent in, and the all-clear of each rule. -/
inductive Note where
  | alert (run : Nat)
  | flapping (run : Option Nat)
  | recovery
  | flapResolved
  deriving DecidableEq

structure Sys where
  store : TaskHealthStore
  successes : Nat
  log : List Note

inductive Act where
  | success (taskId taskName : Bytes) (now : Instant)
  | failure (taskId taskName error : Bytes) (now : Instant)
  | tick (now delivered : Instant)
  | otherMarked (taskId : Bytes) (alert : LivenessAlert) (now : Instant)
  | globalMarked (alert : LivenessAlert) (now : Instant)

variable (config : LivenessConfig) (task : Bytes)

/-- The failing run the task is in. -/
def Sys.failing (s : Sys) : Option Nat :=
  if 0 < (healthOf task s.store).consecutiveFailures then some s.successes else none

def Sys.note (s : Sys) : LivenessAlert → Option Note
  | .taskFailing _ _ _ _ _ _ => some (.alert s.successes)
  | .taskRecovered _ _ _ _ _ => some .recovery
  | .taskFlapping _ _ _ _ _ => some (.flapping (s.failing task))
  | .taskFlapResolved _ _ _ => some .flapResolved
  | .globalSilence _ _ _ _ _ | .globalRecovered _ _ _ => none

def Sys.step (s : Sys) : Act → Sys
  | .success taskId taskName now => { s with
      store := s.store.recordSuccess taskId taskName now
      successes := if taskId = task then s.successes + 1 else s.successes }
  | .failure taskId taskName error now => { s with
      store := s.store.recordFailure taskId taskName error now }
  | .tick now delivered =>
    match s.store.pendingTaskAlert task config now with
    | some alert => { s with
        store := s.store.markTaskAlertDelivered task alert delivered
        log := s.log ++ (s.note task alert).toList }
    | none => s
  | .otherMarked taskId alert now =>
    if taskId = task then s
    else { s with store := s.store.markTaskAlertDelivered taskId alert now }
  | .globalMarked alert now => { s with store := s.store.markGlobalAlertDelivered alert now }

def watch (createdAt : Instant) : Machine Sys Act :=
  ⟨⟨.new createdAt, 0, []⟩, Sys.step config task⟩

/-- No run that one rule has reported is reported by the other before an all-clear: after an alert of
the streak rule the flap rule is silent until the recovery, and the streak rule says nothing of a run
that a flap alert was sent in. -/
structure Sys.Exclusive (s : Sys) : Prop where
  streakFirst : ∀ early run between flap late,
    s.log = early ++ .alert run :: (between ++ .flapping flap :: late) → .recovery ∈ between
  flapFirst : ∀ early run between late,
    s.log = early ++ .flapping (some run) :: (between ++ .alert run :: late) →
      .recovery ∈ between ∨ .flapResolved ∈ between

/-- The flap rule speaks of a task that is failing, below the threshold of the streak rule. -/
def FlapsWhileFailing (health : TaskHealth) (now : Instant) : Prop :=
  0 < health.consecutiveFailures ∧
    health.consecutiveFailures < config.alertAfterConsecutiveFailures ∧
    health.pendingResolution = none ∧
    (∃ window, flapVerdict health config now = .flapping window) ∧
    alertDue health.flapLastAlertAt health.flapAlertsSent config now = true

def Meets (s : Sys) : Act → Prop
  | .tick now _ => ¬ FlapsWhileFailing config (healthOf task s.store) now
  | _ => True

/-! The invariant. -/

variable {config : LivenessConfig} {task : Bytes}

/-- The last alert of the streak rule has had no recovery. -/
def Unanswered (log : List Note) : Prop :=
  ∃ early run between, log = early ++ .alert run :: between ∧ .recovery ∉ between

/-- Where an item stands in a log that has grown by one. -/
private theorem snoc_split {α : Type} {log early between : List α} {x a : α}
    (h : log ++ [x] = early ++ a :: between) :
    (log = early ∧ x = a ∧ between = []) ∨
      ∃ rest, between = rest ++ [x] ∧ log = early ++ a :: rest := by
  rcases List.eq_nil_or_concat' between with rfl | ⟨rest, last, rfl⟩
  · obtain ⟨rfl, hx⟩ := List.append_inj' h rfl
    exact .inl ⟨rfl, List.singleton_inj.mp hx, rfl⟩
  · rw [← List.cons_append, ← List.append_assoc] at h
    obtain ⟨rfl, hx⟩ := List.append_inj' h rfl
    obtain rfl := List.singleton_inj.mp hx
    exact .inr ⟨rest, rfl, rfl⟩

theorem not_unanswered_recovery (log : List Note) : ¬ Unanswered (log ++ [.recovery]) := by
  rintro ⟨early, run, between, heq, hr⟩
  rcases snoc_split heq with ⟨-, hx, -⟩ | ⟨rest, rfl, -⟩
  · cases hx
  · simp at hr

theorem Unanswered.of_append {log : List Note} {note : Note} (hn : ∀ run, note ≠ .alert run)
    (h : Unanswered (log ++ [note])) : Unanswered log := by
  obtain ⟨early, run, between, heq, hr⟩ := h
  rcases snoc_split heq with ⟨-, hx, -⟩ | ⟨rest, rfl, hlog⟩
  · exact absurd hx (hn run)
  · exact ⟨early, run, rest, hlog, fun h => hr (by simp [h])⟩

/-- While an alert of the streak rule is unanswered, its recovery is owed or its run goes on. -/
structure Sys.Inv (config : LivenessConfig) (task : Bytes) (s : Sys) : Prop where
  bounded : (signs (healthOf task s.store)).failures < 2^32
  held : Unanswered s.log → config.alertAfterConsecutiveFailures = 0 ∨
    (signs (healthOf task s.store)).pending = true ∨
    (0 < (signs (healthOf task s.store)).sent ∧
      config.alertAfterConsecutiveFailures ≤ (signs (healthOf task s.store)).failures)
  streakFirst : ∀ early run between flap late,
    s.log = early ++ .alert run :: (between ++ .flapping flap :: late) → .recovery ∈ between
  apart : ∀ run, .flapping (some run) ∉ s.log

theorem start_inv (createdAt : Instant) : (watch config task createdAt).start.Inv config task := by
  refine ⟨?_, ?_, ?_, ?_⟩
  · change (signs TaskHealth.new).failures < 2^32
    decide
  · rintro ⟨early, run, between, heq, -⟩
    simp [watch] at heq
  · intro early run between flap late heq
    simp [watch] at heq
  · simp [watch]

variable {s : Sys}

theorem le_saturatingSucc {n : Nat} (h : n < 2^32) : n ≤ saturatingSucc n := by
  unfold saturatingSucc
  omega

theorem saturatingSucc_lt (n : Nat) : saturatingSucc n < 2^32 := by
  unfold saturatingSucc
  omega

/-- A step that keeps the log, and the signs that the alert stands on. -/
theorem Sys.Inv.quiet (h : s.Inv config task) {s' : Sys} (hlog : s'.log = s.log)
    (hb : (signs (healthOf task s'.store)).failures < 2^32)
    (hh : config.alertAfterConsecutiveFailures = 0 ∨
        (signs (healthOf task s.store)).pending = true ∨
        (0 < (signs (healthOf task s.store)).sent ∧
          config.alertAfterConsecutiveFailures ≤ (signs (healthOf task s.store)).failures) →
      config.alertAfterConsecutiveFailures = 0 ∨
        (signs (healthOf task s'.store)).pending = true ∨
        (0 < (signs (healthOf task s'.store)).sent ∧
          config.alertAfterConsecutiveFailures ≤ (signs (healthOf task s'.store)).failures)) :
    s'.Inv config task := by
  refine ⟨hb, fun hu => hh (h.held (hlog ▸ hu)), ?_, ?_⟩
  · rw [hlog]
    exact h.streakFirst
  · rw [hlog]
    exact h.apart

theorem Sys.Inv.same (h : s.Inv config task) {s' : Sys} (hlog : s'.log = s.log)
    (hstore : healthOf task s'.store = healthOf task s.store) : s'.Inv config task := by
  refine h.quiet hlog ?_ ?_
  · rw [hstore]
    exact h.bounded
  · rw [hstore]
    exact id

theorem Sys.Inv.success (h : s.Inv config task) (name : Bytes) (now : Instant) :
    (s.step config task (.success task name now)).Inv config task := by
  have hs := @Pairing.signs_recordSuccess task s.store name now
  refine h.quiet rfl ?_ ?_
  · change (signs (healthOf task (s.store.recordSuccess task name now))).failures < 2^32
    rw [hs]
    exact Nat.two_pow_pos 32
  · rintro (h0 | hp | ⟨hsent, -⟩)
    · exact .inl h0
    · refine .inr (.inl ?_)
      change (signs (healthOf task (s.store.recordSuccess task name now))).pending = true
      rw [hs]
      simp [hp]
    · refine .inr (.inl ?_)
      change (signs (healthOf task (s.store.recordSuccess task name now))).pending = true
      rw [hs]
      simp [hsent]

theorem Sys.Inv.failure (h : s.Inv config task) (name error : Bytes) (now : Instant) :
    (s.step config task (.failure task name error now)).Inv config task := by
  have hs := @Pairing.signs_recordFailure task s.store name error now
  have hle := le_saturatingSucc h.bounded
  refine h.quiet rfl ?_ ?_
  · change (signs (healthOf task (s.store.recordFailure task name error now))).failures < 2^32
    rw [hs]
    exact saturatingSucc_lt _
  · change _ → _ ∨ (signs (healthOf task (s.store.recordFailure task name error now))).pending = true ∨
      (0 < (signs (healthOf task (s.store.recordFailure task name error now))).sent ∧
        _ ≤ (signs (healthOf task (s.store.recordFailure task name error now))).failures)
    rw [hs]
    rintro (h0 | hp | ⟨hsent, hfail⟩)
    · exact .inl h0
    · exact .inr (.inl hp)
    · by_cases hzero : (signs (healthOf task s.store)).failures = 0
      · exact .inl (by omega)
      · refine .inr (.inr ⟨?_, hfail.trans hle⟩)
        simpa [hzero] using hsent

/-- What is due, and what the task's health says then. -/
inductive DueNow (config : LivenessConfig) (health : TaskHealth) (now : Instant) :
    LivenessAlert → Prop where
  | recovery (id name : Bytes) (failures : Nat) (started : Option Instant) (recovered : Instant) :
      DueNow config health now (.taskRecovered id name failures started recovered)
  | failing (id name : Bytes) (failures : Nat) (started : Option Instant) (error : Option Bytes)
      (again : Nat) : config.alertAfterConsecutiveFailures ≤ health.consecutiveFailures →
      DueNow config health now (.taskFailing id name failures started error again)
  | flapping (id name : Bytes) (window : FlapWindow) (error : Option Bytes) (again : Nat) :
      health.pendingResolution = none →
      health.consecutiveFailures < config.alertAfterConsecutiveFailures →
      flapVerdict health config now = .flapping window →
      alertDue health.flapLastAlertAt health.flapAlertsSent config now = true →
      DueNow config health now (.taskFlapping id name window error again)
  | flapResolved (id name : Bytes) (window : FlapWindow) :
      DueNow config health now (.taskFlapResolved id name window)

theorem dueNow {store : TaskHealthStore} {now : Instant} {alert : LivenessAlert}
    (h : store.pendingTaskAlert task config now = some alert) :
    DueNow config (healthOf task store) now alert := by
  obtain ⟨health, hl, h⟩ := Option.bind_eq_some_iff.mp h
  have hof : healthOf task store = health := by rw [healthOf, hl, Option.getD_some]
  rw [hof]
  split at h
  · obtain rfl := Option.some.inj h
    exact .recovery _ _ _ _ _
  · next hpending =>
    split at h
    · next hfail =>
      split at h
      · obtain rfl := Option.some.inj h
        exact .failing _ _ _ _ _ _ hfail
      · cases h
    · next hfail =>
      unfold pendingFlapAlert at h
      split at h
      · next window hverdict =>
        split at h
        · next hdue =>
          obtain rfl := Option.some.inj h
          exact .flapping _ _ window _ _ hpending (Nat.lt_of_not_le hfail) hverdict hdue
        · cases h
      · split at h
        · obtain rfl := Option.some.inj h
          exact .flapResolved _ _ _
        · cases h
      · cases h

/-- One more message. A flap alert comes while nothing is unanswered, and in no failing run. -/
theorem Sys.Inv.noted (h : s.Inv config task) {store : TaskHealthStore} {note : Note}
    (hapart : ∀ run, note ≠ .flapping (some run))
    (hflap : ∀ flap, note = .flapping flap → ¬ Unanswered s.log)
    (hb : (signs (healthOf task store)).failures < 2^32)
    (held : Unanswered (s.log ++ [note]) → config.alertAfterConsecutiveFailures = 0 ∨
      (signs (healthOf task store)).pending = true ∨
      (0 < (signs (healthOf task store)).sent ∧
        config.alertAfterConsecutiveFailures ≤ (signs (healthOf task store)).failures)) :
    Sys.Inv config task { s with store := store, log := s.log ++ [note] } := by
  refine ⟨hb, held, fun early run between flap late heq => ?_, fun run hm => ?_⟩
  · rcases snoc_split heq with ⟨-, -, hnil⟩ | ⟨rest, hrest, hlog⟩
    · simp at hnil
    · rcases snoc_split hrest.symm with ⟨rfl, rfl, -⟩ | ⟨late', -, rfl⟩
      · by_contra hr
        exact hflap flap rfl ⟨early, run, rest, hlog, hr⟩
      · exact h.streakFirst early run between flap late' hlog
  · rcases List.mem_append.mp hm with hm | hm
    · exact h.apart run hm
    · exact hapart run (List.mem_singleton.mp hm).symm

theorem Sys.Inv.tick (h : s.Inv config task) {now delivered : Instant}
    (ok : Meets config task s (.tick now delivered)) :
    (s.step config task (.tick now delivered)).Inv config task := by
  simp only [Sys.step]
  cases hdue : s.store.pendingTaskAlert task config now with
  | none => exact h
  | some alert =>
    have hmark := @Pairing.signs_marked _ _ alert delivered
      (Pairing.known_of_due hdue)
    have hcases := dueNow hdue
    cases hcases with
    | recovery id name failures started recovered =>
      refine h.noted (by simp) (by simp) ?_ fun hu => absurd hu (not_unanswered_recovery _)
      rw [hmark]
      exact h.bounded
    | failing id name failures started error again hfail =>
      refine h.noted (by simp) (by simp) ?_ fun _ => .inr (.inr ?_)
      · rw [hmark]
        exact h.bounded
      · rw [hmark]
        refine ⟨?_, hfail⟩
        change 0 < saturatingSucc _
        unfold saturatingSucc
        omega
    | flapping id name window error again hpending hbelow hverdict hladder =>
      -- the task is not failing, and what the flap rule may speak over has been answered
      have hcalm : (healthOf task s.store).consecutiveFailures = 0 := by
        by_contra hne
        exact ok ⟨Nat.pos_of_ne_zero hne, hbelow, hpending, ⟨window, hverdict⟩, hladder⟩
      have hanswered : ¬ Unanswered s.log := by
        intro hu
        rcases h.held hu with h0 | hp | ⟨-, hle⟩
        · omega
        · simp [signs, hpending] at hp
        · exact absurd hbelow (Nat.not_lt.mpr hle)
      have hrun : s.failing task = none := by simp [Sys.failing, hcalm]
      refine h.noted (by simp [hrun]) (fun _ _ => hanswered) ?_ fun hu => ?_
      · rw [hmark]
        exact h.bounded
      · exact absurd (hu.of_append (by simp)) hanswered
    | flapResolved id name window =>
      refine h.noted (by simp) (by simp) ?_ fun hu => ?_
      · rw [hmark]
        exact h.bounded
      · rw [hmark]
        exact h.held (hu.of_append (by simp))

theorem Sys.Inv.step (h : s.Inv config task) {act : Act} (ok : Meets config task s act) :
    (s.step config task act).Inv config task := by
  cases act with
  | success taskId name now =>
    by_cases ht : taskId = task
    · subst ht
      exact h.success name now
    · exact h.same rfl (Pairing.healthOf_recordSuccess_ne ht name now)
  | failure taskId name error now =>
    by_cases ht : taskId = task
    · subst ht
      exact h.failure name error now
    · exact h.same rfl (Pairing.healthOf_recordFailure_ne ht name error now)
  | tick now delivered => exact h.tick ok
  | otherMarked taskId alert now =>
    by_cases ht : taskId = task
    · rw [Sys.step, if_pos ht]
      exact h
    · rw [Sys.step, if_neg ht]
      exact h.same rfl (Pairing.healthOf_marked_ne ht alert now)
  | globalMarked alert now => exact h.same rfl (Pairing.healthOf_globalMarked alert now)

/-- While no flap alert is sent in a failing run, no run is reported by both rules. -/
theorem rules_exclusive {createdAt : Instant}
    (h : (watch config task createdAt).Runs (Meets config task) s) : s.Exclusive := by
  have hinv : s.Inv config task :=
    h.invariant (start_inv createdAt) fun _ _ hs ok => hs.step ok
  refine ⟨hinv.streakFirst, fun early run between late heq => ?_⟩
  exact absurd (by rw [heq]; simp) (hinv.apart run)

/-! A sample task, under the default configuration. -/

def defaultConfig : LivenessConfig := ⟨3, 6, 6, true, 20, 168, 5, 70⟩

instance (health : TaskHealth) (now : Instant) :
    Decidable (FlapsWhileFailing config health now) := by
  have : Decidable (∃ window, flapVerdict health config now = .flapping window) :=
    match h : flapVerdict health config now with
    | .flapping window => .isTrue ⟨window, rfl⟩
    | .insufficient | .healthy _ => .isFalse (by simp)
  unfold FlapsWhileFailing
  infer_instance

instance (s : Sys) : (act : Act) → Decidable (Meets config task s act)
  | .tick _ _ => inferInstanceAs (Decidable (¬ _))
  | .success _ _ _ | .failure _ _ _ _ | .otherMarked _ _ _ | .globalMarked _ _ =>
    inferInstanceAs (Decidable True)

/-- Three failures in a row are reported by the streak rule; later ones, scattered, by the flap rule. -/
theorem rules_exclusive_sample : ∃ s,
    (watch defaultConfig sampleTask 0).Runs (Meets defaultConfig sampleTask) s ∧
      s.Exclusive ∧ s.log = [.alert 0, .recovery, .flapping none] := by
  let acts : List Act := [.failure sampleTask [] [101] 1, .failure sampleTask [] [101] 2,
    .failure sampleTask [] [101] 3, .tick 4 4, .success sampleTask [] 5, .tick 6 6,
    .failure sampleTask [] [101] 7, .failure sampleTask [] [101] 8,
    .success sampleTask [] 9, .failure sampleTask [] [101] 10,
    .success sampleTask [] 11, .tick 12 12]
  have hrun : ((watch defaultConfig sampleTask 0).follow
      (fun s act => Meets defaultConfig sampleTask s act)
      (watch defaultConfig sampleTask 0).start acts).map Sys.log =
      some [.alert 0, .recovery, .flapping none] := by decide +kernel
  obtain ⟨s, hs, hend⟩ := Option.map_eq_some_iff.mp hrun
  have h : (watch defaultConfig sampleTask 0).Runs (Meets defaultConfig sampleTask) s :=
    .follow (fun s act hc => of_decide_eq_true hc) .start hs
  exact ⟨s, h, rules_exclusive h, hend⟩

/-- The flap rule reports a run at its second failure, and the streak rule at its third. -/
theorem run_reported_twice : ∃ s,
    (watch defaultConfig sampleTask 0).Runs (fun _ _ => True) s ∧
      s.log = [.flapping (some 2), .alert 2] ∧ ¬ s.Exclusive := by
  let acts : List Act := [.success sampleTask [] 1, .failure sampleTask [] [101] 2,
    .success sampleTask [] 3, .failure sampleTask [] [101] 4,
    .failure sampleTask [] [101] 5, .tick 6 6, .failure sampleTask [] [101] 7, .tick 8 8]
  have hrun : ((watch defaultConfig sampleTask 0).follow (fun _ _ => true)
      (watch defaultConfig sampleTask 0).start acts).map Sys.log =
      some [.flapping (some 2), .alert 2] := by decide +kernel
  obtain ⟨s, hs, hend⟩ := Option.map_eq_some_iff.mp hrun
  refine ⟨s, .follow (fun _ _ _ => trivial) .start hs, hend, fun hx => ?_⟩
  rcases hx.flapFirst [] 2 [] [] hend with h | h
  · cases h
  · cases h

end PulseNull.Scheduler.TwoRules
