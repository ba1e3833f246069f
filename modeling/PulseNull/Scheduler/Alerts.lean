import PulseNull.Scheduler.Health

/-! The global alarm over time: the watchdog decides, delivers and only then commits, while tasks
succeed and fail. Silences are numbered by the successes before them. -/
namespace PulseNull.Scheduler.Alarm

/-- The store; the message the watchdog is delivering, with the silence it is about; and what
happened: the successes, the silence whose recovery is pending, those whose alert was delivered, and
those whose recovery was. -/
structure Sys where
  store : TaskHealthStore
  delivering : Option (LivenessAlert × Nat)
  successes : Nat
  owed : Option Nat
  alerted : List Nat
  recovered : List Nat

def Sys.start (createdAt : Instant) : Sys := ⟨.new createdAt, none, 0, none, [], []⟩

inductive Act where
  | success (taskId taskName : Bytes) (now : Instant)
  | failure (taskId taskName error : Bytes) (now : Instant)
  | taskDelivered (taskId : Bytes) (alert : LivenessAlert) (now : Instant)
  | tick (enabledTasks : Nat) (now : Instant)
  | accepted (now : Instant)
  | refused

/-- The silence a due message is about. -/
def Sys.about (s : Sys) : LivenessAlert → Nat
  | .globalRecovered _ _ _ => s.owed.getD s.successes
  | _ => s.successes

/-- The webhook accepted the message: it is committed. -/
def Sys.commit (s : Sys) (alert : LivenessAlert) (silence : Nat) (now : Instant) : Sys :=
  let s := { s with store := s.store.markGlobalAlertDelivered alert now, delivering := none }
  match alert with
  | .globalSilence _ _ _ _ _ => { s with alerted := s.alerted ++ [silence] }
  | .globalRecovered _ _ _ => { s with owed := none, recovered := s.recovered ++ [silence] }
  | _ => s

/-- The watchdog is one loop: no tick while a message is under way. -/
def Sys.step (config : LivenessConfig) (s : Sys) : Act → Option Sys
  | .success taskId taskName now => some { s with
      store := s.store.recordSuccess taskId taskName now
      successes := s.successes + 1
      owed := if 0 < s.store.global.alertsSent then some s.successes else none }
  | .failure taskId taskName error now => some { s with
      store := s.store.recordFailure taskId taskName error now }
  | .taskDelivered taskId alert now => some { s with
      store := s.store.markTaskAlertDelivered taskId alert now }
  | .tick enabledTasks now =>
    if s.delivering.isSome then none
    else match s.store.pendingGlobalAlert config enabledTasks now with
      | some alert => some { s with delivering := some (alert, s.about alert) }
      | none => some s
  | .accepted now => do
    let (alert, silence) ← s.delivering
    return s.commit alert silence now
  | .refused => do
    let _ ← s.delivering
    return { s with delivering := none }

inductive Runs (config : LivenessConfig) (ok : Sys → Act → Prop) (s₀ : Sys) : Sys → Prop where
  | start : Runs config ok s₀ s₀
  | step {s s' : Sys} (act : Act) : Runs config ok s₀ s → ok s act →
      s.step config act = some s' → Runs config ok s₀ s'

/-- A recovery is on its way. -/
def Sys.recovering (s : Sys) : Bool := s.delivering.any fun d => d.1.isRecovery

/-- At a tick, the recovery of every silence that was alerted and has ended is pending or was
delivered, once; and no recovery is pending or delivered without an alert. -/
structure Sys.Paired (s : Sys) : Prop where
  pending : s.delivering = none → ∀ k ∈ s.alerted, k < s.successes → k ∉ s.recovered →
    s.owed = some k ∧ s.store.global.pendingResolution.isSome
  once : s.recovered.Nodup
  earned : ∀ k, s.owed = some k ∨ k ∈ s.recovered → k ∈ s.alerted ∧ k < s.successes
  shown : s.owed.isSome = s.store.global.pendingResolution.isSome

/-- What keeps them paired: no task succeeds while a recovery waits that is not on its way; an
alert is accepted before the silence ends; and a recovery that is refused is still pending. -/
def Meets (s : Sys) : Act → Prop
  | .success _ _ _ => s.store.global.pendingResolution.isSome → s.recovering = true
  | .accepted _ => ∀ d ∈ s.delivering, d.1.isRecovery = false → d.2 = s.successes
  | .refused => s.recovering = true → s.store.global.pendingResolution.isSome
  | _ => True

/-! The invariant. -/

/-- The silence has ended, was alerted, and its recovery was not delivered. -/
def Sys.Open (s : Sys) (k : Nat) : Prop := k ∈ s.alerted ∧ k < s.successes ∧ k ∉ s.recovered

structure Sys.Inv (s : Sys) : Prop where
  answered : ∀ k, s.Open k → s.owed = some k ∨ ∃ a, s.delivering = some (a, k) ∧ a.isRecovery = true
  owing : ∀ k, s.owed = some k → s.Open k
  sending : ∀ a k, s.delivering = some (a, k) → a.isRecovery = true →
    s.Open k ∧ ∀ j, s.owed = some j → j = k
  alarming : ∀ a k, s.delivering = some (a, k) → a.isRecovery = false → k ≤ s.successes ∧
    (k = s.successes → s.owed = none) ∧
    ∃ since silentFor ever enabled again, a = .globalSilence since silentFor ever enabled again
  current : 0 < s.store.global.alertsSent ↔ s.successes ∈ s.alerted
  quiet : s.owed.isSome = true ∨ s.recovering = true → s.successes ∉ s.alerted
  past : ∀ k ∈ s.alerted, k ≤ s.successes
  shown : s.owed.isSome = s.store.global.pendingResolution.isSome
  once : s.recovered.Nodup
  earned : ∀ k ∈ s.recovered, k ∈ s.alerted ∧ k < s.successes

variable {s s' : Sys} {config : LivenessConfig}

theorem start_inv (createdAt : Instant) : (Sys.start createdAt).Inv := by
  constructor <;> simp [Sys.start, Sys.Open, Sys.recovering, TaskHealthStore.new, GlobalHealth.new]

/-- An act that leaves the global rule leaves the invariant. -/
theorem Sys.Inv.store (h : s.Inv) {store : TaskHealthStore} (hg : store.global = s.store.global) :
    Sys.Inv { s with store := store } :=
  { h with
    current := by rw [hg]; exact h.current
    shown := by rw [hg]; exact h.shown }

theorem Sys.Inv.success (h : s.Inv) {taskId taskName : Bytes} {now : Instant}
    (ok : Meets s (.success taskId taskName now)) :
    Sys.Inv { s with
      store := s.store.recordSuccess taskId taskName now
      successes := s.successes + 1
      owed := if 0 < s.store.global.alertsSent then some s.successes else none } := by
  have hnew : s.successes + 1 ∉ s.alerted := fun hm => absurd (h.past _ hm) (by omega)
  have hfirst : s.successes ∉ s.recovered := fun hm => absurd (h.earned _ hm).2 (lt_irrefl _)
  have owes : ∀ k, (if 0 < s.store.global.alertsSent then some s.successes else none) = some k →
      k = s.successes ∧ s.successes ∈ s.alerted := by
    intro k hk
    split at hk
    · next ha => exact ⟨(Option.some.inj hk).symm, h.current.mp ha⟩
    · cases hk
  refine
    { answered := ?_, owing := ?_, sending := ?_, alarming := ?_, current := ?_, quiet := ?_
      past := fun k hk => (h.past k hk).trans (Nat.le_succ _), shown := ?_, once := h.once
      earned := fun k hk => ⟨(h.earned k hk).1, (h.earned k hk).2.trans (Nat.lt_succ_self _)⟩ }
  · rintro k ⟨ha, hk, hr⟩
    rcases Nat.lt_succ_iff_lt_or_eq.mp hk with hlt | rfl
    · rcases h.answered k ⟨ha, hlt, hr⟩ with howed | hd
      · -- the pending one is on its way, so it is the one being delivered
        have hrec := ok (by rw [← h.shown, howed]; rfl)
        obtain ⟨⟨a, j⟩, hd, hrec⟩ := (Option.any_eq_true _ _).mp hrec
        obtain rfl := (h.sending a j hd hrec).2 k howed
        exact .inr ⟨a, hd, hrec⟩
      · exact .inr hd
    · exact .inl (if_pos (h.current.mpr ha))
  · intro k hk
    obtain ⟨rfl, ha⟩ := owes k hk
    exact ⟨ha, Nat.lt_succ_self _, hfirst⟩
  · intro a k (hd : s.delivering = some (a, k)) hrec
    obtain ⟨⟨ha, hk, hr⟩, -⟩ := h.sending a k hd hrec
    refine ⟨⟨ha, hk.trans (Nat.lt_succ_self _), hr⟩, fun j hj => ?_⟩
    have hq := h.quiet (.inr (by simp [Sys.recovering, hd, hrec]))
    exact absurd (owes j hj).2 hq
  · intro a k hd hrec
    obtain ⟨hk, -, hsilence⟩ := h.alarming a k hd hrec
    exact ⟨hk.trans (Nat.le_succ _), fun (heq : k = s.successes + 1) => by omega, hsilence⟩
  · simpa using hnew
  · exact fun _ => hnew
  · rw [TaskHealthStore.global_recordSuccess]
    dsimp only
    split <;> rfl

theorem Sys.Inv.tick (h : s.Inv) {enabledTasks : Nat} {now : Instant} {alert : LivenessAlert}
    (hidle : s.delivering = none)
    (hdue : s.store.pendingGlobalAlert config enabledTasks now = some alert) :
    Sys.Inv { s with delivering := some (alert, s.about alert) } := by
  have hopen : ∀ k, s.Open k → s.owed = some k := by
    intro k hk
    rcases h.answered k hk with howed | ⟨a, hd, -⟩
    · exact howed
    · rw [hidle] at hd
      cases hd
  rcases TaskHealthStore.pendingGlobalAlert_cases hdue with ⟨r, hr, rfl⟩ | ⟨hr, ever, rfl⟩
  · obtain ⟨k, hk⟩ := Option.isSome_iff_exists.mp (by rw [h.shown, hr]; rfl : s.owed.isSome = true)
    have hquiet := h.quiet (.inl (by rw [hk]; rfl))
    exact
      { h with
        answered := fun j hj => .inl (hopen j hj)
        sending := fun a j hd _ => by
          obtain ⟨rfl, rfl⟩ := Prod.mk.inj (Option.some.inj hd)
          simp only [Sys.about, hk, Option.getD_some]
          exact ⟨h.owing k hk, fun i hi => (Option.some.inj hi).symm⟩
        alarming := fun a j hd hrec => by
          obtain ⟨rfl, rfl⟩ := Prod.mk.inj (Option.some.inj hd)
          cases hrec
        quiet := fun _ => hquiet }
  · have hnone : s.owed = none := by
      rw [← Option.not_isSome_iff_eq_none, h.shown, hr]
      simp
    exact
      { h with
        answered := fun j hj => .inl (hopen j hj)
        sending := fun a j hd hrec => by
          obtain ⟨rfl, rfl⟩ := Prod.mk.inj (Option.some.inj hd)
          cases hrec
        alarming := fun a j hd _ => by
          obtain ⟨rfl, rfl⟩ := Prod.mk.inj (Option.some.inj hd)
          exact ⟨le_rfl, fun _ => hnone, _, _, _, _, _, rfl⟩
        quiet := fun hq => by
          rcases hq with hq | hq
          · rw [hnone] at hq
            cases hq
          · cases hq }

theorem Sys.Inv.accepted (h : s.Inv) {alert : LivenessAlert} {k : Nat} {now : Instant}
    (hd : s.delivering = some (alert, k)) (ok : Meets s (.accepted now)) :
    (s.commit alert k now).Inv := by
  cases hrec : alert.isRecovery with
  | true =>
    obtain ⟨hopen, honly⟩ := h.sending alert k hd hrec
    have hquiet := h.quiet (.inr (by simp [Sys.recovering, hd, hrec]))
    cases alert with
    | globalRecovered since silentFor taskId =>
      refine
        { answered := fun j hj => ?_
          owing := fun j hj => by cases hj
          sending := fun a j hd => by cases hd
          alarming := fun a j hd => by cases hd
          current := h.current
          quiet := fun _ => hquiet
          past := h.past
          shown := rfl
          once := ?_
          earned := fun j hj => ?_ }
      · obtain ⟨ha, hlt, hr⟩ := hj
        obtain ⟨hr, hne⟩ := not_or.mp (mt List.mem_append.mpr hr)
        rcases h.answered j ⟨ha, hlt, hr⟩ with howed | ⟨a, hd', -⟩
        · exact absurd (List.mem_singleton.mpr (honly j howed)) hne
        · rw [hd] at hd'
          obtain ⟨-, rfl⟩ := Prod.mk.inj (Option.some.inj hd')
          exact absurd (List.mem_singleton_self _) hne
      · exact List.nodup_append.mpr ⟨h.once, List.nodup_singleton _, fun j hj i hi heq =>
          hopen.2.2 ((List.mem_singleton.mp hi) ▸ heq ▸ hj)⟩
      · rcases List.mem_append.mp hj with hj | hj
        · exact h.earned j hj
        · rw [List.mem_singleton.mp hj]
          exact ⟨hopen.1, hopen.2.1⟩
    | _ => cases hrec
  | false =>
    obtain ⟨hle, hcalm, since, silentFor, ever, enabled, again, rfl⟩ := h.alarming alert k hd hrec
    have hk : k = s.successes := ok (_, k) hd hrec
    subst hk
    have hnone := hcalm rfl
    have hopen : ∀ j, Sys.Open (s.commit (.globalSilence since silentFor ever enabled again)
        s.successes now) j → s.Open j := by
      rintro j ⟨ha, hlt, hr⟩
      refine ⟨?_, hlt, hr⟩
      rcases List.mem_append.mp ha with ha | ha
      · exact ha
      · rw [List.mem_singleton.mp ha] at hlt
        exact absurd hlt (lt_irrefl _)
    refine
      { answered := fun j hj => ?_
        owing := fun j hj => ?_
        sending := fun a j hd => by cases hd
        alarming := fun a j hd => by cases hd
        current := ?_
        quiet := fun hq => ?_
        past := fun j hj => ?_
        shown := h.shown
        once := h.once
        earned := fun j hj => ⟨List.mem_append_left _ (h.earned j hj).1, (h.earned j hj).2⟩ }
    · rcases h.answered j (hopen j hj) with howed | ⟨a, hd', ha⟩
      · exact .inl howed
      · rw [hd] at hd'
        obtain ⟨rfl, -⟩ := Prod.mk.inj (Option.some.inj hd')
        cases ha
    · rw [show s.owed = some j from hj] at hnone
      cases hnone
    · exact iff_of_true (by simp [Sys.commit, TaskHealthStore.markGlobalAlertDelivered, saturatingSucc])
        (List.mem_append_right _ (List.mem_singleton_self _))
    · rcases hq with hq | hq
      · rw [show (s.commit _ _ now).owed = s.owed from rfl, hnone] at hq
        cases hq
      · cases hq
    · rcases List.mem_append.mp hj with hj | hj
      · exact h.past j hj
      · rw [List.mem_singleton.mp hj]
        exact le_rfl

theorem Sys.Inv.refused (h : s.Inv) (ok : Meets s .refused) : Sys.Inv { s with delivering := none } := by
  refine
    { h with
      answered := fun k hk => ?_
      sending := fun a k hd => by cases hd
      alarming := fun a k hd => by cases hd
      quiet := fun hq => h.quiet (hq.imp_right fun hq => by cases hq) }
  rcases h.answered k hk with howed | ⟨a, hd, hrec⟩
  · exact .inl howed
  · have hsome := ok (by simp [Sys.recovering, hd, hrec])
    rw [← h.shown] at hsome
    obtain ⟨j, hj⟩ := Option.isSome_iff_exists.mp hsome
    obtain rfl := (h.sending a k hd hrec).2 j hj
    exact .inl hj

theorem Sys.Inv.step {act : Act} (h : s.Inv) (ok : Meets s act)
    (hs : s.step config act = some s') : s'.Inv := by
  cases act with
  | success taskId taskName now =>
    obtain rfl := Option.some.inj hs
    exact h.success ok
  | failure taskId taskName error now =>
    obtain rfl := Option.some.inj hs
    exact h.store rfl
  | taskDelivered taskId alert now =>
    obtain rfl := Option.some.inj hs
    exact h.store (TaskHealthStore.global_markTaskAlertDelivered _ _ _ _)
  | tick enabledTasks now =>
    simp only [Sys.step] at hs
    split at hs
    · cases hs
    · next hidle =>
      split at hs
      · next hdue =>
        obtain rfl := Option.some.inj hs
        exact h.tick (by simpa using hidle) hdue
      · obtain rfl := Option.some.inj hs
        exact h
  | accepted now =>
    obtain ⟨⟨alert, k⟩, hd, hs⟩ := Option.bind_eq_some_iff.mp hs
    obtain rfl := Option.some.inj hs
    exact h.accepted hd ok
  | refused =>
    obtain ⟨_, -, hs⟩ := Option.bind_eq_some_iff.mp hs
    obtain rfl := Option.some.inj hs
    exact h.refused ok

/-- While no recovery is overtaken by a success and no alert by the end of its silence, alerts and
recoveries pair up. -/
theorem recoveries_paired {createdAt : Instant} (h : Runs config Meets (.start createdAt) s) :
    s.Paired := by
  have hinv : s.Inv := by
    induction h with
    | start => exact start_inv createdAt
    | step act _ ok hs ih => exact ih.step ok hs
  refine ⟨fun hidle k ha hk hr => ?_, hinv.once, fun k hk => ?_, hinv.shown⟩
  · rcases hinv.answered k ⟨ha, hk, hr⟩ with howed | ⟨a, hd, -⟩
    · exact ⟨howed, by rw [← hinv.shown, howed]; rfl⟩
    · rw [hidle] at hd
      cases hd
  · rcases hk with hk | hk
    · exact ⟨(hinv.owing k hk).1, (hinv.owing k hk).2.1⟩
    · exact hinv.earned k hk

/-! A sample pulse: silent after an hour, with one task. -/

def sampleConfig : LivenessConfig := ⟨3, 1, 6, true, 20, 168, 5, 50⟩

def sampleTask : Bytes := Text.ascii "think"

/-- An hour, in nanoseconds. -/
def hour : Int := 3600000000000

/-- The state after `acts`, each of them checked first. -/
def Sys.follow (config : LivenessConfig) (check : Sys → Act → Bool) (s : Sys) (acts : List Act) :
    Option Sys :=
  acts.foldlM (fun s act => if check s act then s.step config act else none) s

theorem Runs.follow {check : Sys → Act → Bool} {ok : Sys → Act → Prop}
    (hok : ∀ s act, check s act = true → ok s act) {s₀ : Sys} (h : Runs config ok s₀ s)
    {acts : List Act} (hs : s.follow config check acts = some s') : Runs config ok s₀ s' := by
  induction acts generalizing s with
  | nil => exact Option.some.inj hs ▸ h
  | cons act acts ih =>
    rw [Sys.follow, List.foldlM_cons] at hs
    obtain ⟨next, hnext, hs⟩ := Option.bind_eq_some_iff.mp hs
    split at hnext
    · next hc => exact ih (h.step act (hok s act hc) hnext) hs
    · cases hnext

instance (s : Sys) : (act : Act) → Decidable (Meets s act)
  | .success _ _ _ | .refused => inferInstanceAs (Decidable (_ → _))
  | .accepted _ => inferInstanceAs (Decidable (∀ d ∈ s.delivering, _ → _))
  | .failure _ _ _ _ | .taskDelivered _ _ _ | .tick _ _ => inferInstanceAs (Decidable True)

/-- An alert is delivered, the silence ends, the recovery is refused once and then delivered. -/
theorem recoveries_paired_sample : ∃ s, Runs sampleConfig Meets (.start 0) s ∧ s.Paired ∧
    (s.alerted, s.recovered, s.successes) = ([0], [0], 1) := by
  have hrun : ((Sys.start 0).follow sampleConfig (fun s act => Meets s act)
      [.failure sampleTask [] [101] 1, .tick 1 (2 * hour), .accepted (2 * hour),
        .success sampleTask [] (3 * hour), .tick 1 (4 * hour), .refused, .tick 1 (5 * hour),
        .accepted (5 * hour)]).map (fun s => (s.alerted, s.recovered, s.successes)) =
      some ([0], [0], 1) := by decide +kernel
  obtain ⟨s, hs, hend⟩ := Option.map_eq_some_iff.mp hrun
  have h : Runs sampleConfig Meets (.start 0) s :=
    .follow (fun s act hc => of_decide_eq_true hc) .start hs
  exact ⟨s, h, recoveries_paired h, hend⟩

/-- The alert is delivered, and two tasks succeed before the next tick: nothing is pending. -/
theorem second_success_erases : ∃ s, Runs sampleConfig (fun _ _ => True) (.start 0) s ∧
    (s.delivering.isSome, s.alerted, s.recovered, s.successes,
      s.store.global.pendingResolution) = (false, [0], [], 2, none) := by
  have hrun : ((Sys.start 0).follow sampleConfig (fun _ _ => true)
      [.tick 1 (2 * hour), .accepted (2 * hour), .success sampleTask [] (3 * hour),
        .success sampleTask [] (3 * hour + 1)]).map (fun s => (s.delivering.isSome, s.alerted,
          s.recovered, s.successes, s.store.global.pendingResolution)) =
      some (false, [0], [], 2, none) := by decide +kernel
  obtain ⟨s, hs, hend⟩ := Option.map_eq_some_iff.mp hrun
  exact ⟨s, .follow (fun _ _ _ => trivial) .start hs, hend⟩

end PulseNull.Scheduler.Alarm
