import PulseNull.Probe.Run

/-! What a run does turn by turn: at most the planned number of CLI starts, and a budget row right
behind each start the quota did not refuse. -/
namespace PulseNull.Probe
open Effects

/-- Every CLI start of the run comes at `lo` or later. -/
def TurnContext.After (c : TurnContext) (lo : Utc) : Prop :=
  ∀ n start reply settled h, c.attempt n = .began start reply settled h → lo ≤ start

/-- The CLI starts among some effects, and whether the quota refused them. -/
def begun (out : List Effect) : List (Utc × Bool) :=
  out.filterMap fun
    | .began start _ refused => some (start, refused)
    | .append _ => none

@[simp] theorem begun_row (r : Row) (out : List Effect) : begun (.append r :: out) = begun out := rfl

@[simp] theorem begun_began (start : Utc) (arm : Arm) (refused : Bool) (out : List Effect) :
    begun (.began start arm refused :: out) = (start, refused) :: begun out := rfl

/-- Each start the quota did not refuse is followed by its budget row. -/
inductive Paid (lo : Utc) : List Effect → Prop where
  | nil : Paid lo []
  | row {out : List Effect} (r : Row) : Paid lo out → Paid lo (.append r :: out)
  | refused {out : List Effect} {start : Utc} (arm : Arm) : lo ≤ start → Paid lo out →
      Paid lo (.began start arm true :: out)
  | spent {out : List Effect} {start : Utc} {b : BudgetRow} (arm : Arm) : lo ≤ start →
      start ≤ b.time → Paid lo out → Paid lo (.began start arm false :: .append (.budget b) :: out)

theorem Paid.append {lo : Utc} {a b : List Effect} (h : Paid lo a) (hb : Paid lo b) :
    Paid lo (a ++ b) := by
  induction h with
  | nil => exact hb
  | row r _ ih => exact .row r ih
  | refused arm hlo _ ih => exact .refused arm hlo ih
  | spent arm hlo hle _ ih => exact .spent arm hlo hle ih

/-- At most `n` starts, each paid for. -/
def Costs (lo : Utc) (n : Nat) (out : List Effect) : Prop := (begun out).length ≤ n ∧ Paid lo out

theorem Costs.nil {lo : Utc} {n : Nat} : Costs lo n [] := ⟨Nat.zero_le _, .nil⟩

theorem Costs.append {lo : Utc} {n k : Nat} {a b : List Effect} (h : Costs lo n a)
    (hb : Costs lo k b) : Costs lo (n + k) (a ++ b) := by
  refine ⟨?_, h.2.append hb.2⟩
  rw [begun, List.filterMap_append, List.length_append]
  exact Nat.add_le_add h.1 hb.1

theorem Costs.mono {lo : Utc} {n k : Nat} {out : List Effect} (h : Costs lo n out) (hk : n ≤ k) :
    Costs lo k out := ⟨h.1.trans hk, h.2⟩

section
variable {lo : Utc} {n k : Nat} {α β : Type}

/-- However it ends, `m` starts at most `n` turns and pays for them. -/
def Spends (lo : Utc) (n : Nat) (m : RunM α) : Prop := Logs m fun out _ => Costs lo n out

theorem Spends.mono {m : RunM α} (h : Spends lo n m) (hk : n ≤ k) : Spends lo k m :=
  Logs.mono h fun _ _ hc => hc.mono hk

theorem Spends.bind {m : RunM α} {f : α → RunM β} (h : Spends lo n m)
    (hf : ∀ a, Spends lo k (f a)) : Spends lo (n + k) (m >>= f) := by
  refine Logs.bind (Logs.mono h fun out r hc => ?_)
  cases r with
  | ok a => exact Logs.mono (hf a) fun out' _ hb => hc.append hb
  | error e => exact hc.mono (Nat.le_add_right n k)

theorem spends_pure (a : α) : Spends lo n (pure a : RunM α) := logs_pure Costs.nil

theorem spends_throw (e : RunError) : Spends lo n (throw e : RunM α) := logs_throw Costs.nil

theorem spends_onTally (f : Tally → Tally) : Spends lo 0 (onTally f) := logs_update Costs.nil

theorem spends_current : Spends lo 0 (current : RunM Progress) := logs_current fun _ => Costs.nil

theorem spends_appendRow (r : Row) : Spends lo 0 (appendRow r) := logs_emit ⟨le_rfl, .row r .nil⟩

theorem spends_isStopped : Spends lo 0 isStopped :=
  Spends.bind (n := 0) (k := 0) spends_current fun _ => spends_pure _

theorem Spends.caught {m : RunM α} (h : Spends lo n m) : Spends lo n (caught m) :=
  (Logs.caught h).mono fun _ _ ⟨_, _, hc⟩ => hc

/-- What starts nothing may come before, or after. -/
theorem Spends.after {m : RunM α} {f : α → RunM β} (h : Spends lo 0 m)
    (hf : ∀ a, Spends lo k (f a)) : Spends lo k (m >>= f) :=
  (Spends.bind h hf).mono (Nat.zero_add k).le

theorem Spends.before {m : RunM α} {f : α → RunM β} (h : Spends lo n m)
    (hf : ∀ a, Spends lo 0 (f a)) : Spends lo n (m >>= f) := Spends.bind h hf

end

section
variable {lo : Utc} {c : TurnContext}

/-- One turn: nothing started, a start the quota refused, or a start and its budget row. -/
inductive OneTurn (lo : Utc) : List Effect → Prop where
  | nothing : OneTurn lo []
  | refused {start : Utc} (arm : Arm) : lo ≤ start → OneTurn lo [.began start arm true]
  | spent {start : Utc} {b : BudgetRow} (arm : Arm) : lo ≤ start → start ≤ b.time →
      OneTurn lo [.began start arm false, .append (.budget b)]

theorem OneTurn.costs {out : List Effect} (h : OneTurn lo out) : Costs lo 1 out := by
  cases h with
  | nothing => exact Costs.nil
  | refused arm hlo => exact ⟨le_rfl, .refused arm hlo .nil⟩
  | spent arm hlo hle => exact ⟨le_rfl, .spent arm hlo hle .nil⟩

private theorem settle_spent {start settled : Utc} (label : Bytes) (arm : Arm) (reply : Reply)
    (hlo : lo ≤ start) (hle : start ≤ settled) :
    Logs (settle c label arm (match reply with
      | .answered run => .answered run settled
      | .signalled => .midTurn signalledText settled
      | .quota e => .quota e
      | .failed e => .failed e settled)) fun out _ =>
      OneTurn lo (.began start arm reply.refused :: out) := by
  cases reply with
  | answered run =>
    refine logs_update_bind (logs_emit_bind (logs_update_bind (logs_pure ?_)))
    exact .spent arm hlo hle
  | signalled =>
    refine logs_emit_bind (logs_update_bind (logs_pure ?_))
    exact .spent arm hlo hle
  | quota e =>
    refine logs_update_bind (logs_pure ?_)
    exact .refused arm hlo
  | failed e =>
    refine logs_emit_bind (logs_current_bind fun p => ?_)
    have hspent : OneTurn lo (.began start arm false :: [.append (.budget
        ⟨settled, c.runId, label, arm, none, none⟩)]) := .spent arm hlo hle
    split
    · exact logs_update_bind (logs_pure hspent)
    · exact logs_pure hspent

/-- An ask and its settling are one turn. -/
theorem oneTurn (h : c.After lo) (label : Bytes) (arm : Arm) :
    Logs (ask c arm >>= settle c label arm) fun out _ => OneTurn lo out := by
  unfold ask nextAttempt
  simp only [bind_assoc, pure_bind]
  refine logs_current_bind fun p => logs_update_bind ?_
  cases ha : c.attempt p.attempts with
  | stopped reason =>
    refine Logs.bind (logs_update_bind (logs_pure ?_))
    exact logs_update_bind (logs_pure OneTurn.nothing)
  | setup e => exact Logs.bind (logs_throw OneTurn.nothing)
  | began start reply settled later =>
    have hs := settle_spent (c := c) label arm reply (h _ _ _ _ _ ha) later
    simp only [bind_assoc, pure_bind]
    exact logs_emit_bind (logs_update_bind hs)

theorem spends_turn (h : c.After lo) (label : Bytes) (arm : Arm) :
    Spends lo 1 (ask c arm >>= settle c label arm) :=
  (oneTurn h label arm).mono fun _ _ ht => ht.costs

private theorem spends_noteSaved (run : CapturedRun) : Spends lo 0 (noteSaved run) := by
  unfold noteSaved
  split
  · exact spends_throw _
  · exact spends_pure _

private theorem spends_recordItems (set : LoadedSet) (arm : Arm) (served : Option Bytes)
    (outcome : Nat → Outcome) (n : Nat) (items : List Item) :
    Spends lo 0 (recordItems c set arm served outcome n items) := by
  induction items generalizing n with
  | nil => exact spends_pure _
  | cons item items ih =>
    exact (spends_appendRow _).after fun _ => (spends_onTally _).after fun _ => ih (n + 1)

theorem spends_runTurn (h : c.After lo) (set : LoadedSet) (arm : Arm) (items : List Item) :
    Spends lo 1 (runTurn c set arm items) := by
  unfold runTurn
  rw [← bind_assoc]
  refine (spends_turn h set.label arm).before fun settled => ?_
  cases settled with
  | answered run => exact (spends_noteSaved run).after fun _ => spends_recordItems _ _ _ _ _ _
  | failed e => exact spends_recordItems _ _ _ _ _ _
  | stopped => exact spends_pure _

/-- The turns one question takes: one for each arm that asks any of its items. -/
def turnsAsking (arms : List Arm) (items : List Item) : Nat :=
  arms.countP fun arm => !(items.filter (asks arm)).isEmpty

private theorem spends_unlessStopped {α : Type} {a : α} {m : RunM α} {n : Nat}
    (h : Spends lo n m) : Spends lo n (do if ← isStopped then return a else m) := by
  refine spends_isStopped.after fun stopped => ?_
  cases stopped with
  | true => exact spends_pure _
  | false => exact h

theorem spends_askArms (h : c.After lo) (set : LoadedSet) (items : List Item) (arms : List Arm) :
    Spends lo (turnsAsking arms items) (askArms c set items arms) := by
  induction arms with
  | nil => exact spends_pure _
  | cons arm arms ih =>
    unfold askArms
    rw [turnsAsking, List.countP_cons]
    by_cases he : (items.filter (asks arm)).isEmpty
    · simpa [he, turnsAsking] using ih
    · simp only [he, Bool.false_eq_true, if_false, Bool.not_false, if_true]
      rw [Nat.add_comm]
      exact Spends.bind (spends_runTurn h set arm _) fun _ => spends_unlessStopped ih

theorem spends_askQuestions (h : c.After lo) (set : LoadedSet) (qs : List (List Item)) :
    Spends lo (qs.map (turnsAsking set.arms)).sum (askQuestions c set qs) := by
  induction qs with
  | nil => exact spends_pure _
  | cons items rest ih =>
    exact Spends.bind (spends_askArms h set items set.arms) fun _ => spends_unlessStopped ih

/-- The turns a set takes in the run. -/
def turnsOf (sha256 : Sha256) (runId : Bytes) (truths : Truths) (set : LoadedSet) : Nat :=
  ((questions sha256 set runId truths).map (turnsAsking set.arms)).sum

theorem spends_askItemSets (h : c.After lo) (sha256 : Sha256) (truths : Truths)
    (sets : List LoadedSet) :
    Spends lo (sets.map (turnsOf sha256 c.runId truths)).sum (askItemSets c sha256 truths sets) := by
  induction sets with
  | nil => exact spends_pure _
  | cons set sets ih =>
    exact Spends.bind (spends_askQuestions h set _) fun _ => spends_unlessStopped ih

private theorem spends_recordPaired (pairs : LoadedPairs) (a : Ask) (o : Outcome)
    (served : Option Bytes) : Spends lo 0 (recordPaired c pairs a o served) :=
  (spends_appendRow _).after fun _ => (spends_onTally _).after fun _ => spends_pure _

theorem spends_runPaired (h : c.After lo) (pairs : LoadedPairs) (a : Ask) :
    Spends lo 1 (runPaired c pairs a) := by
  unfold runPaired
  rw [← bind_assoc]
  refine (spends_turn h pairs.label _).before fun settled => ?_
  cases settled with
  | answered run => exact (spends_noteSaved run).after fun _ => spends_recordPaired _ _ _ _
  | failed e => exact spends_recordPaired _ _ _ _
  | stopped => exact spends_pure _

private theorem spends_recordAsked (a : Ask) (planted : Option Outcome)
    (later : List (Option Outcome)) (missed : List Int) :
    Spends lo 0 (recordAsked c a planted later missed) := by
  induction missed with
  | nil => exact spends_appendRow _
  | cons offset missed ih => exact (spends_appendRow _).after fun _ => ih

theorem spends_askLaterSides (h : c.After lo) (pairs : LoadedPairs) (later : List Ask) :
    Spends lo later.length (askLaterSides c pairs later) := by
  induction later with
  | nil => exact spends_pure _
  | cons a rest ih =>
    unfold askLaterSides
    refine spends_unlessStopped ?_
    rw [List.length_cons, Nat.add_comm]
    refine Spends.bind (spends_runPaired h pairs a).caught fun r => ?_
    cases r with
    | ok outcome => exact ih.before fun _ => spends_pure _
    | error e => exact spends_pure _

theorem spends_askFact (h : c.After lo) (pairs : LoadedPairs) (planted : Ask) (later : List Ask) :
    Spends lo (later.length + 1) (askFact c pairs planted later) := by
  unfold askFact
  rw [Nat.add_comm]
  refine Spends.bind (spends_runPaired h pairs planted) fun r => ?_
  cases r with
  | none => exact spends_pure _
  | some outcome =>
    refine (spends_askLaterSides h pairs later).before fun ⟨outcomes, failure⟩ => ?_
    refine (spends_recordAsked _ _ _ _).after fun _ => ?_
    cases failure with
    | some e => exact spends_throw e
    | none => exact spends_isStopped

theorem spends_askPairedFacts (h : c.After lo) (pairs : LoadedPairs) (asks : List Ask) :
    Spends lo asks.length (askPairedFacts c pairs asks) := by
  fun_induction askPairedFacts c pairs asks with
  | case1 planted twin chance guess rest ih =>
    refine (Spends.bind (spends_askFact h pairs planted [twin, chance, guess]) fun stopped => ?_).mono
      (k := (planted :: twin :: chance :: guess :: rest).length) (n := 4 + rest.length) ?_
    · cases stopped with
      | true => exact spends_pure _
      | false => exact ih
    · simp only [List.length_cons]
      omega
  | case2 => exact spends_pure _

/-- A plan's run starts at most the turns its own draw asks for. -/
theorem spends_runPlan {sha256 : Sha256} {env : RunEnv} {request : RunRequest} {world : World}
    {runId : Bytes} {plan : Plan} (h : TurnContext.After ⟨runId, world.attempt⟩ lo) :
    Spends lo ((plan.sets.map (turnsOf sha256 runId plan.truths)).sum + plan.asks.length)
      (runPlan sha256 env request world runId plan) := by
  have hask : Spends lo ((plan.sets.map (turnsOf sha256 runId plan.truths)).sum + plan.asks.length)
      (askOrStop ⟨runId, world.attempt⟩ sha256 env.pairs plan) := by
    refine Spends.before (Spends.caught ?_) fun r => ?_
    · exact Spends.bind (spends_askItemSets h sha256 plan.truths plan.sets) fun _ =>
        spends_unlessStopped (spends_askPairedFacts h env.pairs plan.asks)
    · cases r with
      | ok u => exact spends_pure _
      | error e => exact spends_onTally _
  unfold runPlan
  refine (spends_appendRow _).after fun _ => ?_
  cases world.graph with
  | error e =>
    exact ((spends_onTally _).mono (Nat.zero_le _)).before fun _ =>
      spends_current.after fun _ => spends_appendRow _
  | ok u => exact hask.before fun _ => spends_current.after fun _ => spends_appendRow _

end
end PulseNull.Probe
