import PulseNull.Probe.Launches

/-! The weekly budget of model turns: what the gate admits a run for covers what its draw asks, and
the turns spent in a local week stay within the budget. -/
namespace PulseNull.Probe
variable {sha256 : Sha256}

/-- The turns of `turnsFor`, not cut to a `u32`. -/
def LoadedSet.cost (s : LoadedSet) (drawn : List Item) : Nat :=
  match s.delivery with
  | .batched => s.arms.length
  | .perItem => s.arms.length * drawn.length -
      if s.arms.contains .inputOnly then skipped drawn else 0

theorem turnsFor_eq (s : LoadedSet) (drawn : List Item) :
    s.turnsFor drawn = min (s.cost drawn) u32Max := by
  unfold LoadedSet.turnsFor LoadedSet.cost
  cases s.delivery with
  | batched => rfl
  | perItem =>
    by_cases hio : s.arms.contains .inputOnly <;>
      simp only [hio, Bool.false_eq_true, if_true, if_false, Nat.sub_zero]

/-- The drawn items the input-only arm is spared. -/
def LoadedSet.spared (s : LoadedSet) (drawn : List Item) : Nat :=
  if s.delivery = .perItem ∧ s.arms.contains .inputOnly then skipped drawn else 0

private theorem cost_add_spared (s : LoadedSet) (drawn : List Item) :
    s.cost drawn + s.spared drawn = match s.delivery with
      | .batched => s.arms.length
      | .perItem => s.arms.length * drawn.length := by
  unfold LoadedSet.cost LoadedSet.spared
  cases s.delivery with
  | batched => simp
  | perItem =>
    by_cases hio : s.arms.contains .inputOnly
    · have harms : 1 ≤ s.arms.length :=
        List.length_pos_of_mem (List.contains_iff_mem.mp hio)
      have hskip : skipped drawn ≤ s.arms.length * drawn.length :=
        List.countP_le_length.trans (Nat.le_mul_of_pos_left _ harms)
      simp only [hio, and_self, if_true]
      omega
    · simp only [hio, Bool.false_eq_true, and_false, if_false, Nat.sub_zero, Nat.add_zero]

/-- What a set costs and what it is spared come to the same under every seed. -/
theorem cost_add_spared_seed (s : LoadedSet) (truths : Truths) (runId runId' : Bytes) :
    s.cost (draw sha256 s runId truths) + s.spared (draw sha256 s runId truths) =
      s.cost (draw sha256 s runId' truths) + s.spared (draw sha256 s runId' truths) := by
  rw [cost_add_spared, cost_add_spared]
  cases s.delivery with
  | batched => rfl
  | perItem => rw [draw, draw, drawScorable_length]

private theorem turnsAsking_one (arms : List Arm) (item : Item) :
    turnsAsking arms [item] + (if arms.contains .inputOnly ∧ asks .inputOnly item = false then 1
      else 0) ≤ arms.length := by
  have hlen := List.length_eq_countP_add_countP (fun arm => asks arm item) (l := arms)
  have hasks : turnsAsking arms [item] = arms.countP fun arm => asks arm item := by
    unfold turnsAsking
    refine List.countP_congr fun arm _ => ?_
    cases ha : asks arm item <;> simp [List.filter, ha]
  split
  · next h =>
    have hpos : 0 < arms.countP fun arm => !asks arm item :=
      List.countP_pos_iff.mpr ⟨.inputOnly, List.contains_iff_mem.mp h.1, by simp [h.2]⟩
    have : (arms.countP fun arm => decide ¬asks arm item = true) =
        arms.countP fun arm => !asks arm item := List.countP_congr fun arm _ => by simp
    omega
  · omega

/-- A set's turns in the run are at most what its draw costs. -/
theorem turnsOf_le (s : LoadedSet) (truths : Truths) (runId : Bytes) :
    turnsOf sha256 runId truths s ≤ s.cost (draw sha256 s runId truths) := by
  unfold turnsOf questions LoadedSet.cost
  cases s.delivery with
  | batched =>
    simp only [List.map_cons, List.map_nil, List.sum_cons, List.sum_nil, Nat.add_zero]
    exact List.countP_le_length
  | perItem =>
    simp only [List.map_map]
    refine Nat.le_sub_of_add_le ?_
    induction draw sha256 s runId truths with
    | nil => simp [skipped]
    | cons item drawn ih =>
      have h1 := turnsAsking_one s.arms item
      simp only [List.map_cons, List.sum_cons, Function.comp_apply, List.length_cons, Nat.mul_succ,
        skipped, List.countP_cons] at ih ⊢
      by_cases hio : s.arms.contains .inputOnly
      · simp only [hio, if_true, true_and] at ih h1 ⊢
        cases ha : asks .inputOnly item <;> simp only [ha, Bool.not_false, Bool.not_true, if_true,
          Bool.false_eq_true, if_false, reduceCtorEq] at h1 ⊢ <;> omega
      · simp only [hio, Bool.false_eq_true, if_false, false_and] at ih h1 ⊢
        omega

/-- The items the input-only arms of the sets are spared under a seed. -/
def sparedUnder (sha256 : Sha256) (sets : List LoadedSet) (truths : Truths) (seed : Bytes) : Nat :=
  (sets.map fun s => s.spared (draw sha256 s seed truths)).sum

def costUnder (sha256 : Sha256) (sets : List LoadedSet) (truths : Truths) (seed : Bytes) : Nat :=
  (sets.map fun s => s.cost (draw sha256 s seed truths)).sum

private theorem costUnder_add (sets : List LoadedSet) (truths : Truths) (seed seed' : Bytes) :
    costUnder sha256 sets truths seed + sparedUnder sha256 sets truths seed =
      costUnder sha256 sets truths seed' + sparedUnder sha256 sets truths seed' := by
  unfold costUnder sparedUnder
  induction sets with
  | nil => rfl
  | cons s sets ih =>
    have hs := @cost_add_spared_seed sha256 s truths seed seed'
    simp only [List.map_cons, List.sum_cons]
    omega

private theorem turns_le_costUnder (sets : List LoadedSet) (truths : Truths) (runId : Bytes) :
    (sets.map (turnsOf sha256 runId truths)).sum ≤ costUnder sha256 sets truths runId := by
  unfold costUnder
  induction sets with
  | nil => exact le_rfl
  | cons s sets ih =>
    simp only [List.map_cons, List.sum_cons]
    exact Nat.add_le_add (turnsOf_le s truths runId) ih

private theorem sum_turnsFor (sets : List LoadedSet) (truths : Truths) (seed : Bytes)
    (h : costUnder sha256 sets truths seed ≤ u32Max) :
    (sets.map fun s => s.turnsFor (draw sha256 s seed truths)).sum =
      costUnder sha256 sets truths seed := by
  unfold costUnder at h ⊢
  induction sets with
  | nil => rfl
  | cons s sets ih =>
    simp only [List.map_cons, List.sum_cons] at h ⊢
    rw [ih (by omega), turnsFor_eq, min_eq_left (by omega)]

/-- The turns a plan comes to, its sums within a `u32`. -/
theorem planned_eq {sets : List LoadedSet} {asks : List Ask} {truths : Truths}
    (h : costUnder sha256 sets truths (Text.ascii "plan") + asks.length < 2^32) :
    planned sha256 sets asks truths =
      costUnder sha256 sets truths (Text.ascii "plan") + asks.length := by
  have hmax : u32Max = 2^32 - 1 := rfl
  rw [planned, sum_turnsFor _ _ _ (by omega), min_eq_left (by omega), Nat.mod_eq_of_lt h]

/-- What the claim of a budget rests on at each run: its own draw spares the input-only arms as
much as the plan's did, the sums stay within a `u32`, and no crash falls between a turn's start and
its budget row. -/
structure Setting.Fits (g : Setting) (s : Sys) (l : Launch) (runId : Bytes) (plan : Plan) : Prop where
  spared : sparedUnder g.sha256 plan.sets plan.truths (Text.ascii "plan") ≤
    sparedUnder g.sha256 plan.sets plan.truths runId
  sums : turnsThisWeek (History.fromRecord s.record) g.tz l.lockedNow +
    costUnder g.sha256 plan.sets plan.truths (Text.ascii "plan") + plan.asks.length < 2^32
  paid : ∀ start arm, (g.effects l runId plan).getLast? ≠ some (.began start arm false)

def Setting.Within (g : Setting) (s : Sys) : Act → Prop
  | .launch l => ∀ runId plan, g.plan s.record l = some (runId, plan) → g.Fits s l runId plan
  | _ => True

/-- The part of a paid run that does not end in a start is paid. -/
theorem Paid.of_prefix {lo : Utc} {out cut : List Effect} (h : Paid lo out) (hp : cut <+: out)
    (hlast : ∀ start arm, cut.getLast? ≠ some (.began start arm false)) : Paid lo cut := by
  induction h generalizing cut with
  | nil => rw [List.prefix_nil.mp hp]; exact .nil
  | row r _ ih =>
    rcases List.prefix_cons_iff.mp hp with rfl | ⟨rest, rfl, hrest⟩
    · exact .nil
    · refine .row r (ih hrest fun start arm he => hlast start arm ?_)
      rw [List.getLast?_cons, he, Option.getD_some]
  | refused arm hlo _ ih =>
    rcases List.prefix_cons_iff.mp hp with rfl | ⟨rest, rfl, hrest⟩
    · exact .nil
    · refine .refused arm hlo (ih hrest fun start arm he => hlast start arm ?_)
      rw [List.getLast?_cons, he, Option.getD_some]
  | @spent out start b arm hlo hle _ ih =>
    rcases List.prefix_cons_iff.mp hp with rfl | ⟨rest, rfl, hrest⟩
    · exact .nil
    · rcases List.prefix_cons_iff.mp hrest with rfl | ⟨rest', rfl, hrest'⟩
      · exact absurd rfl (hlast start arm)
      · refine .spent arm hlo hle (ih hrest' fun start arm he => hlast start arm ?_)
        rw [List.getLast?_cons, List.getLast?_cons, he, Option.getD_some, Option.getD_some]

/-- The budget rows among some effects. -/
def budgetRows (out : List Effect) : List BudgetRow :=
  out.filterMap fun
    | .append (.budget b) => some b
    | _ => none

@[simp] theorem budgetRows_budget (b : BudgetRow) (out : List Effect) :
    budgetRows (.append (.budget b) :: out) = b :: budgetRows out := rfl

@[simp] theorem budgetRows_began (start : Utc) (arm : Arm) (refused : Bool) (out : List Effect) :
    budgetRows (.began start arm refused :: out) = budgetRows out := rfl

theorem apply_budget (out : List Effect) (record : Record) :
    (out.foldl Record.apply record).budget = record.budget ++ budgetRows out := by
  induction out generalizing record with
  | nil => simp [budgetRows]
  | cons e out ih =>
    rw [List.foldl_cons, ih]
    rcases e with _ | (r | r | r | b) <;> simp [Record.apply, Record.append, budgetRows]

/-- Turns spent from `x` on. -/
def spentFrom (x : Utc) (begun : List (Utc × Bool)) : Nat := begun.countP fun b => !b.2 && x ≤ b.1

/-- Paid turns have their rows, and these are not earlier. -/
theorem Paid.spentFrom_le {lo : Utc} {out : List Effect} (h : Paid lo out) (x : Utc) :
    spentFrom x (begun out) ≤ (budgetRows out).countP fun b => x ≤ b.time := by
  induction h with
  | nil => exact le_rfl
  | row r _ ih =>
    rw [begun_row]
    rcases r with r | r | r | b
    · exact ih
    · exact ih
    · exact ih
    · rw [budgetRows_budget, List.countP_cons]
      exact ih.trans (Nat.le_add_right _ _)
  | refused arm _ _ ih =>
    rw [begun_began, budgetRows_began, spentFrom, List.countP_cons]
    simpa [spentFrom] using ih
  | @spent out start b arm _ hle _ ih =>
    rw [begun_began, begun_row, budgetRows_began, budgetRows_budget, spentFrom, List.countP_cons,
      List.countP_cons]
    refine Nat.add_le_add ih ?_
    by_cases hx : x ≤ start
    · simp [hx, hx.trans hle]
    · simp [hx]

theorem Paid.start_ge {lo : Utc} {out : List Effect} (h : Paid lo out) :
    ∀ b ∈ begun out, lo ≤ b.1 := by
  induction h with
  | nil => simp [begun]
  | row r _ ih => exact ih
  | refused arm hlo _ ih => exact List.forall_mem_cons.mpr ⟨hlo, ih⟩
  | spent arm hlo _ _ ih => exact List.forall_mem_cons.mpr ⟨hlo, ih⟩

/-- What a timezone's clock does whose weeks all have a Monday midnight: the earliest instant with
that local clock is not after the rest of the week, and later instants fall in no earlier week. -/
structure Tz.Weeks (tz : Tz) : Prop where
  midnight : ∀ t, ∃ s, tz.earliest (tz.monday t * dayNanos) = some s ∧
    tz.localOf s = tz.monday t * dayNanos ∧ s ≤ t
  forward : ∀ t t', t ≤ t' → tz.monday t ≤ tz.monday t'

section
variable {tz : Tz}

private theorem monday_of_midnight {s t : Utc} (h : tz.localOf s = tz.monday t * dayNanos) :
    tz.monday s = tz.monday t := by
  have hday : tz.date s = tz.monday t := by
    rw [Tz.date, h]
    exact Int.mul_ediv_cancel _ (by decide)
  rw [Tz.monday, hday]
  unfold Tz.monday weekday
  omega

theorem weekStart_le (hz : tz.Weeks) (t : Utc) :
    weekStart tz t ≤ t ∧ tz.monday (weekStart tz t) = tz.monday t := by
  obtain ⟨s, he, hl, hs⟩ := hz.midnight t
  rw [weekStart, he, Option.getD_some]
  exact ⟨hs, monday_of_midnight hl⟩

/-- The start of a week depends on its Monday only, and is not before that of an earlier week. -/
theorem weekStart_mono (hz : tz.Weeks) {t t' : Utc} (h : tz.monday t ≤ tz.monday t') :
    weekStart tz t ≤ weekStart tz t' := by
  by_contra hlt
  have hback := hz.forward _ _ (le_of_lt (not_le.mp hlt))
  rw [(weekStart_le hz t).2, (weekStart_le hz t').2] at hback
  have hsame : tz.monday t = tz.monday t' := le_antisymm h hback
  obtain ⟨s, he, -⟩ := hz.midnight t'
  have hs : weekStart tz t = weekStart tz t' := by
    rw [weekStart, weekStart, hsame, he, Option.getD_some, Option.getD_some]
  exact hlt hs.le

end

/-- Turns spent in a local week. -/
def spentIn (tz : Tz) (week : Int) (begun : List (Utc × Bool)) : Nat :=
  begun.countP fun b => !b.2 && tz.monday b.1 = week

theorem spentIn_append (tz : Tz) (week : Int) (a b : List (Utc × Bool)) :
    spentIn tz week (a ++ b) = spentIn tz week a + spentIn tz week b := List.countP_append

/-- The turns of a week come at its start or later. -/
private theorem spentIn_le (tz : Tz) (hz : tz.Weeks) (t : Utc) (begun : List (Utc × Bool)) :
    spentIn tz (tz.monday t) begun ≤ spentFrom (weekStart tz t) begun := by
  refine List.countP_mono_left fun b _ hb => ?_
  simp only [Bool.and_eq_true, decide_eq_true_eq] at hb ⊢
  exact ⟨hb.1, (weekStart_mono hz hb.2.ge).trans (weekStart_le hz b.1).1⟩

/-- What a run's admission and its steps keep. -/
structure Setting.Kept (g : Setting) (s : Sys) : Prop where
  paid : ∀ x, spentFrom x s.begun ≤ s.record.budget.countP fun b => x ≤ b.time
  week : ∀ week, spentIn g.tz week s.begun ≤ g.config.weeklyTurns
  launched : ∀ l ∈ s.launched, l.begun ≤ l.planned

variable {g : Setting} {s : Sys} {l : Launch} {runId : Bytes} {plan : Plan}

/-- A run that fits starts at most the turns it was admitted for, at the look under the lock or
later, and each spent one has its budget row. -/
private theorem effects_costs (hplan : g.plan s.record l = some (runId, plan))
    (hfit : g.Fits s l runId plan) : Costs l.lockedNow plan.plannedTurns (g.effects l runId plan) := by
  obtain ⟨wanted, sets, hlook⟩ := Setting.plan_eq hplan
  obtain ⟨htruths, -, hplanned, -⟩ := lookAt_eq_ok hlook
  have hsums := hfit.sums
  have hcost : (plan.sets.map (turnsOf g.sha256 runId plan.truths)).sum + plan.asks.length ≤
      plan.plannedTurns := by
    rw [hplanned, ← htruths, planned_eq (by omega)]
    have hadd := @costUnder_add g.sha256 plan.sets plan.truths runId (Text.ascii "plan")
    have hle := @turns_le_costUnder g.sha256 plan.sets plan.truths runId
    have hspared := hfit.spared
    omega
  obtain ⟨_, hn, hpaid⟩ := Effects.Logs.exec_log (spends_runPlan
    (l.clock runId)) ⟨Tally.default, 0⟩
  have hpre := g.effects_prefix l runId plan
  refine ⟨?_, hpaid.of_prefix hpre hfit.paid⟩
  exact ((hpre.sublist.filterMap _).length_le.trans hn).trans hcost

/-- A run that fits keeps the budget. -/
private theorem kept_launch (hz : g.tz.Weeks) (h : g.Kept s)
    (hplan : g.plan s.record l = some (runId, plan)) (hfit : g.Fits s l runId plan) :
    g.Kept (g.step s (.launch l)) := by
  have hcost := effects_costs hplan hfit
  have hstep : g.step s (.launch l) = { s with
      record := (g.effects l runId plan).foldl Record.apply s.record
      begun := s.begun ++ begun (g.effects l runId plan)
      launched := s.launched ++ [⟨plan.plannedTurns, (begun (g.effects l runId plan)).length⟩] } := by
    rw [Setting.step, hplan]
  rw [hstep]
  refine ⟨fun x => ?_, fun week => ?_, ?_⟩
  · rw [apply_budget, List.countP_append, spentFrom, List.countP_append]
    exact Nat.add_le_add (h.paid x) (hcost.2.spentFrom_le x)
  · rw [spentIn_append]
    by_cases hnew : spentIn g.tz week (begun (g.effects l runId plan)) = 0
    · rw [hnew]
      exact h.week week
    · -- A turn of this run is in the week, so the gate counted every earlier turn of the week.
      obtain ⟨b, hb, hweek⟩ := List.countP_pos_iff.mp (Nat.pos_of_ne_zero hnew)
      simp only [Bool.and_eq_true, decide_eq_true_eq] at hweek
      obtain ⟨wanted, sets, hlook⟩ := Setting.plan_eq hplan
      obtain ⟨-, -, -, hgate⟩ := lookAt_eq_ok hlook
      have hturns := (check_turns hgate).2
      have hsums := hfit.sums
      have hmon : g.tz.monday l.lockedNow ≤ week := hweek.2 ▸ hz.forward _ _ (hcost.2.start_ge b hb)
      have hold : spentIn g.tz week s.begun ≤
          s.record.budget.countP fun r => weekStart g.tz l.lockedNow ≤ r.time := by
        calc spentIn g.tz week s.begun
            ≤ spentFrom (weekStart g.tz b.1) s.begun := hweek.2 ▸ spentIn_le g.tz hz b.1 s.begun
          _ ≤ s.record.budget.countP fun r => weekStart g.tz b.1 ≤ r.time := h.paid _
          _ ≤ _ := List.countP_mono_left fun r _ hr => by
              simp only [decide_eq_true_eq] at hr ⊢
              exact (weekStart_mono hz (hweek.2 ▸ hmon)).trans hr
      have hnewle : spentIn g.tz week (begun (g.effects l runId plan)) ≤ plan.plannedTurns :=
        List.countP_le_length.trans hcost.1
      have hplanned : plan.plannedTurns = costUnder g.sha256 plan.sets plan.truths (Text.ascii "plan") +
          plan.asks.length := by
        obtain ⟨htruths, -, hp, -⟩ := lookAt_eq_ok hlook
        rw [hp, ← htruths, planned_eq (by omega)]
      have hused : turnsThisWeek (History.fromRecord s.record) g.tz l.lockedNow = min
          (s.record.budget.countP fun r => weekStart g.tz l.lockedNow ≤ r.time) u32Max := by
        simp only [turnsThisWeek, History.fromRecord, List.countP_map, Function.comp_def]
      have hmax : u32Max = 2^32 - 1 := rfl
      simp only [Setting.env] at hturns
      rw [Nat.mod_eq_of_lt (by omega)] at hturns
      omega
  · simp only [List.forall_mem_append, List.forall_mem_singleton]
    exact ⟨h.launched, hcost.1⟩

/-- A row that is no budget row changes nothing here. -/
private theorem kept_fact (h : g.Kept s) (row : FactRow) (drawn : List Bytes) :
    g.Kept { s with record := s.record.append (.fact row), drawn } := ⟨h.paid, h.week, h.launched⟩

private theorem kept_step (hz : g.tz.Weeks) (act : Act) (h : g.Kept s) (hw : g.Within s act) :
    g.Kept (g.step s act) := by
  cases act with
  | launch l =>
    cases hplan : g.plan s.record l with
    | none => simpa only [Setting.step, hplan] using h
    | some p => exact kept_launch hz h hplan (hw p.1 p.2 hplan)
  | draw now random =>
    unfold Setting.step
    dsimp only
    split
    · exact kept_fact h _ _
    · exact h
  | plant findPlant fact value now =>
    unfold Setting.step
    dsimp only
    split
    · exact kept_fact h _ _
    · exact h

/-- The weekly turn budget of the probe: over every sequence of runs, draws and plants, the turns
spent in a local week are within the budget, and each run starts at most the turns its gate
admitted it for. -/
theorem turns_within_budget (g : Setting) (hz : g.tz.Weeks) {s : Sys} (h : g.Runs g.Within s) :
    (∀ week, spentIn g.tz week s.begun ≤ g.config.weeklyTurns) ∧
      ∀ l ∈ s.launched, l.begun ≤ l.planned := by
  have hk : g.Kept s := h.invariant (I := g.Kept)
    ⟨fun x => le_rfl, fun week => Nat.zero_le _, by simp [Sys.init]⟩
    fun s act hs hw => kept_step hz act hs hw
  exact ⟨hk.week, hk.launched⟩

/-! A set whose families do not mix served-model items with others costs the same under every seed. -/

/-- The input-only arm is asked for all items of a family or for none. -/
def LoadedSet.Uniform (s : LoadedSet) : Prop :=
  ∀ i ∈ s.items, ∀ j ∈ s.items, i.family = j.family → asks .inputOnly i = asks .inputOnly j

private theorem drawn_variant {s : LoadedSet} {seed family : Bytes} {canScore : TruthKey → Bool}
    {item : Item} (h : ((pick sha256 seed family (s.variants family).length).bind fun start =>
      ((s.variants family).rotate start).find? fun item => canScore item.truth) = some item) :
    item ∈ s.items ∧ item.family = some family := by
  obtain ⟨start, -, hf⟩ := Option.bind_eq_some_iff.mp h
  have hm := List.mem_rotate.mp (List.mem_of_find?_eq_some hf)
  simpa [LoadedSet.variants] using hm

theorem spared_of_uniform {s : LoadedSet} (h : s.Uniform) (truths : Truths) (seed seed' : Bytes) :
    s.spared (draw sha256 s seed truths) = s.spared (draw sha256 s seed' truths) := by
  unfold LoadedSet.spared
  split
  · next hd =>
    unfold skipped draw LoadedSet.drawScorable
    simp only [hd.1, List.countP_filterMap]
    refine List.countP_congr fun family _ => ?_
    have hs := drawn_of_family sha256 s seed family truths.canScore
    have hs' := drawn_of_family sha256 s seed' family truths.canScore
    rw [← hs'] at hs
    simp only [Option.bind_eq_bind]
    cases hi : (pick sha256 seed family (s.variants family).length).bind fun start =>
        ((s.variants family).rotate start).find? fun item => truths.canScore item.truth with
    | none =>
      rw [hi, Option.isSome_none, eq_comm, Option.isSome_eq_false_iff, Option.isNone_iff_eq_none] at hs
      rw [hs]
    | some i =>
      rw [hi, Option.isSome_some, eq_comm, Option.isSome_iff_exists] at hs
      obtain ⟨j, hj⟩ := hs
      obtain ⟨hmi, hfi⟩ := drawn_variant hi
      obtain ⟨hmj, hfj⟩ := drawn_variant hj
      rw [hj]
      simp [h i hmi j hmj (hfi.trans hfj.symm)]
  · rfl

/-! Sample runs, at 03:00 UTC on the first day of the epoch. -/

private theorem monday_mono {d d' : Int} (h : d ≤ d') : d - weekday d ≤ d' - weekday d' := by
  unfold weekday
  omega

private theorem monday_le (d : Int) : d - weekday d ≤ d := by
  unfold weekday
  omega

private theorem utc_weeks : utc.Weeks where
  midnight t := ⟨_, rfl, rfl,
    (Int.mul_le_mul_of_nonneg_right (monday_le (t / dayNanos)) (by decide)).trans
      (Int.ediv_mul_le t (by decide))⟩
  forward t t' h := monday_mono (Int.ediv_le_ediv (by decide) h)

/-- SHA-256 on the two texts the sample runs hash. -/
private def sampleSha256 (text : Bytes) : { digest : Bytes // digest.length = 32 } :=
  if text = Text.ascii "plan:model" then
    ⟨[216, 222, 85, 217, 30, 68, 50, 175, 31, 12, 143, 18, 15, 28, 243, 86, 193, 93, 108, 148, 163,
      133, 72, 49, 85, 12, 10, 143, 193, 51, 24, 1], rfl⟩
  else
    ⟨[234, 134, 130, 157, 182, 50, 91, 158, 246, 84, 23, 147, 69, 158, 202, 106, 224, 19, 156, 118,
      108, 248, 5, 95, 41, 104, 137, 130, 51, 111, 235, 238], rfl⟩

private def sampleSetting : Setting := ⟨sampleSha256, sampleConfig, utc, samplePairs⟩

private def oneQuestion : LoadedSet where
  set := Text.ascii "known-answer"
  version := 1
  delivery := .batched
  arms := [.pulse]
  instructions := []
  items := [⟨Text.ascii "name", none, [], .pulseName⟩]
  checked := by decide

/-- One family of two variants: the configured model, and the served one. -/
private def modelFamily : LoadedSet where
  set := Text.ascii "situation-use"
  version := 1
  delivery := .perItem
  arms := [.pulse, .inputOnly]
  instructions := []
  items := [⟨Text.ascii "configured", some (Text.ascii "model"), [], .configuredModel⟩,
    ⟨Text.ascii "served", some (Text.ascii "model"), [], .servedModel⟩]
  checked := by decide

/-- A run by hand of one set whose turns all end in `reply`. -/
private def sampleLaunch (set : LoadedSet) (reply : Reply) : Launch where
  now := threeOClock
  landlock := .ok ()
  installed := [set]
  request := ⟨false, []⟩
  world := ⟨.ok (), .ok (), .ok (Text.ascii "3fa2b1c4d5e6"), .ok (),
    fun _ => .began threeOClock reply threeOClock le_rfl⟩
  first := ⟨Record.empty, threeOClock, ⟨[.pulseName, .configuredModel]⟩, false⟩
  lockedNow := threeOClock
  truths := ⟨[.pulseName, .configuredModel]⟩
  isolated := false
  crash := none
  clock := by
    intro _ _ _ _ _ _ h
    injection h with h
    exact h.le

private def samplePlan : Plan := ⟨[oneQuestion], ⟨[.pulseName, .configuredModel]⟩, [], 1⟩

private def isBegan : Effect → Bool
  | .began _ _ _ => true
  | .append _ => false

private theorem sample_within : sampleSetting.Within Sys.init
    (.launch (sampleLaunch oneQuestion (.answered sampleAnswer))) := by
  intro runId plan hplan
  have hp : sampleSetting.plan Record.empty (sampleLaunch oneQuestion (.answered sampleAnswer)) =
      some (Text.ascii "3fa2b1c4d5e6", samplePlan) := by decide +kernel
  obtain ⟨rfl, rfl⟩ := Prod.mk.inj (Option.some.inj (hp.symm.trans hplan))
  refine ⟨by decide +kernel, by decide +kernel, fun start arm => ?_⟩
  have hlast : ((sampleSetting.effects (sampleLaunch oneQuestion (.answered sampleAnswer))
      (Text.ascii "3fa2b1c4d5e6") samplePlan).getLast?.map isBegan) = some false := by
    decide +kernel
  intro he
  rw [he] at hlast
  cases hlast

theorem turns_within_budget_sample : (∀ week, spentIn utc week (sampleSetting.step Sys.init
      (.launch (sampleLaunch oneQuestion (.answered sampleAnswer)))).begun ≤ 1) ∧
    ∀ l ∈ (sampleSetting.step Sys.init
      (.launch (sampleLaunch oneQuestion (.answered sampleAnswer)))).launched, l.begun ≤ l.planned :=
  turns_within_budget sampleSetting utc_weeks (.step _ .init sample_within)

/-- Two runs, the first of them refused by the vendor's quota: two CLI turns are started in a week
whose budget is one. -/
theorem quota_refusal_not_counted : ¬ ∀ (g : Setting) (s : Sys), g.tz.Weeks →
    g.Runs (fun _ _ => True) s → ∀ week,
      (s.begun.countP fun b => g.tz.monday b.1 = week) ≤ g.config.weeklyTurns := by
  intro h
  have hle := h sampleSetting _ utc_weeks (.step (.launch (sampleLaunch oneQuestion (.answered sampleAnswer)))
    (.step (.launch (sampleLaunch oneQuestion (.quota []))) .init trivial) trivial)
    (utc.monday threeOClock)
  revert hle
  decide +kernel

/-- A family that mixes a served-model item with another one: the plan's draw finds the served
model, the run's draw the other, and the run starts two turns on an admission for one. -/
theorem draw_exceeds_plan : (sampleSetting.step Sys.init
    (.launch (sampleLaunch modelFamily (.answered sampleAnswer)))).launched = [⟨1, 2⟩] := by
  decide +kernel

end PulseNull.Probe
