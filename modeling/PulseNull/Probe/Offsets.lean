import PulseNull.Probe.Launches
import PulseNull.Probe.Facts

/-! Paired facts over many runs: no offset of a fact is asked twice unless a crash parts the
planted side's row from the row that says the fact was asked, and no pair is drawn twice. -/
namespace PulseNull.Probe
open Effects

/-! The rows that decide what is asked: the planted side's item rows, and the fact rows. -/

def Row.isPaired : Row → Bool
  | .fact _ => true
  | .item (.paired _ _ _ side _ _ _ _) => side = .planted
  | _ => false

def pairedRows (out : List Effect) : List Row :=
  out.filterMap fun
    | .append row => if row.isPaired then some row else none
    | .began _ _ _ => none

theorem pairedRows_append (a b : List Effect) : pairedRows (a ++ b) = pairedRows a ++ pairedRows b :=
  List.filterMap_append

@[simp] theorem pairedRows_cons (row : Row) (out : List Effect) :
    pairedRows (.append row :: out) = (if row.isPaired then [row] else []) ++ pairedRows out := by
  cases h : row.isPaired <;> simp [pairedRows, h]

@[simp] theorem pairedRows_began (start : Utc) (arm : Arm) (refused : Bool) (out : List Effect) :
    pairedRows (.began start arm refused :: out) = pairedRows out := rfl

@[simp] theorem pairedRows_nil : pairedRows [] = [] := rfl

theorem OneTurn.pairedRows {lo : Utc} {out : List Effect} (h : OneTurn lo out) :
    pairedRows out = [] := by
  cases h <;> simp [Row.isPaired]

section
variable {lo : Utc} {c : TurnContext} {pairs : LoadedPairs} {α β : Type}

/-- `m` appends no such row. -/
def Quiet (m : RunM α) : Prop := Logs m fun out _ => pairedRows out = []

theorem quiet_pure (a : α) : Quiet (pure a : RunM α) := logs_pure rfl

theorem Quiet.bind {m : RunM α} {f : α → RunM β} {P : List Row → Except RunError β → Prop}
    (h : Quiet m) (hf : ∀ a, Logs (f a) fun out r => P (pairedRows out) r)
    (herr : ∀ e, P [] (.error e)) : Logs (m >>= f) fun out r => P (pairedRows out) r := by
  refine Logs.bind (Logs.mono h fun out r hq => ?_)
  cases r with
  | ok a => exact Logs.mono (hf a) fun out' _ hb => by rw [pairedRows_append, hq]; exact hb
  | error e => dsimp only; rw [hq]; exact herr e

theorem Quiet.seq {m : RunM α} {f : α → RunM β} (h : Quiet m) (hf : ∀ a, Quiet (f a)) :
    Quiet (m >>= f) :=
  Quiet.bind (P := fun rows _ => rows = []) h hf fun _ => rfl

/-- Quiet steps at the end change no rows. -/
theorem quiet_after {m : RunM α} {f : α → RunM β} {P : List Row → Prop}
    (h : Logs m fun out _ => P (pairedRows out)) (hf : ∀ a, Quiet (f a)) :
    Logs (m >>= f) fun out _ => P (pairedRows out) := by
  refine Logs.bind (Logs.mono h fun out r hP => ?_)
  cases r with
  | ok a => exact Logs.mono (hf a) fun out' _ hq => by rw [pairedRows_append, hq, List.append_nil]; exact hP
  | error e => exact hP

theorem quiet_onTally (f : Tally → Tally) : Quiet (onTally f) := logs_update rfl

theorem quiet_current : Quiet (current : RunM Progress) := logs_current fun _ => rfl

theorem quiet_isStopped : Quiet isStopped := quiet_current.seq fun _ => quiet_pure _

theorem quiet_appendRow {row : Row} (h : row.isPaired = false) : Quiet (appendRow row) :=
  logs_emit (by simp [h])

theorem quiet_turn (h : c.After lo) (label : Bytes) (arm : Arm) :
    Quiet (ask c arm >>= settle c label arm) :=
  (oneTurn h label arm).mono fun _ _ ht => ht.pairedRows

private theorem quiet_noteSaved (run : CapturedRun) : Quiet (noteSaved run) := by
  unfold noteSaved
  split
  · exact logs_throw rfl
  · exact quiet_pure _

private theorem quiet_recordItems (set : LoadedSet) (arm : Arm) (served : Option Bytes)
    (outcome : Nat → Outcome) (n : Nat) (items : List Item) :
    Quiet (recordItems c set arm served outcome n items) := by
  induction items generalizing n with
  | nil => exact quiet_pure _
  | cons item items ih =>
    exact (quiet_appendRow rfl).seq fun _ => (quiet_onTally _).seq fun _ => ih (n + 1)

private theorem quiet_runTurn (h : c.After lo) (set : LoadedSet) (arm : Arm) (items : List Item) :
    Quiet (runTurn c set arm items) := by
  unfold runTurn
  rw [← bind_assoc]
  refine (quiet_turn h set.label arm).seq fun settled => ?_
  cases settled with
  | answered run => exact (quiet_noteSaved run).seq fun _ => quiet_recordItems _ _ _ _ _ _
  | failed e => exact quiet_recordItems _ _ _ _ _ _
  | stopped => exact quiet_pure _

private theorem quiet_unlessStopped {a : α} {m : RunM α} (h : Quiet m) :
    Quiet (do if ← isStopped then return a else m) := by
  refine quiet_isStopped.seq fun stopped => ?_
  cases stopped with
  | true => exact quiet_pure _
  | false => exact h

private theorem quiet_askArms (h : c.After lo) (set : LoadedSet) (items : List Item) (arms : List Arm) :
    Quiet (askArms c set items arms) := by
  induction arms with
  | nil => exact quiet_pure _
  | cons arm arms ih =>
    unfold askArms
    dsimp only
    split
    · exact ih
    · exact (quiet_runTurn h set arm _).seq fun _ => quiet_unlessStopped ih

private theorem quiet_askQuestions (h : c.After lo) (set : LoadedSet) (qs : List (List Item)) :
    Quiet (askQuestions c set qs) := by
  induction qs with
  | nil => exact quiet_pure _
  | cons items rest ih => exact (quiet_askArms h set items set.arms).seq fun _ => quiet_unlessStopped ih

theorem quiet_askItemSets (h : c.After lo) (sha256 : Sha256) (truths : Truths)
    (sets : List LoadedSet) : Quiet (askItemSets c sha256 truths sets) := by
  induction sets with
  | nil => exact quiet_pure _
  | cons set sets ih => exact (quiet_askQuestions h set _).seq fun _ => quiet_unlessStopped ih

/-! The asks of one fact. -/

def plantedRow (c : TurnContext) (pairs : LoadedPairs) (a : Ask) (o : Outcome)
    (served : Option Bytes) : Row :=
  .item (.paired c.runId pairs.set .pulse .planted a.fact a.offsetDays o served)

/-- What asking one side leaves of them. -/
def plantedRows (c : TurnContext) (pairs : LoadedPairs) (a : Ask) (served : Option Bytes) :
    Except RunError (Option Outcome) → List Row
  | .ok (some o) => if a.side = .planted then [plantedRow c pairs a o served] else []
  | _ => []

/-- The rows of one asked fact: the planted side's, its missed offsets, and the ask. -/
def askRows (c : TurnContext) (pairs : LoadedPairs) (a : Ask) (o : Outcome) (served : Option Bytes)
    (later : List (Option Outcome)) : List Row :=
  plantedRow c pairs a o served :: (a.missed.map (fun d => .fact (.missed a.fact d c.runId)) ++
    [.fact (.ask a.fact a.offsetDays c.runId (some o) (later.getD 0 none) (later.getD 1 none)
      (later.getD 2 none))])

private theorem recordPaired_rows (a : Ask) (o : Outcome) (served : Option Bytes) :
    Logs (recordPaired c pairs a o served) fun out r => r = .ok (some o) ∧ pairedRows out =
      if a.side = .planted then [plantedRow c pairs a o served] else [] := by
  refine logs_emit_bind (logs_update_bind (logs_pure ⟨rfl, ?_⟩))
  cases hs : a.side <;> simp [Row.isPaired, plantedRow, pairedArm]

theorem runPaired_rows (h : c.After lo) (a : Ask) :
    Logs (runPaired c pairs a) fun out r =>
      ∃ served, pairedRows out = plantedRows c pairs a served r := by
  unfold runPaired
  rw [← bind_assoc]
  refine Quiet.bind (P := fun rows r => ∃ served, rows = plantedRows c pairs a served r)
    (quiet_turn h pairs.label _) (fun settled => ?_) fun e => ⟨none, rfl⟩
  have hrow : ∀ o served, Logs (recordPaired c pairs a o served) fun out r => ∃ served,
      pairedRows out = plantedRows c pairs a served r := by
    intro o served
    refine (recordPaired_rows a o served).mono fun out r hr => ⟨served, ?_⟩
    rw [hr.1]
    exact hr.2
  cases settled with
  | answered run =>
    exact Quiet.bind (P := fun rows r => ∃ served, rows = plantedRows c pairs a served r)
      (quiet_noteSaved run) (fun _ => hrow _ _) fun e => ⟨none, rfl⟩
  | failed e => exact hrow _ _
  | stopped => exact logs_pure ⟨none, rfl⟩

private theorem runPaired_quiet (h : c.After lo) {a : Ask} (hs : a.side ≠ .planted) :
    Quiet (runPaired c pairs a) := by
  refine (runPaired_rows h a).mono fun out r hr => ?_
  obtain ⟨served, hr⟩ := hr
  rw [hr]
  unfold plantedRows
  split
  · rw [if_neg hs]
  · rfl

/-- The later sides append no such row, and never fail. -/
private theorem askLaterSides_rows (h : c.After lo) {later : List Ask}
    (hs : ∀ a ∈ later, a.side ≠ .planted) : Logs (askLaterSides c pairs later) fun out r =>
      pairedRows out = [] ∧ ∃ x, r = .ok x := by
  induction later with
  | nil => exact logs_pure ⟨rfl, _, rfl⟩
  | cons a rest ih =>
    obtain ⟨ha, hrest⟩ := List.forall_mem_cons.mp hs
    unfold askLaterSides
    refine Logs.bind (logs_current_bind fun p => logs_pure ?_)
    dsimp only
    cases p.tally.stopped.isSome with
    | true => exact logs_pure ⟨rfl, _, rfl⟩
    | false =>
      simp only [Bool.false_eq_true, if_false]
      refine Logs.bind ((runPaired_quiet h ha).caught.mono ?_)
      rintro out _ ⟨r, rfl, hq⟩
      cases r with
      | ok outcome =>
        refine Logs.bind ((ih hrest).mono ?_)
        rintro out' _ ⟨hq', x, rfl⟩
        refine logs_pure ⟨?_, _, rfl⟩
        rw [List.nil_append, List.append_nil, pairedRows_append, hq, hq', List.append_nil]
      | error e => exact logs_pure ⟨by rw [List.append_nil, List.nil_append, hq], _, rfl⟩

private theorem recordAsked_rows (a : Ask) (o : Option Outcome) (later : List (Option Outcome))
    (missed : List Int) : Logs (recordAsked c a o later missed) fun out r => r = .ok () ∧
      pairedRows out = missed.map (fun d => .fact (.missed a.fact d c.runId)) ++
        [.fact (.ask a.fact a.offsetDays c.runId o (later.getD 0 none) (later.getD 1 none)
          (later.getD 2 none))] := by
  induction missed with
  | nil => exact logs_emit ⟨rfl, rfl⟩
  | cons d missed ih =>
    refine logs_emit_bind (ih.mono fun out r ⟨hr, hrows⟩ => ⟨hr, ?_⟩)
    rw [pairedRows_cons, hrows]
    rfl

/-- One due fact: all its rows, or none of them and the run goes no further. -/
theorem askFact_rows (h : c.After lo) {a : Ask} {later : List Ask} (ha : a.side = .planted)
    (hs : ∀ b ∈ later, b.side ≠ .planted) : Logs (askFact c pairs a later) fun out r =>
      pairedRows out = [] ∧ r ≠ .ok false ∨
        ∃ o served l, pairedRows out = askRows c pairs a o served l := by
  unfold askFact
  refine Logs.bind ((runPaired_rows h a).mono ?_)
  rintro out r ⟨served, hrows⟩
  rcases r with e | _ | o
  · exact .inl ⟨hrows, by simp⟩
  · exact logs_pure (.inl ⟨by rw [List.append_nil, hrows]; rfl, by simp⟩)
  · simp only [plantedRows, ha, if_true] at hrows
    refine Logs.bind ((askLaterSides_rows h hs).mono ?_)
    rintro out₂ _ ⟨hq, ⟨outcomes, failure⟩, rfl⟩
    refine Logs.bind ((recordAsked_rows a (some o) outcomes a.missed).mono ?_)
    rintro out₃ _ ⟨rfl, hask⟩
    have hall : pairedRows (out ++ (out₂ ++ (out₃ ++ []))) = askRows c pairs a o served outcomes := by
      rw [List.append_nil, pairedRows_append, pairedRows_append, hrows, hq, hask]
      rfl
    cases failure with
    | some e => exact logs_throw (.inr ⟨o, served, outcomes, hall⟩)
    | none => exact logs_current_bind fun p => logs_pure (.inr ⟨o, served, outcomes, hall⟩)

/-- The rows of the asks of some facts, in order, up to where the run stopped. -/
inductive Asked (c : TurnContext) (pairs : LoadedPairs) : List Ask → List Row → Prop where
  | nil {ps : List Ask} : Asked c pairs ps []
  | cons {a : Ask} {ps : List Ask} {rows : List Row} (o : Outcome) (served : Option Bytes)
      (later : List (Option Outcome)) : Asked c pairs ps rows →
      Asked c pairs (a :: ps) (askRows c pairs a o served later ++ rows)

theorem askPairedFacts_rows (h : c.After lo) {asks ps : List Ask} (hf : Fours asks ps) :
    Logs (askPairedFacts c pairs asks) fun out _ => Asked c pairs ps (pairedRows out) := by
  induction hf with
  | nil => exact logs_pure .nil
  | @cons planted twin chance guess rest ps h1 h2 h3 h4 _ ih =>
    unfold askPairedFacts
    refine Logs.bind ((askFact_rows h h1 (by simp [h2, h3, h4])).mono ?_)
    rintro out r (⟨hnone, hr⟩ | ⟨o, served, later, hrows⟩)
    · rcases r with e | _ | _
      · dsimp only
        rw [hnone]
        exact .nil
      · exact absurd rfl hr
      · refine logs_pure ?_
        rw [List.append_nil, hnone]
        exact .nil
    · have hone : Asked c pairs (planted :: ps) (pairedRows out) := by
        rw [hrows]
        simpa using Asked.cons (c := c) o served later .nil
      rcases r with e | _ | _
      · exact hone
      · refine ih.mono fun out' _ hrest => ?_
        rw [pairedRows_append, hrows]
        exact .cons o served later hrest
      · refine logs_pure ?_
        rw [List.append_nil]
        exact hone

/-- The rows of a run that passed its gate. -/
theorem runPlan_rows {sha256 : Sha256} {env : RunEnv} {request : RunRequest} {world : World}
    {runId : Bytes} {plan : Plan} {ps : List Ask} (h : TurnContext.After ⟨runId, world.attempt⟩ lo)
    (hf : Fours plan.asks ps) : Logs (runPlan sha256 env request world runId plan) fun out _ =>
      Asked ⟨runId, world.attempt⟩ env.pairs ps (pairedRows out) := by
  have hask : Logs (askEverything ⟨runId, world.attempt⟩ sha256 env.pairs plan) fun out _ =>
      Asked ⟨runId, world.attempt⟩ env.pairs ps (pairedRows out) := by
    refine Quiet.bind (P := fun rows _ => Asked ⟨runId, world.attempt⟩ env.pairs ps rows)
      (quiet_askItemSets h sha256 plan.truths plan.sets) (fun _ => ?_) fun _ => .nil
    refine Quiet.bind (P := fun rows _ => Asked ⟨runId, world.attempt⟩ env.pairs ps rows)
      quiet_isStopped (fun stopped => ?_) fun _ => .nil
    cases stopped with
    | true => exact logs_pure .nil
    | false => exact askPairedFacts_rows h hf
  have hstop : Logs (askOrStop ⟨runId, world.attempt⟩ sha256 env.pairs plan) fun out _ =>
      Asked ⟨runId, world.attempt⟩ env.pairs ps (pairedRows out) := by
    refine quiet_after (P := Asked ⟨runId, world.attempt⟩ env.pairs ps)
      (hask.caught.mono ?_) fun r => ?_
    · rintro out _ ⟨_, _, hrows⟩
      exact hrows
    · cases r with
      | ok u => exact quiet_pure _
      | error e => exact quiet_onTally _
  unfold runPlan
  refine Quiet.bind (P := fun rows _ => Asked ⟨runId, world.attempt⟩ env.pairs ps rows)
    (quiet_appendRow rfl) (fun _ => ?_) fun _ => .nil
  cases world.graph with
  | error e =>
    exact quiet_after (P := Asked ⟨runId, world.attempt⟩ env.pairs ps)
      ((quiet_onTally _).mono fun _ _ hq => hq ▸ .nil) fun _ =>
        quiet_current.seq fun _ => quiet_appendRow rfl
  | ok u =>
    exact quiet_after (P := Asked ⟨runId, world.attempt⟩ env.pairs ps) hstop fun _ =>
      quiet_current.seq fun _ => quiet_appendRow rfl

/-- A planted side's row without the ask row that goes with it. -/
def halfStep (half : Bool) : Row → Bool
  | .item _ => true
  | .fact (.ask _ _ _ _ _ _ _) => false
  | _ => half

/-- The effects end between a planted side's row and the ask row that goes with it. -/
def halfAsked (out : List Effect) : Bool := (pairedRows out).foldl halfStep false

private theorem half_missed (a : Ask) (runId : Bytes) (missed : List Int) :
    (missed.map fun d => Row.fact (.missed a.fact d runId)).foldl halfStep true = true := by
  induction missed with
  | nil => rfl
  | cons d missed ih => exact ih

private theorem half_askRows (a : Ask) (o : Outcome) (served : Option Bytes)
    (later : List (Option Outcome)) (rows : List Row) :
    (askRows c pairs a o served later ++ rows).foldl halfStep false = rows.foldl halfStep false := by
  rw [List.foldl_append, askRows, List.foldl_cons, List.foldl_append]
  rfl

private theorem half_cut {cut : List Row} {a : Ask} {o : Outcome} {served : Option Bytes}
    {later : List (Option Outcome)} (hp : cut <+: askRows c pairs a o served later)
    (hhalf : cut.foldl halfStep false = false) :
    cut = [] ∨ cut = askRows c pairs a o served later := by
  rcases List.prefix_cons_iff.mp hp with rfl | ⟨rest, rfl, hrest⟩
  · exact .inl rfl
  · refine .inr ?_
    rcases List.prefix_concat_iff.mp hrest with rfl | hmissed
    · rfl
    · -- Cut among the missed rows: the ask row is not there.
      obtain ⟨n, rfl⟩ : ∃ n, rest = (a.missed.map fun d => Row.fact (.missed a.fact d c.runId)).take n :=
        ⟨_, List.prefix_iff_eq_take.mp hmissed⟩
      rw [← List.map_take, List.foldl_cons] at hhalf
      exact absurd ((half_missed a c.runId _).symm.trans hhalf) (by decide)

/-- What a crash leaves of the asks, unless it parts a planted side's row from its ask row. -/
theorem Asked.of_prefix {ps : List Ask} {rows cut : List Row} (h : Asked c pairs ps rows)
    (hp : cut <+: rows) (hhalf : cut.foldl halfStep false = false) : Asked c pairs ps cut := by
  induction h generalizing cut with
  | nil => rw [List.prefix_nil.mp hp]; exact .nil
  | @cons a ps rows o served later _ ih =>
    rcases List.prefix_or_prefix_of_prefix hp (List.prefix_append _ rows) with hcut | ⟨rest, rfl⟩
    · rcases half_cut hcut hhalf with rfl | rfl
      · exact .nil
      · simpa using Asked.cons (c := c) o served later .nil
    · rw [half_askRows] at hhalf
      exact .cons o served later (ih ((List.prefix_append_right_inj _).mp hp) hhalf)

end

/-! The record. -/

def ItemRow.planted (fact : Bytes) : ItemRow → Option Int
  | .paired _ _ _ .planted f d _ _ => if f = fact then some d else none
  | _ => none

/-- A counted row of a fact's planted side at an offset. -/
def ItemRow.counted (fact : Bytes) (offset : Int) : ItemRow → Bool
  | .paired _ _ _ .planted f d o _ => f = fact && d = offset && o.counts
  | _ => false

def FactRow.asked (fact : Bytes) : FactRow → Option Int
  | .ask f d _ _ _ _ _ => if f = fact then some d else none
  | _ => none

/-- The offsets at which a fact's planted side has a row, in order. -/
def plantedOffsets (record : Record) (fact : Bytes) : List Int :=
  record.items.filterMap (ItemRow.planted fact)

/-- The offsets at which a fact was asked, in order. -/
def askedOffsets (record : Record) (fact : Bytes) : List Int :=
  record.facts.filterMap (FactRow.asked fact)

def countedPlanted (record : Record) (fact : Bytes) (offset : Int) : Nat :=
  record.items.countP (ItemRow.counted fact offset)

private def Row.planted (fact : Bytes) : Row → Option Int
  | .item r => r.planted fact
  | _ => none

private def Row.factRow : Row → Option FactRow
  | .fact r => some r
  | _ => none

private theorem apply_facts (out : List Effect) (record : Record) :
    (out.foldl Record.apply record).facts = record.facts ++ (pairedRows out).filterMap Row.factRow := by
  induction out generalizing record with
  | nil => simp
  | cons e out ih =>
    rw [List.foldl_cons, ih]
    rcases e with _ | (r | r | r | r)
    · rfl
    · simp [Record.apply, Record.append, Row.isPaired]
    · cases hp : (Row.item r).isPaired <;>
        simp [Record.apply, Record.append, hp, Row.factRow, List.filterMap_cons]
    · simp [Record.apply, Record.append, Row.isPaired, Row.factRow]
    · simp [Record.apply, Record.append, Row.isPaired]

private theorem planted_of_not_paired {r : ItemRow} (h : (Row.item r).isPaired = false) (fact : Bytes) :
    r.planted fact = none := by
  rcases r with _ | ⟨run, set, arm, side, f, d, o, m⟩
  · rfl
  · cases side with
    | planted => simp [Row.isPaired] at h
    | _ => rfl

private theorem apply_planted (out : List Effect) (record : Record) (fact : Bytes) :
    plantedOffsets (out.foldl Record.apply record) fact =
      plantedOffsets record fact ++ (pairedRows out).filterMap (Row.planted fact) := by
  induction out generalizing record with
  | nil => simp
  | cons e out ih =>
    rw [List.foldl_cons, ih]
    rcases e with _ | (r | r | r | r)
    · rfl
    · simp [Record.apply, Record.append, Row.isPaired, plantedOffsets]
    · cases hp : (Row.item r).isPaired
      · simp [Record.apply, Record.append, hp, plantedOffsets, planted_of_not_paired hp]
      · simp [Record.apply, Record.append, hp, plantedOffsets, Row.planted, List.filterMap_cons]
        cases r.planted fact <;> rfl
    · simp [Record.apply, Record.append, Row.isPaired, plantedOffsets, Row.planted, List.filterMap_cons]
    · simp [Record.apply, Record.append, Row.isPaired, plantedOffsets]

/-! What whole asks keep. -/

section
variable {c : TurnContext} {pairs : LoadedPairs} {sha256 : Sha256} {facts : List Fact}

private theorem fold_missed (runId : Bytes) (id : Bytes) (missed pre : List Int) :
    (missed.map fun d => FactRow.missed id d runId).foldl (pairs.applyFactRow sha256)
        (updateFact id (pushAsked pre) facts) = updateFact id (pushAsked (pre ++ missed)) facts := by
  induction missed generalizing pre with
  | nil => rw [List.append_nil]; rfl
  | cons d missed ih =>
    have hstep : pairs.applyFactRow sha256 (updateFact id (pushAsked pre) facts)
        (.missed id d runId) = updateFact id (pushAsked (pre ++ [d])) facts :=
      updateFact_pushAsked pre [d] facts id
    rw [List.map_cons, List.foldl_cons, hstep, ih, List.append_assoc]
    rfl

private theorem factRows_askRows (a : Ask) (o : Outcome) (served : Option Bytes)
    (later : List (Option Outcome)) : (askRows c pairs a o served later).filterMap Row.factRow =
      (a.missed.map fun d => FactRow.missed a.fact d c.runId) ++ [.ask a.fact a.offsetDays c.runId
        (some o) (later.getD 0 none) (later.getD 1 none) (later.getD 2 none)] := by
  simp only [askRows, plantedRow, List.filterMap_cons, Row.factRow, List.filterMap_append,
    List.filterMap_map, List.filterMap_nil]
  congr 1
  exact congrFun (List.filterMap_eq_map (f := fun d => FactRow.missed a.fact d c.runId)) a.missed

private theorem fold_askRows (a : Ask) (o : Outcome) (served : Option Bytes)
    (later : List (Option Outcome)) (facts : List Fact) :
    ((askRows c pairs a o served later).filterMap Row.factRow).foldl (pairs.applyFactRow sha256) facts =
      afterAsk a facts := by
  have hnil : updateFact a.fact (pushAsked []) facts = facts := by
    induction facts with
    | nil => rfl
    | cons x xs ih =>
      unfold updateFact
      split
      · simp [pushAsked]
      · rw [ih]
  have hm := @fold_missed pairs sha256 facts c.runId a.fact a.missed []
  rw [hnil, List.nil_append] at hm
  rw [factRows_askRows, List.foldl_append, hm]
  exact updateFact_pushAsked a.missed [a.offsetDays] facts a.fact

private theorem asked_askRows (a : Ask) (o : Outcome) (served : Option Bytes)
    (later : List (Option Outcome)) (fact : Bytes) :
    ((askRows c pairs a o served later).filterMap Row.factRow).filterMap (FactRow.asked fact) =
      if fact = a.fact then [a.offsetDays] else [] := by
  have hmissed : (a.missed.map fun d => FactRow.missed a.fact d c.runId).filterMap (FactRow.asked fact) =
      [] := by
    rw [List.filterMap_eq_nil_iff]
    intro r hr
    obtain ⟨d, -, rfl⟩ := List.mem_map.mp hr
    rfl
  rw [factRows_askRows, List.filterMap_append, hmissed, List.nil_append]
  by_cases hf : fact = a.fact
  · simp [FactRow.asked, hf]
  · simp [FactRow.asked, hf, Ne.symm hf]

private theorem planted_askRows (a : Ask) (o : Outcome) (served : Option Bytes)
    (later : List (Option Outcome)) (fact : Bytes) :
    (askRows c pairs a o served later).filterMap (Row.planted fact) =
      if fact = a.fact then [a.offsetDays] else [] := by
  have hmissed : (a.missed.map fun d => Row.fact (.missed a.fact d c.runId)).filterMap (Row.planted fact) =
      [] := by
    rw [List.filterMap_eq_nil_iff]
    intro r hr
    obtain ⟨d, -, rfl⟩ := List.mem_map.mp hr
    rfl
  rw [askRows, List.filterMap_cons, List.filterMap_append, hmissed]
  by_cases hf : fact = a.fact
  · simp [plantedRow, Row.planted, ItemRow.planted, hf]
  · simp [plantedRow, Row.planted, ItemRow.planted, hf, Ne.symm hf]

/-- Whole asks of distinct facts that may be asked keep the facts in order, and leave as many rows
of planted sides as ask rows. -/
theorem Asked.keeps {offsets : List Int} {ps : List Ask} {rows : List Row} {asked : Bytes → List Int}
    (h : Asked c pairs ps rows) (hdistinct : ps.Pairwise fun a b => b.fact ≠ a.fact)
    (hready : ∀ p ∈ ps, Ready offsets facts p) (ht : Tracked offsets facts asked)
    (hone : FirstOnly facts) :
    Tracked offsets ((rows.filterMap Row.factRow).foldl (pairs.applyFactRow sha256) facts)
        (fun f => asked f ++ (rows.filterMap Row.factRow).filterMap (FactRow.asked f)) ∧
      FirstOnly ((rows.filterMap Row.factRow).foldl (pairs.applyFactRow sha256) facts) ∧
      ((rows.filterMap Row.factRow).foldl (pairs.applyFactRow sha256) facts).map Fact.pair =
        facts.map Fact.pair ∧
      ∀ f, rows.filterMap (Row.planted f) =
        (rows.filterMap Row.factRow).filterMap (FactRow.asked f) := by
  induction h generalizing facts asked with
  | nil => exact ⟨by simpa using ht, hone, rfl, fun _ => rfl⟩
  | @cons a ps rows o served later _ ih =>
    obtain ⟨hne, hdistinct⟩ := List.pairwise_cons.mp hdistinct
    obtain ⟨hra, hready⟩ := List.forall_mem_cons.mp hready
    obtain ⟨ht', hone', hpairs, hplanted⟩ := ih hdistinct
      (fun p hp => (hready p hp).afterAsk (hne p hp)) (ht.ask hra) (hone.update fun _ => rfl)
    simp only [List.filterMap_append, List.foldl_append, fold_askRows, asked_askRows, planted_askRows]
    refine ⟨?_, hone', hpairs.trans (map_pair_updateFact (pushAsked _) (fun _ => rfl) _ _), fun f => ?_⟩
    · refine cast (congrArg (Tracked offsets _) (funext fun f => ?_)) ht'
      split <;> simp
    · rw [hplanted f]

end

/-! Runs. -/

/-- The commitments of the sealed pairs are told apart by their digests. -/
def Setting.Committed (g : Setting) : Prop :=
  ∀ fact, (g.pairs.assignmentTexts fact).InjOn g.sha256

def Setting.facts (g : Setting) (s : Sys) : List Fact :=
  g.pairs.factsFromRows g.sha256 s.record.facts

/-- No crash parts a planted side's row from the ask row that goes with it. -/
def Setting.Whole (g : Setting) (s : Sys) : Act → Prop
  | .launch l => ∀ runId plan, g.plan s.record l = some (runId, plan) →
      halfAsked (g.effects l runId plan) = false
  | _ => True

/-- What runs without such a crash keep. -/
structure Setting.Intact (g : Setting) (s : Sys) : Prop where
  same : ∀ f, plantedOffsets s.record f = askedOffsets s.record f
  first : FirstOnly (g.facts s)
  tracked : Tracked g.pairs.offsetsDays (g.facts s) (askedOffsets s.record)
  pairs : (g.facts s).map Fact.pair = s.drawn
  fresh : s.drawn.Nodup

variable {g : Setting} {s : Sys}

private theorem intact_launch (h : g.Intact s) {l : Launch} {runId : Bytes} {plan : Plan}
    (hplan : g.plan s.record l = some (runId, plan))
    (hwhole : halfAsked (g.effects l runId plan) = false) : g.Intact (g.step s (.launch l)) := by
  have hstep : g.step s (.launch l) = { s with
      record := (g.effects l runId plan).foldl Record.apply s.record
      begun := s.begun ++ begun (g.effects l runId plan)
      launched := s.launched ++ [⟨plan.plannedTurns, (begun (g.effects l runId plan)).length⟩] } := by
    rw [Setting.step, hplan]
  obtain ⟨wanted, sets, hlook⟩ := Setting.plan_eq hplan
  obtain ⟨-, hasks, -, -⟩ := lookAt_eq_ok hlook
  obtain ⟨ps, hfours, hdistinct, hready⟩ : ∃ ps, Fours plan.asks ps ∧
      ps.Pairwise (fun a b => b.fact ≠ a.fact) ∧
      ∀ p ∈ ps, Ready g.pairs.offsetsDays (g.facts s) p := by
    rw [hasks]
    unfold asksIn
    split
    · exact due_fours h.first
    · exact ⟨[], .nil, .nil, by simp⟩
  obtain ⟨_, hrows⟩ := Logs.exec_log (runPlan_rows
    (l.clock runId) hfours) ⟨Tally.default, 0⟩
  have hcut : Asked ⟨runId, l.world.attempt⟩ g.pairs ps (pairedRows (g.effects l runId plan)) :=
    hrows.of_prefix ((g.effects_prefix l runId plan).filterMap _) hwhole
  obtain ⟨ht, hone, hpairs, hplanted⟩ := hcut.keeps hdistinct hready h.tracked h.first
  have hfacts : g.facts (g.step s (.launch l)) =
      ((pairedRows (g.effects l runId plan)).filterMap Row.factRow).foldl
        (g.pairs.applyFactRow g.sha256) (g.facts s) := by
    rw [hstep, Setting.facts, apply_facts, LoadedPairs.factsFromRows, List.foldl_append]
    rfl
  have hasked : askedOffsets (g.step s (.launch l)).record = fun f => askedOffsets s.record f ++
      ((pairedRows (g.effects l runId plan)).filterMap Row.factRow).filterMap (FactRow.asked f) := by
    funext f
    rw [hstep, askedOffsets, apply_facts, List.filterMap_append]
    rfl
  refine ⟨fun f => ?_, hfacts ▸ hone, hfacts ▸ hasked ▸ ht, ?_, ?_⟩
  · rw [hasked, hstep, apply_planted, h.same f, hplanted f]
  · rw [hfacts, hpairs, h.pairs, hstep]
  · rw [hstep]
    exact h.fresh

private theorem tracked_append {offsets : List Int} {facts : List Fact} {asked : Bytes → List Int}
    (h : Tracked offsets facts asked) (x : Fact) : Tracked offsets (facts ++ [x]) asked :=
  h.of_find fun id y hy _ => by rw [List.find?_append, hy, Option.some_or]

private theorem intact_draw (hsha : g.Committed) (h : g.Intact s) (now : Utc) (random : Uuid) :
    g.Intact (g.step s (.draw now random)) := by
  unfold Setting.step
  dsimp only
  split
  · next drawn pair row hdraw =>
    obtain ⟨fact, planted, hfree, rfl⟩ : ∃ fact planted, pair ∈ g.pairs.free (g.facts s) ∧
        row = .draw fact now (g.pairs.assignment g.sha256 fact pair.id planted) := by
      unfold LoadedPairs.draw at hdraw
      dsimp only at hdraw
      split at hdraw
      · cases hdraw
      · split at hdraw
        · cases hdraw
        · next hget =>
          simp only [Except.ok.injEq, Prod.mk.injEq] at hdraw
          obtain ⟨-, rfl, rfl⟩ := hdraw
          exact ⟨_, _, List.mem_of_getElem? hget, rfl⟩
    simp only [LoadedPairs.free, List.mem_filter, Bool.not_eq_true', List.any_eq_false,
      decide_eq_true_eq] at hfree
    have hnew : pair.id ∉ s.drawn := by
      rw [← h.pairs]
      intro hm
      obtain ⟨x, hx, he⟩ := List.mem_map.mp hm
      exact hfree.2 x hx he
    have hfacts : ∀ drawn, g.facts { s with
        record := s.record.append (.fact (.draw fact now (g.pairs.assignment g.sha256 fact pair.id planted)))
        drawn } = g.facts s ++ [⟨fact, pair.id, planted, now, none, none, []⟩] := fun _ => by
      rw [Setting.facts, Record.append, LoadedPairs.factsFromRows, List.foldl_append, List.foldl_cons,
        List.foldl_nil, LoadedPairs.applyFactRow, resolve_assignment (hsha fact) hfree.1]
      rfl
    have hasked : askedOffsets (s.record.append (.fact (.draw fact now
        (g.pairs.assignment g.sha256 fact pair.id planted)))) = askedOffsets s.record := by
      funext f
      simp [askedOffsets, Record.append, FactRow.asked]
    refine ⟨fun f => ?_, hfacts _ ▸ h.first.append rfl, ?_, ?_, ?_⟩
    · rw [hasked]
      exact h.same f
    · rw [hfacts, hasked]
      exact tracked_append h.tracked _
    · rw [hfacts, List.map_append, h.pairs]
      rfl
    · exact List.nodup_append.mpr ⟨h.fresh, List.nodup_singleton _, fun x hx y hy he => by
        rw [List.mem_singleton.mp hy] at he
        exact hnew (he ▸ hx)⟩
  · exact h

private theorem plantable_find {facts : List Fact} {id : Bytes} {offsets : List Int} {now : Utc}
    {x : Fact} (h : plantable facts id offsets now = .ok x) :
    facts.find? (·.fact = id) = some x ∧ x.value = none := by
  unfold plantable at h
  split at h
  · cases h
  · next y hy =>
    split at h
    · cases h
    · next hv =>
      split at h
      · cases h
      · obtain rfl := Except.ok.inj h
        exact ⟨hy, by simpa using hv⟩

private theorem intact_plant (h : g.Intact s) (findPlant : Utc → Side → Bytes → Option Utc)
    (fact value : Bytes) (now : Utc) : g.Intact (g.step s (.plant findPlant fact value now)) := by
  unfold Setting.step
  dsimp only
  split
  · next row hplant =>
    obtain ⟨x, v, t, hx, hnone, rfl⟩ : ∃ x v t, (g.facts s).find? (·.fact = fact) = some x ∧
        x.value = none ∧ row = .plant fact v t := by
      unfold LoadedPairs.plant at hplant
      dsimp only at hplant
      split at hplant
      · cases hplant
      · obtain ⟨x, hx, hplant⟩ := bind_eq_ok.mp hplant
        obtain ⟨hfind, hnone⟩ := plantable_find hx
        split at hplant
        · cases hplant
        · split at hplant
          · cases hplant
          · obtain rfl := Except.ok.inj hplant
            exact ⟨x, _, _, hfind, hnone, rfl⟩
    have hfacts : g.facts { s with record := s.record.append (.fact (.plant fact v t)) } =
        updateFact fact (fun f => { f with value := some v, plantedAt := some t }) (g.facts s) := by
      rw [Setting.facts, Record.append, LoadedPairs.factsFromRows, List.foldl_append]
      rfl
    have hasked : askedOffsets (s.record.append (.fact (.plant fact v t))) = askedOffsets s.record := by
      funext f
      simp [askedOffsets, Record.append, FactRow.asked]
    refine ⟨fun f => ?_, hfacts ▸ h.first.update fun _ => rfl, ?_, ?_, h.fresh⟩
    · rw [hasked]
      exact h.same f
    · rw [hfacts, hasked]
      refine h.tracked.of_find fun id y hy hv => ?_
      rw [find_updateFact (fun f => { f with value := some v, plantedAt := some t }) (fun _ => rfl)]
      split
      · next hid =>
        subst hid
        obtain rfl := Option.some.inj (hy.symm.trans hx)
        rw [hnone] at hv
        cases hv
      · exact hy
    · rw [hfacts, map_pair_updateFact (fun f => { f with value := some v, plantedAt := some t })
        fun _ => rfl]
      exact h.pairs
  · exact h

private theorem intact_step (hsha : g.Committed) (act : Act) (h : g.Intact s) (hw : g.Whole s act) :
    g.Intact (g.step s act) := by
  cases act with
  | launch l =>
    cases hplan : g.plan s.record l with
    | none => simpa only [Setting.step, hplan] using h
    | some p => exact intact_launch h hplan (hw p.1 p.2 hplan)
  | draw now random => exact intact_draw hsha h now random
  | plant findPlant fact value now => exact intact_plant h findPlant fact value now

private theorem intact_init : g.Intact Sys.init :=
  ⟨fun _ => rfl, .nil, ⟨fun _ => .nil, fun _ _ hd => by cases hd⟩, rfl, .nil⟩

private theorem countedPlanted_le (record : Record) (fact : Bytes) (offset : Int) :
    countedPlanted record fact offset ≤ (plantedOffsets record fact).count offset := by
  unfold countedPlanted plantedOffsets
  rw [List.count, List.countP_filterMap]
  refine List.countP_mono_left fun r _ hr => ?_
  rcases r with _ | ⟨run, set, arm, side, f, d, o, m⟩
  · cases hr
  · cases side with
    | planted =>
      simp only [ItemRow.counted, Bool.and_eq_true, decide_eq_true_eq] at hr
      simp [ItemRow.planted, hr.1.1, hr.1.2]
    | _ => cases hr

/-- Paired facts over every sequence of runs, draws and plants in which no crash parts a planted
side's row from the ask row that goes with it: at most one counted row of the planted side a fact
and offset, the offsets of a fact go up, and no pair is drawn for two facts. -/
theorem paired_facts_once (g : Setting) (hsha : g.Committed) {s : Sys} (h : g.Runs g.Whole s) :
    (∀ fact offset, countedPlanted s.record fact offset ≤ 1) ∧
      (∀ fact, (plantedOffsets s.record fact).Pairwise (· < ·) ∧
        (askedOffsets s.record fact).Pairwise (· < ·)) ∧
      s.drawn.Nodup := by
  have hk : g.Intact s := h.invariant (I := g.Intact) intact_init
    fun s act hs hw => intact_step hsha act hs hw
  have hup : ∀ fact, (plantedOffsets s.record fact).Pairwise (· < ·) := fun fact =>
    hk.same fact ▸ hk.tracked.increasing fact
  refine ⟨fun fact offset => (countedPlanted_le _ _ _).trans ?_,
    fun fact => ⟨hup fact, hk.tracked.increasing fact⟩, hk.fresh⟩
  exact List.nodup_iff_count_le_one.mp ((hup fact).imp fun hlt => hlt.ne) offset

/-! Sample runs: a pair is drawn and planted at 03:00, and asked a day later. -/

private def plantedFact : Bytes := Text.ascii "f00000000"

/-- SHA-256 on the two commitments of the planted fact; other commitments are told apart by their
last byte. -/
private def pairSha256 (text : Bytes) : { digest : Bytes // digest.length = 32 } :=
  if text = assignmentText [] plantedFact (Text.ascii "p") .a then
    ⟨[71, 87, 115, 194, 130, 13, 109, 201, 95, 113, 130, 122, 125, 24, 106, 88, 81, 145, 213, 145, 215,
      148, 125, 107, 95, 35, 228, 38, 248, 164, 37, 80], rfl⟩
  else if text = assignmentText [] plantedFact (Text.ascii "p") .b then
    ⟨[214, 147, 93, 143, 70, 45, 84, 197, 61, 169, 216, 212, 149, 134, 116, 161, 223, 63, 219, 241, 226,
      3, 179, 209, 114, 5, 10, 30, 170, 99, 191, 182], rfl⟩
  else ⟨text.getLastD 0 :: List.replicate 31 0, rfl⟩

private def pairSetting : Setting :=
  ⟨pairSha256, { ProbeConfig.default with enabled := true }, utc, samplePairs⟩

private theorem assignmentText_fact {fact fact' pair : Bytes} {w w' : Which}
    (h : assignmentText [] fact pair w = assignmentText [] fact' pair w') : fact = fact' := by
  simp only [assignmentText, List.append_assoc, List.append_cancel_left_eq] at h
  exact (List.append_inj' h (by simp)).1

private theorem pairSha256_other {fact : Bytes} (hf : fact ≠ plantedFact) (w : Which) :
    (pairSha256 (assignmentText [] fact (Text.ascii "p") w)).val.head? = some w.asStr := by
  unfold pairSha256
  rw [if_neg fun h => hf (assignmentText_fact h), if_neg fun h => hf (assignmentText_fact h)]
  have hlast : assignmentText [] fact (Text.ascii "p") w = Text.ascii "pulse-null probe fact v1\n" ++
      [Text.newline] ++ fact ++ [Text.newline] ++ Text.ascii "p" ++ [Text.newline] ++ [w.asStr] := by
    simp [assignmentText]
  rw [hlast, List.getLastD_concat]
  rfl

private theorem pairs_committed : pairSetting.Committed := by
  rintro fact _ ⟨p, hp, w, rfl⟩ _ ⟨q, hq, w', rfl⟩ h
  obtain rfl : p = samplePairs.pairs.head (by decide) := by simpa [pairSetting, samplePairs] using hp
  obtain rfl : q = samplePairs.pairs.head (by decide) := by simpa [pairSetting, samplePairs] using hq
  change pairSha256 (assignmentText [] fact (Text.ascii "p") w) =
    pairSha256 (assignmentText [] fact (Text.ascii "p") w') at h
  have hw : w = w' := by
    by_cases hf : fact = plantedFact
    · subst hf
      revert h
      cases w <;> cases w' <;> decide
    · have := pairSha256_other hf w
      rw [h, pairSha256_other hf w'] at this
      revert this
      cases w <;> cases w' <;> decide
  rw [hw]

/-- A run of the paired facts by hand, a day after the plant, whose turns are all answered. -/
private def dayLater (crash : Option Nat) : Launch where
  now := threeOClock + dayNanos
  landlock := .ok ()
  installed := []
  request := ⟨false, [Text.ascii "paired-facts"]⟩
  world := ⟨.ok (), .ok (), .ok (Text.ascii "3fa2b1c4d5e6"), .ok (),
    fun _ => .began (threeOClock + dayNanos) (.answered sampleAnswer) (threeOClock + dayNanos) le_rfl⟩
  first := ⟨Record.empty, threeOClock + dayNanos, ⟨[]⟩, false⟩
  lockedNow := threeOClock + dayNanos
  truths := ⟨[]⟩
  isolated := false
  crash := crash
  clock := by
    intro _ _ _ _ _ _ h
    injection h with h
    exact h.le

private def plantedState : Sys :=
  pairSetting.step (pairSetting.step Sys.init (.draw threeOClock ⟨List.replicate 16 0, rfl⟩))
    (.plant (fun _ _ _ => some threeOClock) plantedFact (Text.ascii "lychee") threeOClock)

private theorem plantedState_runs {ok : Sys → Act → Prop}
    (hd : ∀ s now random, ok s (.draw now random))
    (hp : ∀ s find fact value now, ok s (.plant find fact value now)) :
    pairSetting.Runs ok plantedState :=
  .step _ (.step _ .init (hd _ _ _)) (hp _ _ _ _ _)

private theorem dayLater_whole : pairSetting.Whole plantedState (.launch (dayLater none)) := by
  intro runId plan hplan
  have hall : ((pairSetting.plan plantedState.record (dayLater none)).all fun p =>
      !halfAsked (pairSetting.effects (dayLater none) p.1 p.2)) = true := by decide +kernel
  rw [hplan] at hall
  simpa using hall

theorem paired_facts_once_sample :
    (∀ fact offset, countedPlanted
      (pairSetting.step plantedState (.launch (dayLater none))).record fact offset ≤ 1) ∧
      (∀ fact, (plantedOffsets
          (pairSetting.step plantedState (.launch (dayLater none))).record fact).Pairwise (· < ·) ∧
        (askedOffsets
          (pairSetting.step plantedState (.launch (dayLater none))).record fact).Pairwise (· < ·)) ∧
      (pairSetting.step plantedState (.launch (dayLater none))).drawn.Nodup :=
  paired_facts_once pairSetting pairs_committed
    (.step _ (plantedState_runs (fun _ _ _ => trivial) fun _ _ _ _ _ => trivial) dayLater_whole)

/-- A crash after the planted side's item row and before the ask row: the next run asks the same
fact at the same offset, and its planted side is counted twice. -/
theorem planted_side_counted_twice : ¬ ∀ (g : Setting) (s : Sys), g.Committed →
    g.Runs (fun _ _ => True) s → ∀ fact offset, countedPlanted s.record fact offset ≤ 1 := by
  intro h
  have hle := h pairSetting _ pairs_committed (.step (.launch (dayLater none))
    (.step (.launch (dayLater (some 4))) (plantedState_runs (fun _ _ _ => trivial)
      fun _ _ _ _ _ => trivial) trivial) trivial) plantedFact 1
  revert hle
  decide +kernel

end PulseNull.Probe
