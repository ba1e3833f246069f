import PulseNull.Probe.Turns

/-! A pulse's probe over time: runs that may crash after any of their effects, draws and plants.
The run lock makes each of them one step. -/
namespace PulseNull.Probe

/-- What stays the same: the hash, the config, the timezone and the sealed pairs. -/
structure Setting where
  sha256 : Sha256
  config : ProbeConfig
  tz : Tz
  pairs : LoadedPairs

/-- One start of the probe, scheduled or by hand, and what the world makes of it. No turn starts
before the look under the lock; a crash leaves the first `n` effects. -/
structure Launch where
  now : Utc
  landlock : Except Bytes Unit
  installed : List LoadedSet
  request : RunRequest
  world : World
  first : Look
  lockedNow : Utc
  truths : Truths
  isolated : Bool
  crash : Option Nat
  clock : ∀ runId, TurnContext.After ⟨runId, world.attempt⟩ lockedNow

def Setting.env (g : Setting) (l : Launch) : RunEnv :=
  ⟨g.config, g.tz, l.now, l.landlock, l.installed, g.pairs⟩

/-- The run's id and plan, when it is not refused and its scratch is made. -/
def Setting.plan (g : Setting) (record : Record) (l : Launch) : Option (Bytes × Plan) :=
  match prepare g.sha256 (g.env l) l.request l.world l.first
      ⟨record, l.lockedNow, l.truths, l.isolated⟩, l.world.scratch with
  | .ok plan, .ok runId => some (runId, plan)
  | _, _ => none

/-- What the run does before it ends or crashes. -/
def Setting.effects (g : Setting) (l : Launch) (runId : Bytes) (plan : Plan) : List Effect :=
  let all := runEffects g.sha256 (g.env l) l.request l.world runId plan
  match l.crash with
  | none => all
  | some n => all.take n

def Record.apply (record : Record) : Effect → Record
  | .began _ _ _ => record
  | .append row => record.append row

/-- What the gate admitted a run for, and the CLI turns it started. -/
structure Launched where
  planned : Nat
  begun : Nat
  deriving DecidableEq

/-- The record, and what happened: every CLI start and whether the quota refused it, every admitted
run, and the pair of every draw. -/
structure Sys where
  record : Record
  begun : List (Utc × Bool)
  launched : List Launched
  drawn : List Bytes
  deriving DecidableEq

def Sys.init : Sys := ⟨Record.empty, [], [], []⟩

inductive Act where
  | launch (l : Launch)
  | draw (now : Utc) (random : Uuid)
  | plant (findPlant : Utc → Side → Bytes → Option Utc) (fact value : Bytes) (now : Utc)

def Setting.step (g : Setting) (s : Sys) : Act → Sys
  | .launch l => match g.plan s.record l with
    | none => s
    | some (runId, plan) =>
      let out := g.effects l runId plan
      { s with
        record := out.foldl Record.apply s.record
        begun := s.begun ++ Probe.begun out
        launched := s.launched ++ [⟨plan.plannedTurns, (Probe.begun out).length⟩] }
  | .draw now random => match g.pairs.draw g.sha256 s.record.facts now random with
    | .ok (_, pair, row) =>
      { s with record := s.record.append (.fact row), drawn := s.drawn ++ [pair.id] }
    | .error _ => s
  | .plant findPlant fact value now =>
    match g.pairs.plant g.sha256 s.record.facts findPlant fact value now with
    | .ok row => { s with record := s.record.append (.fact row) }
    | .error _ => s

/-- The states runs, draws and plants reach from an empty record, each of them under `ok`. -/
inductive Setting.Runs (g : Setting) (ok : Sys → Act → Prop) : Sys → Prop where
  | init : g.Runs ok Sys.init
  | step {s : Sys} (act : Act) : g.Runs ok s → ok s act → g.Runs ok (g.step s act)

/-- What holds at first and is kept by every step holds in every state reached. -/
theorem Setting.Runs.invariant {g : Setting} {ok : Sys → Act → Prop} {I : Sys → Prop}
    (init : I Sys.init) (keep : ∀ s act, I s → ok s act → I (g.step s act)) {s : Sys}
    (h : g.Runs ok s) : I s := by
  induction h with
  | init => exact init
  | step act _ hok ih => exact keep _ act ih hok

/-- A run done or cut short has done the first of its effects. -/
theorem Setting.effects_prefix (g : Setting) (l : Launch) (runId : Bytes) (plan : Plan) :
    g.effects l runId plan <+: runEffects g.sha256 (g.env l) l.request l.world runId plan := by
  unfold Setting.effects
  cases l.crash with
  | none => exact List.prefix_rfl
  | some n => exact List.take_prefix n _

/-- A plan was made by the gate's look under the lock. -/
theorem Setting.plan_eq {g : Setting} {record : Record} {l : Launch} {runId : Bytes} {plan : Plan}
    (h : g.plan record l = some (runId, plan)) : ∃ wanted sets,
      lookAt g.sha256 (g.env l) l.request wanted sets ⟨record, l.lockedNow, l.truths, l.isolated⟩ =
        .ok plan := by
  unfold Setting.plan at h
  split at h
  · next hp _ =>
    rw [Option.some.injEq, Prod.mk.injEq] at h
    obtain ⟨_, rfl⟩ := h
    unfold prepare at hp
    obtain ⟨sets, _, hp⟩ := bind_eq_ok.mp hp
    obtain ⟨_, _, hp⟩ := bind_eq_ok.mp hp
    obtain ⟨_, _, hp⟩ := bind_eq_ok.mp hp
    obtain ⟨_, _, hp⟩ := bind_eq_ok.mp hp
    exact ⟨_, sets, hp⟩
  · cases h

/-- What the look under the lock decides. -/
theorem lookAt_eq_ok {sha256 : Sha256} {env : RunEnv} {request : RunRequest} {wanted : Bool}
    {sets : List LoadedSet} {look : Look} {plan : Plan}
    (h : lookAt sha256 env request wanted sets look = .ok plan) :
    plan.truths = look.truths ∧ plan.asks = asksIn sha256 env.pairs wanted look.record look.now ∧
      plan.plannedTurns = planned sha256 plan.sets plan.asks look.truths ∧
      gate env request look plan.plannedTurns = .ok () := by
  obtain ⟨_, hg, h⟩ := bind_eq_ok.mp h
  obtain rfl := Except.ok.inj h
  exact ⟨rfl, rfl, rfl, mapError_eq_ok.mp hg⟩

/-! A sample world: UTC, 03:00 on the first day of the epoch, and a set of one pair. -/

def utc : Tz := ⟨id, some⟩

def threeOClock : Utc := 3 * 60 * minuteNanos

def sampleConfig : ProbeConfig :=
  { ProbeConfig.default with enabled := true, weeklyTurns := 1, maxTurnsPerRun := 1 }

def samplePairs : LoadedPairs where
  set := Text.ascii "paired-facts"
  version := 1
  minN := 10
  offsetsDays := [1, 7, 30, 90]
  maxActive := 3
  instructions := []
  pairs := [⟨Text.ascii "p", ⟨[], [], [], [Text.ascii "favourite sundial"]⟩,
    ⟨[], [], [], [Text.ascii "favourite lighthouse"]⟩⟩]
  factKey := []
  checked := by decide

def sampleAnswer : CapturedRun := ⟨none, none, none, fun _ => .correct, none⟩

end PulseNull.Probe
