import PulseNull.Broadcast
import PulseNull.Text.Bytes

/-! Peer dialogues: the loop, the guard that ends it, the slot that admits one at a time, watchers
and shutdown, each by the steps in which it touches what they share. -/
namespace PulseNull.Comms
open Text (ascii)

def maxTurnsLimit : Nat := 50

/-- Where a dialogue is. -/
inductive Phase where
  | localThinking | peerThinking | paused | finished | failed (why : Bytes) | cancelled
  deriving DecidableEq

def Phase.wire : Phase → Bytes
  | .localThinking => ascii "local_thinking"
  | .peerThinking => ascii "peer_thinking"
  | .paused => ascii "paused"
  | .finished => ascii "finished"
  | .failed _ => ascii "failed"
  | .cancelled => ascii "cancelled"

def Phase.isOver : Phase → Bool
  | .finished | .failed _ | .cancelled => true
  | .localThinking | .peerThinking | .paused => false

structure Turn where
  who : Bytes
  text : Bytes
  n : Nat
  deriving DecidableEq

structure StartRequest where
  peer : Bytes
  topic : Option Bytes
  maxTurns : Nat
  deriving DecidableEq

structure CommsStatus where
  id : Nat
  peer : Bytes
  topic : Option Bytes
  turn : Nat
  maxTurns : Nat
  phase : Bytes
  error : Option Bytes
  archived : Bool
  deriving DecidableEq

inductive CommsEvent where
  | turn (t : Turn)
  | status (status : CommsStatus)
  | error (message : Bytes) (archived : Bool)
  | done (archived : Bool)
  deriving DecidableEq

/-- Whose turn it is. -/
inductive Side where
  | own | peer
  deriving DecidableEq

def Side.other : Side → Side
  | .own => .peer
  | .peer => .own

def Side.thinking : Side → Phase
  | .own => .localThinking
  | .peer => .peerThinking

/-- Where the task of a dialogue stands. The loop: before its first check; before another turn; to
say it is thinking; in a call; with an answer; with a turn to announce; to say it is over. `telling`
is before a status goes out. The guard: to mark the end; to archive; to record whether it was; to say
the last status; to say the end. -/
inductive Stage where
  | begin
  | between (side : Side)
  | thinking (side : Side)
  | calling (side : Side)
  | answered (side : Side) (text : Bytes)
  | pushed (side : Side) (turn : Turn)
  | concluding (phase : Phase)
  | telling (next : Stage)
  | leaving
  | archiving
  | recording (archived : Bool)
  | noting
  | ending (error : Option Bytes)
  | gone
  deriving DecidableEq

/-- A dialogue and its task; `aborted` once the task has been asked to stop. -/
structure Dialogue where
  id : Nat
  localName : Bytes
  peer : Bytes
  topic : Option Bytes
  maxTurns : Nat
  turns : List Turn
  phase : Phase
  beforePause : Option Phase
  abort : Bool
  archived : Bool
  tx : Broadcast CommsEvent
  pause : Bool
  stage : Stage
  aborted : Bool
  deriving DecidableEq

def Dialogue.new (id : Nat) (localName : Bytes) (req : StartRequest) (slots : Nat) : Dialogue where
  id := id
  localName := localName
  peer := req.peer
  topic := req.topic
  maxTurns := min (max req.maxTurns 1) maxTurnsLimit
  turns := []
  phase := .localThinking
  beforePause := none
  abort := true
  archived := false
  tx := ⟨slots, []⟩
  pause := true
  stage := .begin
  aborted := false

def Dialogue.name (d : Dialogue) : Side → Bytes
  | .own => d.localName
  | .peer => d.peer

def Phase.error : Phase → Option Bytes
  | .failed e => some e
  | _ => none

def Dialogue.status (d : Dialogue) : CommsStatus :=
  ⟨d.id, d.peer, d.topic, d.turns.length, d.maxTurns, d.phase.wire, d.phase.error, d.archived⟩

def Dialogue.send (d : Dialogue) (e : CommsEvent) : Dialogue := { d with tx := d.tx.send e }

/-- What `set_phase` does under the lock, and whether it is to send the status. An ending stays; a
pause wins over thinking until resume. -/
def Dialogue.setPhase (d : Dialogue) (phase : Phase) : Dialogue × Bool :=
  if d.phase.isOver then (d, false)
  else if d.phase = .paused ∧ (phase = .localThinking ∨ phase = .peerThinking) then
    ({ d with beforePause := some phase }, false)
  else ({ d with phase := phase }, true)

/-- What `set_paused` does, and whether it is to send the status. -/
def Dialogue.setPaused (d : Dialogue) (paused : Bool) : Dialogue × Bool :=
  let d := { d with pause := !paused }
  if d.phase.isOver then (d, false)
  else if paused = true ∧ d.phase ≠ .paused then
    ({ d with phase := .paused, beforePause := some d.phase }, true)
  else if paused = false ∧ d.phase = .paused then
    ({ d with phase := d.beforePause.getD .localThinking, beforePause := none }, true)
  else (d, false)

/-- The task is asked to stop if its handle is still there. -/
def Dialogue.stop (d : Dialogue) : Dialogue :=
  if d.phase.isOver then d
  else { d with phase := .cancelled, abort := false, aborted := d.aborted || d.abort }

/-- What the world gives a task: isolation mode, an answer, and whether the archive gets written. -/
structure Env where
  isolated : Bool
  answer : Except Bytes Bytes
  written : Bool

def shedByIsolation : Bytes := ascii "shed by isolation mode"

/-- Whether a conversation file was written. -/
def Dialogue.archive (d : Dialogue) (env : Env) : Bool :=
  !env.isolated && d.turns ≠ [] && env.written

def Dialogue.told (d : Dialogue × Bool) (next : Stage) : Dialogue :=
  { d.1 with stage := if d.2 then .telling next else next }

/-- A step of the task. -/
def Dialogue.run (d : Dialogue) (env : Env) : Dialogue :=
  match d.stage with
  | .begin => { d with stage := if env.isolated then .concluding (.failed shedByIsolation) else .thinking .own }
  | .between side =>
    if d.pause = false then d
    else { d with
      stage := if env.isolated then .concluding (.failed shedByIsolation) else .thinking side }
  | .thinking side => .told (d.setPhase side.thinking) (.calling side)
  | .calling side => match env.answer with
    | .ok text => { d with stage := .answered side text }
    | .error e => { d with stage := .concluding (.failed (d.name side ++ ascii ": " ++ e)) }
  | .answered side text =>
    let turn : Turn := ⟨d.name side, text, d.turns.length + 1⟩
    { d with turns := d.turns ++ [turn], stage := .pushed side turn }
  | .pushed side turn =>
    { d.send (.turn turn) with
      stage := if turn.n < d.maxTurns then .between side.other else .concluding .finished }
  | .concluding phase => .told (d.setPhase phase) .leaving
  | .telling next => { d.send (.status d.status) with stage := next }
  | .leaving =>
    { d with
      phase := if d.phase.isOver then d.phase else .cancelled
      abort := false
      stage := .archiving }
  | .archiving => { d with stage := .recording (d.archive env) }
  | .recording archived => { d with archived := archived, stage := .noting }
  | .noting => { d.send (.status d.status) with stage := .ending d.status.error }
  | .ending error =>
    { d.send (error.elim (.done d.archived) fun message => .error message d.archived) with
      stage := .gone }
  | .gone => d

/-- Where a task can be dropped: it waits. -/
def Stage.waits : Stage → Bool
  | .begin | .between _ | .calling _ => true
  | _ => false

/-- An abort takes effect where the task waits; its guard runs. -/
def Dialogue.land (d : Dialogue) : Dialogue :=
  if d.aborted ∧ d.stage.waits = true then { d with stage := .leaving } else d

/-! Watchers. -/

/-- Where a watcher stands: with a snapshot of the turns, whether the dialogue was over, and its place
in the channel; live; or at the end. -/
inductive Watching where
  | subscribed (turns : List Turn) (isOver : Bool) (pos : Nat)
  | live (pos : Nat)
  | ended
  deriving DecidableEq

structure Watcher where
  dialogue : Nat
  stage : Watching
  lastN : Nat
  seen : List CommsEvent
  deriving DecidableEq

def Dialogue.subscribe (d : Dialogue) : Watching :=
  .subscribed d.turns d.phase.isOver d.tx.subscribe

/-- The replayed ending of a dialogue that is over. -/
def ending (status : CommsStatus) : CommsEvent :=
  status.error.elim (.done status.archived) fun message => .error message status.archived

def CommsEvent.isEnding : CommsEvent → Bool
  | .done _ | .error _ _ => true
  | .turn _ | .status _ => false

/-- The snapshot is replayed as far as it is new, with the status as it is now. -/
def Watcher.replay (w : Watcher) (turns : List Turn) (isOver : Bool) (pos : Nat)
    (status : CommsStatus) : Watcher :=
  let missed := turns.filter (w.lastN < ·.n)
  { w with
    stage := if isOver then .ended else .live pos
    lastN := (missed.getLast?.map (·.n)).getD w.lastN
    seen := w.seen ++ missed.map .turn ++ [.status status] ++ if isOver then [ending status] else [] }

/-- What a live watcher does with what it receives. -/
def Watcher.receive (w : Watcher) (d : Dialogue) (pos : Nat) : Watcher :=
  match d.tx.recv pos with
  | .pending => w
  | .lagged _ => { w with stage := d.subscribe }
  | .value (.turn t) =>
    if t.n ≤ w.lastN then { w with stage := .live (pos + 1) }
    else { w with stage := .live (pos + 1), lastN := t.n, seen := w.seen ++ [.turn t] }
  | .value e =>
    { w with stage := if e.isEnding then .ended else .live (pos + 1), seen := w.seen ++ [e] }

/-- A step of a watcher. -/
def Watcher.run (w : Watcher) (d : Dialogue) : Watcher :=
  match w.stage with
  | .subscribed turns isOver pos => w.replay turns isOver pos d.status
  | .live pos => w.receive d pos
  | .ended => w

/-! The daemon. -/

/-- Where `Slot::shutdown` stands. -/
inductive Shutdown where
  | idle
  | closing
  | found (id : Nat)
  | stopping (id pos : Nat)
  | waiting (id pos : Nat)
  | returned
  deriving DecidableEq

/-- `starting` are the requests that have passed the first checks, `notices` the dialogues whose
status a pause or resume is still to send, and `archives` the conversation files written. -/
structure Sys where
  closed : Bool
  current : Option Nat
  dialogues : List Dialogue
  starting : List StartRequest
  notices : List Nat
  watchers : List Watcher
  shutdown : Shutdown
  archives : List (Nat × List (Bytes × Bytes))
  deriving DecidableEq

def Sys.start : Sys := ⟨false, none, [], [], [], [], .idle, []⟩

inductive Act where
  | request (req : StartRequest) (isolated : Bool)
  | admits (k : Nat)
  | run (id : Nat) (env : Env)
  | land (id : Nat)
  | setPaused (id : Nat) (paused : Bool)
  | notice (k : Nat)
  | stop (id : Nat)
  | watch (id : Nat)
  | watcher (w : Nat)
  | shutdown
  | timeout

def Sys.modify (s : Sys) (id : Nat) (f : Dialogue → Dialogue) : Sys :=
  match s.dialogues[id]? with
  | some d => { s with dialogues := s.dialogues.set id (f d) }
  | none => s

/-- The dialogue in the slot. -/
def Sys.running (s : Sys) : Option Dialogue := s.current.bind (s.dialogues[·]?)

/-- A dialogue that is not over keeps others out. -/
def Sys.admits (localName : Bytes) (slots : Nat) (s : Sys) (k : Nat) : Sys :=
  match s.starting[k]? with
  | none => s
  | some req =>
    let s := { s with starting := s.starting.eraseIdx k }
    if s.running.any fun d => !d.phase.isOver then s
    else { s with
      current := some s.dialogues.length
      dialogues := s.dialogues ++ [.new s.dialogues.length localName req slots] }

def Dialogue.messages (d : Dialogue) : List (Bytes × Bytes) := d.turns.map fun t => (t.who, t.text)

/-- The conversation file a step writes. -/
def Dialogue.written (d : Dialogue) (env : Env) : List (Nat × List (Bytes × Bytes)) :=
  if d.stage = .archiving ∧ d.archive env = true then [(d.id, d.messages)] else []

def Sys.run (s : Sys) (id : Nat) (env : Env) : Sys :=
  match s.dialogues[id]? with
  | some d => { s with
      dialogues := s.dialogues.set id (d.run env)
      archives := s.archives ++ d.written env }
  | none => s

def Sys.setPaused (s : Sys) (id : Nat) (paused : Bool) : Sys :=
  match s.dialogues[id]? with
  | some d => { s with
      dialogues := s.dialogues.set id (d.setPaused paused).1
      notices := if (d.setPaused paused).2 then s.notices ++ [id] else s.notices }
  | none => s

def Sys.notice (s : Sys) (k : Nat) : Sys :=
  match s.notices[k]? with
  | some id => { s.modify id fun d => d.send (.status d.status) with notices := s.notices.eraseIdx k }
  | none => s

def Sys.watch (s : Sys) (id : Nat) : Sys :=
  match s.dialogues[id]? with
  | some d => { s with watchers := s.watchers ++ [⟨id, d.subscribe, 0, []⟩] }
  | none => s

def Sys.watcher (s : Sys) (k : Nat) : Sys :=
  match s.watchers[k]? with
  | none => s
  | some w => match s.dialogues[w.dialogue]? with
    | some d => { s with watchers := s.watchers.set k (w.run d) }
    | none => s

/-- What the wait for the ending does with what it receives. -/
def waitFor (d : Dialogue) (id pos : Nat) : Shutdown :=
  match d.tx.recv pos with
  | .pending => .waiting id pos
  | .lagged missed => .waiting id (pos + missed)
  | .value e => if e.isEnding then .returned else .waiting id (pos + 1)

/-- A step of the shutdown. -/
def Sys.shutdownStep (s : Sys) : Sys :=
  match s.shutdown with
  | .idle => { s with closed := true, shutdown := .closing }
  | .closing => { s with shutdown := s.current.elim .returned .found }
  | .found id => match s.dialogues[id]? with
    | some d => { s with shutdown :=
        if d.phase.isOver then .returned else .stopping id d.tx.subscribe }
    | none => s
  | .stopping id pos => { s.modify id Dialogue.stop with shutdown := .waiting id pos }
  | .waiting id pos => match s.dialogues[id]? with
    | some d => { s with shutdown := waitFor d id pos }
    | none => s
  | .returned => s

def Sys.timeout (s : Sys) : Sys :=
  match s.shutdown with
  | .waiting _ _ => { s with shutdown := .returned }
  | _ => s

def Sys.step (localName : Bytes) (slots : Nat) (s : Sys) : Act → Sys
  | .request req isolated =>
    if isolated || s.closed then s else { s with starting := s.starting ++ [req] }
  | .admits k => s.admits localName slots k
  | .run id env => s.run id env
  | .land id => s.modify id Dialogue.land
  | .setPaused id paused => s.setPaused id paused
  | .notice k => s.notice k
  | .stop id => s.modify id Dialogue.stop
  | .watch id => s.watch id
  | .watcher k => s.watcher k
  | .shutdown => s.shutdownStep
  | .timeout => s.timeout

end PulseNull.Comms
