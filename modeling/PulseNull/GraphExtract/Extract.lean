import PulseNull.Machine

/-! Background extraction of archives: the ledger on disk, the queue, the one worker, the live
enqueues and the catch-up of a boot, each by the steps in which it touches what they share. -/
namespace PulseNull.GraphExtract

/-- Days of the calendar, counted. -/
abbrev Day := Int

def maxQueued : Nat := 64
def maxConsecutiveFailures : Nat := 3

/-! The ledger. -/

structure LedgerState where
  day : Option Day
  tokens : Nat
  watermark : Option Nat
  deriving DecidableEq

def LedgerState.empty : LedgerState := ⟨none, 0, none⟩

def LedgerState.raiseWatermark (l : LedgerState) (logNumber : Nat) : LedgerState :=
  if l.watermark.any (logNumber ≤ ·) then l
  else { l with watermark := some (l.watermark.elim logNumber fun w => max w logNumber) }

def spent (l : LedgerState) (day : Day) : Nat := if l.day = some day then l.tokens else 0

/-- A limit of zero is no cap. -/
def exhausted (limit : Nat) (l : LedgerState) (day : Day) : Bool :=
  0 < limit && limit ≤ spent l day

def charge (l : LedgerState) (day : Day) (tokens : Nat) : LedgerState :=
  let before := if l.day = some day then l.tokens else 0
  { l with day := some day, tokens := min (before + tokens) (2^64 - 1) }

/-! The queue. -/

structure Queue where
  pending : List Nat
  backlog : List Nat
  running : Bool
  catchingUp : Bool
  consecutiveFailures : Nat
  pausedOn : Option Day
  budgetNotedOn : Option Day
  deriving DecidableEq

def Queue.empty : Queue := ⟨[], [], false, false, 0, none, none⟩

/-- The queue after a refill, the archives moved and the highest of them. -/
structure Refilled where
  pending : List Nat
  backlog : List Nat
  moved : List Nat

/-- Backlog goes into free slots, oldest first. -/
def refill (pending moved : List Nat) : List Nat → Refilled
  | [] => ⟨pending, [], moved⟩
  | n :: backlog =>
    if pending.length < maxQueued then
      if n ∈ pending then refill pending moved backlog
      else refill (pending ++ [n]) (moved ++ [n]) backlog
    else ⟨pending, n :: backlog, moved⟩

def Refilled.raised (r : Refilled) : Option Nat := r.moved.max?

inductive Enqueued where
  | duplicate
  | full
  | pushed (start : Bool)
  deriving DecidableEq

/-- What an enqueue does under the lock. -/
def Queue.enqueue (q : Queue) (logNumber : Nat) : Queue × Enqueued :=
  if logNumber ∈ q.pending then (q, .duplicate)
  else if maxQueued ≤ q.pending.length then (q, .full)
  else ({ q with pending := q.pending ++ [logNumber], running := true }, .pushed (!q.running))

/-- What `next_job` does under the lock: the archive, and what to raise the watermark to. -/
def Queue.nextJob (q : Queue) : Queue × Option Nat × Option Nat :=
  let r := refill q.pending [] q.backlog
  match r.pending with
  | [] => ({ q with pending := [], backlog := r.backlog, running := false }, none, r.raised)
  | n :: pending => ({ q with pending := pending, backlog := r.backlog }, some n, r.raised)

def addBacklog (pending backlog : List Nat) : List Nat → List Nat
  | [] => backlog
  | n :: found =>
    if n ∈ pending ∨ n ∈ backlog then addBacklog pending backlog found
    else addBacklog pending (backlog ++ [n]) found

/-- What `catch_up` does under the lock: what to raise the watermark to, and whether it is to start
the worker. -/
def Queue.admits (q : Queue) (found : List Nat) : Queue × Option Nat × Bool :=
  let r := refill q.pending [] (addBacklog q.pending q.backlog found)
  let start := !r.pending.isEmpty && !q.running
  ({ q with
    catchingUp := false
    pending := r.pending
    backlog := r.backlog
    running := q.running || !r.pending.isEmpty }, r.raised, start)

/-- Whether an archive must not be extracted now, and the queue after saying so. -/
def Queue.refusal (q : Queue) (isolated : Bool) (limit : Nat) (l : LedgerState) (today : Day) :
    Bool × Queue :=
  if isolated then (true, q)
  else if q.pausedOn = some today then (true, q)
  else if !exhausted limit l today then (false, q)
  else (true, { q with budgetNotedOn := some today })

inductive Outcome where
  | extracted | nothingPending | providerUnavailable | failed
  deriving DecidableEq

def Queue.recordFailure (q : Queue) (today : Day) : Queue :=
  if maxConsecutiveFailures ≤ q.consecutiveFailures + 1 then
    { q with consecutiveFailures := 0, pausedOn := some today }
  else { q with consecutiveFailures := q.consecutiveFailures + 1 }

def Queue.report (q : Queue) (today : Day) : Outcome → Queue
  | .extracted => { q with consecutiveFailures := 0 }
  | .nothingPending | .providerUnavailable => q
  | .failed => q.recordFailure today

/-! The process and what is left of it. -/

/-- Where a worker stands: before `next_job`; in it, its lock released; with an archive; with one
the backend is extracting. -/
inductive Worker where
  | ready
  | raising (next : Nat) (raised : Option Nat)
  | chosen (logNumber : Nat)
  | extracting (logNumber : Nat) (today : Day)
  deriving DecidableEq

/-- Where the catch-up stands: not running; before its scan; with the store asked; with what it
found; with its lock released. -/
inductive CatchUp where
  | idle
  | scanning (watermark : Nat)
  | asking (candidates : List Nat)
  | found (logs : List Nat)
  | raising (raised : Option Nat) (start : Bool)
  deriving DecidableEq

/-- One life of the process. `enqueues` are the calls that hold a number still to raise the watermark
to. `since` is the watermark it started from, `top` the highest archive then, and `queued` what has
been put in the queue. -/
structure Life where
  queue : Queue
  workers : List Worker
  enqueues : List (Nat × Bool)
  catchUp : CatchUp
  since : Nat
  top : Nat
  queued : List Nat
  deriving DecidableEq

/-- `first` is the watermark the first boot set; `queued`, `refused` and `handed` are the archives
ever put in the queue, refused as it was full, and handed to the backend. -/
structure Sys where
  archives : List Nat
  ledger : LedgerState
  today : Day
  life : Option Life
  first : Option Nat
  queued : List Nat
  refused : List Nat
  handed : List Nat
  deriving DecidableEq

/-- A life as `start_catch_up` leaves it. -/
def Life.new (since top : Nat) (catchUp : Bool) : Life :=
  ⟨{ Queue.empty with catchingUp := catchUp }, [], [], if catchUp then .scanning since else .idle,
    since, top, []⟩

def Sys.start (today : Day) : Sys := ⟨[], .empty, today, none, none, [], [], []⟩

inductive Act where
  | write (logNumber : Nat)
  | boot
  | enqueue (logNumber : Nat)
  | enqueued (call : Nat × Bool)
  | scan
  | answer (pending : Option (List Nat))
  | admits
  | caughtUp
  | nextJob (worker : Nat)
  | chosen (worker : Nat)
  | process (worker : Nat) (isolated : Bool)
  | finish (worker : Nat) (outcome : Outcome) (tokens : Nat)
  | panic (worker : Nat)
  | day (today : Day)
  | crash

/-- Log numbers increase. -/
def Sys.write (s : Sys) (logNumber : Nat) : Sys :=
  if s.archives.all (· < logNumber) then { s with archives := s.archives ++ [logNumber] } else s

def highest (archives : List Nat) : Nat := archives.getLast?.getD 0

/-- `start_catch_up`, before anything can be enqueued. -/
def Sys.boot (s : Sys) : Sys :=
  match s.life with
  | some _ => s
  | none =>
    let top := highest s.archives
    match s.ledger.watermark with
    | none =>
      { s with
        ledger := s.ledger.raiseWatermark top
        first := some top
        life := some (.new top top false) }
    | some w => { s with life := some (.new w top (decide (w < top))) }

/-- An archive that has landed is enqueued. -/
def Sys.enqueue (s : Sys) (logNumber : Nat) : Sys :=
  match s.life with
  | none => s
  | some life =>
    if logNumber ∈ s.archives then
      match life.queue.enqueue logNumber with
      | (_, .duplicate) => s
      | (_, .full) => { s with refused := s.refused ++ [logNumber] }
      | (queue, .pushed start) =>
        { s with
          life := some { life with
            queue := queue
            enqueues := life.enqueues ++ [(logNumber, start)]
            queued := life.queued ++ [logNumber] }
          queued := s.queued ++ [logNumber] }
    else s

def startWorker (start : Bool) (workers : List Worker) : List Worker :=
  if start then workers ++ [.ready] else workers

def raiseTo (l : LedgerState) (raised : Option Nat) : LedgerState :=
  raised.elim l l.raiseWatermark

/-- The rest of an enqueue: the watermark, then the worker. -/
def Sys.enqueued (s : Sys) (call : Nat × Bool) : Sys :=
  match s.life with
  | none => s
  | some life =>
    if call ∈ life.enqueues then
      { s with
        ledger := s.ledger.raiseWatermark call.1
        life := some { life with
          enqueues := life.enqueues.erase call
          workers := startWorker call.2 life.workers } }
    else s

def Sys.scan (s : Sys) : Sys :=
  match s.life with
  | none => s
  | some life => match life.catchUp with
    | .scanning w => { s with life := some { life with
        catchUp := .asking (s.archives.filter (w < ·)) } }
    | _ => s

/-- What the catch-up is to queue, by what the store says is pending. -/
def listed (candidates : List Nat) : Option (List Nat) → List Nat
  | some pending => candidates.filter (· ∈ pending)
  | none => candidates

def Sys.answer (s : Sys) (pending : Option (List Nat)) : Sys :=
  match s.life with
  | none => s
  | some life => match life.catchUp with
    | .asking candidates => { s with life := some { life with
        catchUp := .found (listed candidates pending) } }
    | _ => s

def Sys.admits (s : Sys) : Sys :=
  match s.life with
  | none => s
  | some life => match life.catchUp with
    | .found logs =>
      let moved := (refill life.queue.pending []
        (addBacklog life.queue.pending life.queue.backlog logs)).moved
      let (queue, raised, start) := life.queue.admits logs
      { s with
        life := some { life with
          queue := queue
          catchUp := .raising raised start
          queued := life.queued ++ moved }
        queued := s.queued ++ moved }
    | _ => s

def Sys.caughtUp (s : Sys) : Sys :=
  match s.life with
  | none => s
  | some life => match life.catchUp with
    | .raising raised start =>
      { s with
        ledger := raiseTo s.ledger raised
        life := some { life with catchUp := .idle, workers := startWorker start life.workers } }
    | _ => s

/-- A step of one worker. -/
def Sys.worker (s : Sys) (i : Nat) (step : Life → Worker → Sys) : Sys :=
  match s.life with
  | none => s
  | some life => match life.workers[i]? with
    | some w => step life w
    | none => s

/-- Without an archive the worker ends: nothing was moved, so there is nothing to raise. -/
def Sys.nextJob (s : Sys) (i : Nat) : Sys :=
  s.worker i fun life w => match w with
    | .ready =>
      let moved := (refill life.queue.pending [] life.queue.backlog).moved
      let (queue, next, raised) := life.queue.nextJob
      { s with
        life := some { life with
          queue := queue
          workers := match next with
            | some n => life.workers.set i (.raising n raised)
            | none => life.workers.eraseIdx i
          queued := life.queued ++ moved }
        queued := s.queued ++ moved }
    | _ => s

/-- `next_job` returns. -/
def Sys.chosen (s : Sys) (i : Nat) : Sys :=
  s.worker i fun life w => match w with
    | .raising next raised =>
      { s with
        ledger := raiseTo s.ledger raised
        life := some { life with workers := life.workers.set i (.chosen next) } }
    | _ => s

def Sys.process (limit : Nat) (s : Sys) (i : Nat) (isolated : Bool) : Sys :=
  s.worker i fun life w => match w with
    | .chosen n => match life.queue.refusal isolated limit s.ledger s.today with
      | (true, queue) => { s with life := some { life with
          queue := queue
          workers := life.workers.set i .ready } }
      | (false, queue) =>
        { s with
          life := some { life with
            queue := queue
            workers := life.workers.set i (.extracting n s.today) }
          handed := s.handed ++ [n] }
    | _ => s

def Sys.finish (s : Sys) (i : Nat) (outcome : Outcome) (tokens : Nat) : Sys :=
  s.worker i fun life w => match w with
    | .extracting _ today =>
      { s with
        ledger := if 0 < tokens then charge s.ledger today tokens else s.ledger
        life := some { life with
          queue := life.queue.report today outcome
          workers := life.workers.set i .ready } }
    | _ => s

def Sys.panic (s : Sys) (i : Nat) : Sys :=
  s.worker i fun life _ => { s with life := some { life with
    queue := { life.queue with running := false }
    workers := life.workers.eraseIdx i } }

def Sys.step (limit : Nat) (s : Sys) : Act → Sys
  | .write logNumber => s.write logNumber
  | .boot => s.boot
  | .enqueue logNumber => s.enqueue logNumber
  | .enqueued call => s.enqueued call
  | .scan => s.scan
  | .answer pending => s.answer pending
  | .admits => s.admits
  | .caughtUp => s.caughtUp
  | .nextJob i => s.nextJob i
  | .chosen i => s.chosen i
  | .process i isolated => s.process limit i isolated
  | .finish i outcome tokens => s.finish i outcome tokens
  | .panic i => s.panic i
  | .day today => { s with today := today }
  | .crash => { s with life := none }

/-! What a step can do. -/

/-- The queue of a life, refilled. -/
def Life.refilled (life : Life) : Refilled := refill life.queue.pending [] life.queue.backlog

/-- The queue with what the catch-up found, refilled. -/
def Life.admitted (life : Life) (logs : List Nat) : Refilled :=
  refill life.queue.pending [] (addBacklog life.queue.pending life.queue.backlog logs)

inductive Step (limit : Nat) (s : Sys) : Act → Sys → Prop where
  | idle (act : Act) : Step limit s act s
  | write {n : Nat} (h : ∀ m ∈ s.archives, m < n) :
      Step limit s (.write n) { s with archives := s.archives ++ [n] }
  | firstBoot (hl : s.life = none) (hw : s.ledger.watermark = none) :
      Step limit s .boot { s with
        ledger := s.ledger.raiseWatermark (highest s.archives)
        first := some (highest s.archives)
        life := some (.new (highest s.archives) (highest s.archives) false) }
  | boot {w : Nat} (hl : s.life = none) (hw : s.ledger.watermark = some w) :
      Step limit s .boot { s with
        life := some (.new w (highest s.archives) (decide (w < highest s.archives))) }
  | refused {life : Life} {n : Nat} (hl : s.life = some life) :
      Step limit s (.enqueue n) { s with refused := s.refused ++ [n] }
  | pushed {life : Life} {n : Nat} (hl : s.life = some life) (hn : n ∈ s.archives)
      (hp : n ∉ life.queue.pending) (hroom : life.queue.pending.length < maxQueued) :
      Step limit s (.enqueue n) { s with
        life := some { life with
          queue := { life.queue with pending := life.queue.pending ++ [n], running := true }
          enqueues := life.enqueues ++ [(n, !life.queue.running)]
          queued := life.queued ++ [n] }
        queued := s.queued ++ [n] }
  | enqueued {life : Life} {call : Nat × Bool} (hl : s.life = some life)
      (hc : call ∈ life.enqueues) :
      Step limit s (.enqueued call) { s with
        ledger := s.ledger.raiseWatermark call.1
        life := some { life with
          enqueues := life.enqueues.erase call
          workers := startWorker call.2 life.workers } }
  | scan {life : Life} {w : Nat} (hl : s.life = some life) (hc : life.catchUp = .scanning w) :
      Step limit s .scan { s with life := some { life with
        catchUp := .asking (s.archives.filter (w < ·)) } }
  | answer {life : Life} {candidates : List Nat} {pending : Option (List Nat)}
      (hl : s.life = some life) (hc : life.catchUp = .asking candidates) :
      Step limit s (.answer pending) { s with life := some { life with
        catchUp := .found (listed candidates pending) } }
  | admits {life : Life} {logs : List Nat} (hl : s.life = some life)
      (hc : life.catchUp = .found logs) :
      Step limit s .admits { s with
        life := some { life with
          queue := { life.queue with
            catchingUp := false
            pending := (life.admitted logs).pending
            backlog := (life.admitted logs).backlog
            running := life.queue.running || !(life.admitted logs).pending.isEmpty }
          catchUp := .raising (life.admitted logs).raised
            (!(life.admitted logs).pending.isEmpty && !life.queue.running)
          queued := life.queued ++ (life.admitted logs).moved }
        queued := s.queued ++ (life.admitted logs).moved }
  | caughtUp {life : Life} {raised : Option Nat} {start : Bool} (hl : s.life = some life)
      (hc : life.catchUp = .raising raised start) :
      Step limit s .caughtUp { s with
        ledger := raiseTo s.ledger raised
        life := some { life with
          catchUp := .idle, workers := startWorker start life.workers } }
  | took {life : Life} {i n : Nat} {pending : List Nat} (hl : s.life = some life)
      (hi : life.workers[i]? = some .ready) (hp : life.refilled.pending = n :: pending) :
      Step limit s (.nextJob i) { s with
        life := some { life with
          queue := { life.queue with pending := pending, backlog := life.refilled.backlog }
          workers := life.workers.set i (.raising n life.refilled.raised)
          queued := life.queued ++ life.refilled.moved }
        queued := s.queued ++ life.refilled.moved }
  | ended {life : Life} {i : Nat} (hl : s.life = some life)
      (hi : life.workers[i]? = some .ready) (hp : life.refilled.pending = []) :
      Step limit s (.nextJob i) { s with
        life := some { life with
          queue := { life.queue with
            pending := [], backlog := life.refilled.backlog, running := false }
          workers := life.workers.eraseIdx i
          queued := life.queued ++ life.refilled.moved }
        queued := s.queued ++ life.refilled.moved }
  | chosen {life : Life} {i n : Nat} {raised : Option Nat} (hl : s.life = some life)
      (hi : life.workers[i]? = some (.raising n raised)) :
      Step limit s (.chosen i) { s with
        ledger := raiseTo s.ledger raised
        life := some { life with workers := life.workers.set i (.chosen n) } }
  | skipped {life : Life} {i n : Nat} {isolated : Bool} {noted : Option Day}
      (hl : s.life = some life) (hi : life.workers[i]? = some (.chosen n)) :
      Step limit s (.process i isolated) { s with
        life := some { life with
          queue := { life.queue with budgetNotedOn := noted }
          workers := life.workers.set i .ready } }
  | handed {life : Life} {i n : Nat} {isolated : Bool} (hl : s.life = some life)
      (hi : life.workers[i]? = some (.chosen n)) :
      Step limit s (.process i isolated) { s with
        life := some { life with workers := life.workers.set i (.extracting n s.today) }
        handed := s.handed ++ [n] }
  | finish {life : Life} {i n : Nat} {day : Day} {outcome : Outcome} {tokens : Nat}
      {ledger : LedgerState} {failures : Nat} {paused : Option Day} (hl : s.life = some life)
      (hi : life.workers[i]? = some (.extracting n day)) (hw : ledger.watermark = s.ledger.watermark) :
      Step limit s (.finish i outcome tokens) { s with
        ledger := ledger
        life := some { life with
          queue := { life.queue with consecutiveFailures := failures, pausedOn := paused }
          workers := life.workers.set i .ready } }
  | panic {life : Life} {i : Nat} (hl : s.life = some life) (hi : i < life.workers.length) :
      Step limit s (.panic i) { s with life := some { life with
        queue := { life.queue with running := false }
        workers := life.workers.eraseIdx i } }
  | day {today : Day} : Step limit s (.day today) { s with today := today }
  | crash : Step limit s .crash { s with life := none }

theorem worker_cases (s : Sys) (i : Nat) (step : Life → Worker → Sys) :
    s.worker i step = s ∨ ∃ life w, s.life = some life ∧ life.workers[i]? = some w ∧
      s.worker i step = step life w := by
  unfold Sys.worker
  split
  · exact .inl rfl
  · next life hl =>
    split
    · next w hw => exact .inr ⟨life, w, hl, hw, rfl⟩
    · exact .inl rfl

theorem refusal_cases (q : Queue) (isolated : Bool) (limit : Nat) (l : LedgerState) (today : Day) :
    (∃ noted, q.refusal isolated limit l today = (true, { q with budgetNotedOn := noted })) ∨
      q.refusal isolated limit l today = (false, q) := by
  unfold Queue.refusal
  split
  · exact .inl ⟨q.budgetNotedOn, rfl⟩
  · split
    · exact .inl ⟨q.budgetNotedOn, rfl⟩
    · split
      · exact .inr rfl
      · exact .inl ⟨some today, rfl⟩

theorem report_cases (q : Queue) (today : Day) (outcome : Outcome) : ∃ failures paused,
    q.report today outcome = { q with consecutiveFailures := failures, pausedOn := paused } := by
  cases outcome with
  | extracted => exact ⟨0, q.pausedOn, rfl⟩
  | nothingPending => exact ⟨q.consecutiveFailures, q.pausedOn, rfl⟩
  | providerUnavailable => exact ⟨q.consecutiveFailures, q.pausedOn, rfl⟩
  | failed =>
    unfold Queue.report Queue.recordFailure
    dsimp only
    split
    · exact ⟨0, some today, rfl⟩
    · exact ⟨q.consecutiveFailures + 1, q.pausedOn, rfl⟩

theorem step_cases (limit : Nat) (s : Sys) (act : Act) : Step limit s act (s.step limit act) := by
  cases act with
  | write n =>
    change Step limit s _ (s.write n)
    unfold Sys.write
    split
    · next h => exact .write (by simpa using h)
    · exact .idle _
  | boot =>
    change Step limit s _ s.boot
    unfold Sys.boot
    split
    · exact .idle _
    · next hl =>
      dsimp only
      split
      · next hw => exact .firstBoot hl hw
      · next w hw => exact .boot hl hw
  | enqueue n =>
    change Step limit s _ (s.enqueue n)
    unfold Sys.enqueue
    split
    · exact .idle _
    · next life hl =>
      split
      · next hn =>
        unfold Queue.enqueue
        by_cases hp : n ∈ life.queue.pending
        · simp only [if_pos hp]
          exact .idle _
        · by_cases hfull : maxQueued ≤ life.queue.pending.length
          · simp only [if_neg hp, if_pos hfull]
            exact .refused hl
          · simp only [if_neg hp, if_neg hfull]
            exact .pushed hl hn hp (Nat.lt_of_not_le hfull)
      · exact .idle _
  | enqueued call =>
    change Step limit s _ (s.enqueued call)
    unfold Sys.enqueued
    split
    · exact .idle _
    · next life hl =>
      split
      · next hc => exact .enqueued hl hc
      · exact .idle _
  | scan =>
    change Step limit s _ s.scan
    unfold Sys.scan
    split
    · exact .idle _
    · next life hl =>
      split
      · next hc => exact .scan hl hc
      · exact .idle _
  | answer pending =>
    change Step limit s _ (s.answer pending)
    unfold Sys.answer
    split
    · exact .idle _
    · next life hl =>
      split
      · next hc => exact .answer hl hc
      · exact .idle _
  | admits =>
    change Step limit s _ s.admits
    unfold Sys.admits
    split
    · exact .idle _
    · next life hl =>
      split
      · next hc => exact .admits hl hc
      · exact .idle _
  | caughtUp =>
    change Step limit s _ s.caughtUp
    unfold Sys.caughtUp
    split
    · exact .idle _
    · next life hl =>
      split
      · next hc => exact .caughtUp hl hc
      · exact .idle _
  | nextJob i =>
    change Step limit s _ (s.nextJob i)
    unfold Sys.nextJob
    obtain he | ⟨life, w, hl, hw, he⟩ := worker_cases s i _ <;> rw [he]
    · exact .idle _
    · cases w with
      | ready =>
        cases hp : life.refilled.pending with
        | nil =>
          have hq : life.queue.nextJob = ({ life.queue with
              pending := [], backlog := life.refilled.backlog, running := false }, none,
              life.refilled.raised) := by
            simp only [Life.refilled] at hp ⊢
            simp only [Queue.nextJob, hp]
          simp only [hq]
          exact .ended hl hw hp
        | cons n pending =>
          have hq : life.queue.nextJob = ({ life.queue with
              pending := pending, backlog := life.refilled.backlog }, some n,
              life.refilled.raised) := by
            simp only [Life.refilled] at hp ⊢
            simp only [Queue.nextJob, hp]
          simp only [hq]
          exact .took hl hw hp
      | _ => exact .idle _
  | chosen i =>
    change Step limit s _ (s.chosen i)
    unfold Sys.chosen
    obtain he | ⟨life, w, hl, hw, he⟩ := worker_cases s i _ <;> rw [he]
    · exact .idle _
    · cases w with
      | raising next raised => exact .chosen hl hw
      | _ => exact .idle _
  | process i isolated =>
    change Step limit s _ (s.process limit i isolated)
    unfold Sys.process
    obtain he | ⟨life, w, hl, hw, he⟩ := worker_cases s i _ <;> rw [he]
    · exact .idle _
    · cases w with
      | chosen n =>
        dsimp only
        obtain ⟨noted, hq⟩ | hq := refusal_cases life.queue isolated limit s.ledger s.today
        · rw [hq]
          exact .skipped hl hw
        · rw [hq]
          exact .handed hl hw
      | _ => exact .idle _
  | finish i outcome tokens =>
    change Step limit s _ (s.finish i outcome tokens)
    unfold Sys.finish
    obtain he | ⟨life, w, hl, hw, he⟩ := worker_cases s i _ <;> rw [he]
    · exact .idle _
    · cases w with
      | extracting n day =>
        obtain ⟨failures, paused, hq⟩ := report_cases life.queue day outcome
        dsimp only
        rw [hq]
        refine .finish hl hw ?_
        split <;> rfl
      | _ => exact .idle _
  | panic i =>
    change Step limit s _ (s.panic i)
    unfold Sys.panic
    obtain he | ⟨life, w, hl, hw, he⟩ := worker_cases s i _ <;> rw [he]
    · exact .idle _
    · exact .panic hl (List.getElem?_eq_some_iff.mp hw).1
  | day today => exact .day
  | crash => exact .crash

/-! What a refill does when nothing that waits is in the queue. -/

theorem refill_eq (moved : List Nat) {pending backlog : List Nat} (hnodup : backlog.Nodup)
    (hout : ∀ n ∈ backlog, n ∉ pending) :
    ∃ used rest, backlog = used ++ rest ∧
      refill pending moved backlog = ⟨pending ++ used, rest, moved ++ used⟩ := by
  induction backlog generalizing pending moved with
  | nil => exact ⟨[], [], rfl, by simp [refill]⟩
  | cons n backlog ih =>
    unfold refill
    by_cases hroom : pending.length < maxQueued
    · have hn : n ∉ pending := hout n List.mem_cons_self
      obtain ⟨hfresh, hnodup'⟩ := List.nodup_cons.mp hnodup
      have hout' : ∀ m ∈ backlog, m ∉ pending ++ [n] := by
        intro m hm hmem
        rcases List.mem_append.mp hmem with h | h
        · exact hout m (List.mem_cons_of_mem _ hm) h
        · exact hfresh (List.mem_singleton.mp h ▸ hm)
      obtain ⟨used, rest, rfl, heq⟩ := ih (moved ++ [n]) hnodup' hout'
      rw [if_pos hroom, if_neg hn, heq]
      exact ⟨n :: used, rest, rfl, by simp⟩
    · rw [if_neg hroom]
      exact ⟨[], n :: backlog, rfl, by simp⟩

theorem addBacklog_eq {pending backlog found : List Nat} (hnodup : (backlog ++ found).Nodup) :
    addBacklog pending backlog found = backlog ++ found.filter (· ∉ pending) := by
  induction found generalizing backlog with
  | nil => simp [addBacklog]
  | cons n found ih =>
    have hn : n ∉ backlog := fun h => (List.nodup_append.mp hnodup).2.2 n h n List.mem_cons_self rfl
    unfold addBacklog
    by_cases hp : n ∈ pending
    · have hnodup' : (backlog ++ found).Nodup :=
        hnodup.sublist (List.Sublist.append_left (List.sublist_cons_self n found) backlog)
      rw [if_pos (.inl hp), ih hnodup']
      simp [hp]
    · rw [if_neg (by simp [hp, hn]), ih (by simpa using hnodup)]
      simp [hp]

/-- A watermark is raised to the number or stays where it was, and never falls. -/
theorem raiseWatermark_cases (l : LedgerState) (n : Nat) :
    ∃ w, (l.raiseWatermark n).watermark = some w ∧ n ≤ w ∧ (∀ v ∈ l.watermark, v ≤ w) ∧
      (w = n ∨ l.watermark = some w) := by
  unfold LedgerState.raiseWatermark
  cases hw : l.watermark with
  | none => exact ⟨n, by simp, le_rfl, by simp, .inl rfl⟩
  | some v =>
    by_cases h : n ≤ v
    · exact ⟨v, by simp [h, hw], h, by simp, .inr rfl⟩
    · refine ⟨n, ?_, le_rfl, ?_, .inl rfl⟩
      · simp [h, max_eq_right (Nat.le_of_not_le h)]
      · simp [Nat.le_of_not_le h]

end PulseNull.GraphExtract
