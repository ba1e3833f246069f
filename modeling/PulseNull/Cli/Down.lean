import PulseNull.Text.Chars
import PulseNull.Machine
import PulseNull.Processes

/-! `down`: the pidfile, the check of its record, and the signal and the unlink that follow, against
processes that exit and start and pulses that write the file at any point between. -/
namespace PulseNull.Cli.Down

structure PidRecord where
  v : Nat
  pid : Nat
  start : Nat
  pidns : Nat
  bootId : Bytes
  uid : Nat
  unit : Option Bytes
  deriving DecidableEq

/-- What stands under the pidfile's name: a record, a bare number, or anything else. -/
inductive Content where
  | record (rec : PidRecord)
  | bare (pid : Nat)
  | other
  deriving DecidableEq

inductive Recorded where
  | record (rec : PidRecord)
  | legacy (pid : Nat)
  deriving DecidableEq

/-- The reader takes only a record of version 1. -/
def parseRecorded : Content → Option Recorded
  | .record rec => if rec.v = 1 then some (.record rec) else none
  | .bare pid => some (.legacy pid)
  | .other => none

def read (file : Option Content) (fails : Bool) : Option Recorded :=
  if fails then none else file.bind parseRecorded

/-- Whether a call failed because what it asked for is gone. -/
inductive Fault where
  | gone
  | other
  deriving DecidableEq

inductive Verdict where
  | ours (fd : Proc)
  | gone
  | mismatch (why : String)
  | legacy (pid : Nat)
  | unverifiable
  deriving DecidableEq

/-- A pidfd is the process it was opened on. -/
structure ProcView where
  bootId : Except Fault Bytes
  pidns : Except Fault Nat
  startTime : Nat → Except Fault Nat
  uid : Nat → Except Fault Nat
  openPidfd : Nat → Except Fault Proc

def confirm (got : Except Fault Nat) (want : Nat) (why : String) : Except Verdict Unit :=
  match got with
  | .ok value => if value = want then .ok () else .error (.mismatch why)
  | .error .gone => .error .gone
  | .error .other => .error .unverifiable

/-- The checks that come before the pidfd. -/
def checkHost (rec : PidRecord) (sys : ProcView) : Except Verdict Unit :=
  if rec.v ≠ 1 then .error .unverifiable
  else if rec.pid ≤ 1 ∨ 2 ^ 31 ≤ rec.pid then .error (.mismatch "pid")
  else match sys.bootId with
    | .error _ => .error .unverifiable
    | .ok id =>
      if id ≠ rec.bootId then .error .gone
      else match sys.pidns with
        | .error _ => .error .unverifiable
        | .ok ns => if ns = rec.pidns then .ok () else .error (.mismatch "pid namespace")

def openFd (rec : PidRecord) (sys : ProcView) : Except Verdict Proc :=
  match sys.openPidfd rec.pid with
  | .ok fd => .ok fd
  | .error .gone => .error .gone
  | .error .other => .error .unverifiable

def verify (rec : PidRecord) (sys : ProcView) : Verdict :=
  match (do
    checkHost rec sys
    let fd ← openFd rec sys
    confirm (sys.startTime rec.pid) rec.start "start time"
    confirm (sys.uid rec.pid) rec.uid "uid"
    pure fd) with
  | .ok fd => .ours fd
  | .error verdict => verdict

/-- The boot and the pid namespace that the processes share. -/
structure Host where
  bootId : Bytes
  pidns : Nat
  deriving DecidableEq

def selfRecord (host : Host) (p : Proc) (unit : Option Bytes) : PidRecord :=
  ⟨1, p.pid, p.start, host.pidns, host.bootId, p.uid, unit⟩

/-- One run of `down`: the record it read and the uid it runs as. -/
structure Attempt where
  recorded : PidRecord
  euid : Nat
  deriving DecidableEq

inductive Outcome where
  | notRunning
  | systemd (unit : Bytes)
  | otherUser (pid uid : Nat)
  | refused (pid : Nat) (verdict : Verdict)
  | stale (pid : Nat)
  | signalFailed (pid : Nat)
  | waitFailed (pid : Nat)
  | stopped (pid : Nat)
  | stillRunning (pid : Nat)
  deriving DecidableEq

/-- The call that `down` makes next. -/
inductive Stage where
  | idle
  | checking (a : Attempt)
  | opening (a : Attempt)
  | timing (a : Attempt) (fd : Proc)
  | owning (a : Attempt) (fd : Proc)
  | ours (a : Attempt) (fd : Proc)
  | waiting (a : Attempt) (fd : Proc)
  | deleting (a : Attempt) (outcome : Outcome)
  deriving DecidableEq

/-- A signal that reached a running process. -/
structure Sent where
  proc : Proc
  recorded : PidRecord
  euid : Nat
  deriving DecidableEq

/-- What an unlink of `down` removed, and the record it had judged. -/
structure Unlinked where
  removed : Content
  judged : PidRecord
  deriving DecidableEq

/-- `rewritten`: the file was put there after `down` read it. -/
structure Sys where
  host : Host
  procs : Processes
  file : Option Content
  stage : Stage
  rewritten : Bool
  sent : List Sent
  unlinked : List Unlinked
  said : List Outcome
  deriving DecidableEq

inductive Query where
  | boot
  | pidns
  | pidfd
  | start
  | uid
  deriving DecidableEq

def ask {α : Type} (fails : Bool) (found : Option α) : Except Fault α :=
  if fails then .error .other
  else match found with
    | some a => .ok a
    | none => .error .gone

/-- `/proc` at this moment; any query may also fail. -/
def Sys.view (s : Sys) (fails : Query → Bool) : ProcView where
  bootId := ask (fails .boot) (some s.host.bootId)
  pidns := ask (fails .pidns) (some s.host.pidns)
  startTime pid := ask (fails .start) ((s.procs.holder pid).map (·.start))
  uid pid := ask (fails .uid) ((s.procs.holder pid).map (·.uid))
  openPidfd pid := ask (fails .pidfd) (s.procs.holder pid)

inductive Act where
  | spawn (p : Proc)
  | exit (p : Proc)
  | reap (p : Proc)
  /-- A running pulse writes its record. -/
  | write (p : Proc) (unit : Option Bytes)
  /-- Anything else that puts a file under the name. -/
  | place (content : Content)
  | remove
  | read (euid : Nat) (fails : Bool)
  | check (fails : Query → Bool)
  | pin (fails : Query → Bool)
  | startTime (fails : Query → Bool)
  | uid (fails : Query → Bool)
  | terminate (fails : Bool)
  | wait (fails expires : Bool)
  | delete (fails : Bool)

def Sys.conclude (s : Sys) (outcome : Outcome) : Sys :=
  { s with stage := .idle, said := s.said ++ [outcome] }

/-- A verdict other than `Ours`: a record whose process is gone has its file deleted. -/
def Sys.reject (s : Sys) (a : Attempt) : Verdict → Sys
  | .gone => { s with stage := .deleting a (.stale a.recorded.pid) }
  | verdict => s.conclude (.refused a.recorded.pid verdict)

/-- `stop_with` up to the verdict. -/
def Sys.stopWith (s : Sys) (euid : Nat) : Option Recorded → Sys
  | none => s.conclude .notRunning
  | some (.legacy pid) => s.conclude (.refused pid (.legacy pid))
  | some (.record rec) =>
    match rec.unit.filter (· ≠ []) with
    | some unit => s.conclude (.systemd unit)
    | none =>
      if rec.uid ≠ euid then s.conclude (.otherUser rec.pid rec.uid)
      else { s with stage := .checking ⟨rec, euid⟩ }

/-- The pidfd reaches its process while that runs, and a zombie takes the signal in silence. -/
def Sys.terminate (s : Sys) (a : Attempt) (fd : Proc) (fails : Bool) : Sys :=
  if fails ∨ fd ∉ s.procs.held then s.conclude (.signalFailed a.recorded.pid)
  else if s.procs.Running fd then
    { s with stage := .waiting a fd, sent := s.sent ++ [⟨fd, a.recorded, a.euid⟩] }
  else { s with stage := .waiting a fd }

def Sys.wait (s : Sys) (a : Attempt) (fd : Proc) (fails expires : Bool) : Sys :=
  if fails then s.conclude (.waitFailed a.recorded.pid)
  else if ¬ s.procs.Running fd then { s with stage := .deleting a (.stopped a.recorded.pid) }
  else if expires then s.conclude (.stillRunning a.recorded.pid)
  else s

/-- Unlinks whatever stands under the name. -/
def Sys.delete (s : Sys) (a : Attempt) (fails : Bool) : Sys :=
  if fails then s
  else match s.file with
    | some content => { s with file := none, unlinked := s.unlinked ++ [⟨content, a.recorded⟩] }
    | none => s

def Sys.step (s : Sys) : Act → Sys
  | .spawn p => { s with procs := s.procs.spawn p }
  | .exit p => { s with procs := s.procs.exit p }
  | .reap p => { s with procs := s.procs.reap p }
  | .write p unit =>
    if s.procs.Running p then
      { s with file := some (.record (selfRecord s.host p unit)), rewritten := true }
    else s
  | .place content => { s with file := some content, rewritten := true }
  | .remove => { s with file := none, rewritten := false }
  | .read euid fails =>
    match s.stage with
    | .idle => { s with rewritten := false }.stopWith euid (Down.read s.file fails)
    | _ => s
  | .check fails =>
    match s.stage with
    | .checking a =>
      match checkHost a.recorded (s.view fails) with
      | .ok () => { s with stage := .opening a }
      | .error verdict => s.reject a verdict
    | _ => s
  | .pin fails =>
    match s.stage with
    | .opening a =>
      match openFd a.recorded (s.view fails) with
      | .ok fd => { s with stage := .timing a fd }
      | .error verdict => s.reject a verdict
    | _ => s
  | .startTime fails =>
    match s.stage with
    | .timing a fd =>
      match confirm ((s.view fails).startTime a.recorded.pid) a.recorded.start "start time" with
      | .ok () => { s with stage := .owning a fd }
      | .error verdict => s.reject a verdict
    | _ => s
  | .uid fails =>
    match s.stage with
    | .owning a fd =>
      match confirm ((s.view fails).uid a.recorded.pid) a.recorded.uid "uid" with
      | .ok () => { s with stage := .ours a fd }
      | .error verdict => s.reject a verdict
    | _ => s
  | .terminate fails =>
    match s.stage with
    | .ours a fd => s.terminate a fd fails
    | _ => s
  | .wait fails expires =>
    match s.stage with
    | .waiting a fd => s.wait a fd fails expires
    | _ => s
  | .delete fails =>
    match s.stage with
    | .deleting a outcome => (s.delete a fails).conclude outcome
    | _ => s

/-- From the boot of a machine, with any file left under the name. -/
def down (host : Host) (file : Option Content) : Machine Sys Act :=
  ⟨⟨host, .empty, file, .idle, false, [], [], []⟩, Sys.step⟩

/-- The signal reached a process of the caller, and of all that ever ran here the one whose record
was judged. -/
structure Sent.Sound (host : Host) (procs : Processes) (x : Sent) : Prop where
  mem : x.proc ∈ procs.started
  caller : x.proc.uid = x.euid
  named : ∃ unit, x.recorded = selfRecord host x.proc unit
  writer : ∀ p ∈ procs.started, ∀ unit, x.recorded = selfRecord host p unit → p = x.proc

def Sys.Signals (s : Sys) : Prop := ∀ x ∈ s.sent, x.Sound s.host s.procs

/-- `down` removed only the records it had judged. -/
def Sys.Unlinks (s : Sys) : Prop := ∀ x ∈ s.unlinked, x.removed = .record x.judged

/-- No pulse has written the file between the read and the unlink. -/
def Meets (s : Sys) : Act → Prop
  | .delete _ => s.rewritten = false
  | _ => True

/-! With nothing in between, the calls give the verdict of `verify`. -/

section
variable {s : Sys} {a : Attempt} {fd : Proc} {fails : Query → Bool} {verdict : Verdict}

def Sys.judged (s : Sys) (a : Attempt) : Verdict → Sys
  | .ours fd => { s with stage := .ours a fd }
  | verdict => s.reject a verdict

private theorem reject_staged (stage : Stage) :
    { s with stage := stage }.reject a verdict = s.reject a verdict := by
  cases verdict <;> rfl

theorem step_check : { s with stage := .checking a }.step (.check fails) =
    match checkHost a.recorded (s.view fails) with
    | .ok () => { s with stage := .opening a }
    | .error verdict => s.reject a verdict := by
  simp only [Sys.step, reject_staged]
  rfl

theorem step_pin : { s with stage := .opening a }.step (.pin fails) =
    match openFd a.recorded (s.view fails) with
    | .ok fd => { s with stage := .timing a fd }
    | .error verdict => s.reject a verdict := by
  simp only [Sys.step, reject_staged]
  rfl

theorem step_startTime : { s with stage := .timing a fd }.step (.startTime fails) =
    match confirm ((s.view fails).startTime a.recorded.pid) a.recorded.start "start time" with
    | .ok () => { s with stage := .owning a fd }
    | .error verdict => s.reject a verdict := by
  simp only [Sys.step, reject_staged]
  rfl

theorem step_uid : { s with stage := .owning a fd }.step (.uid fails) =
    match confirm ((s.view fails).uid a.recorded.pid) a.recorded.uid "uid" with
    | .ok () => { s with stage := .ours a fd }
    | .error verdict => s.reject a verdict := by
  simp only [Sys.step, reject_staged]
  rfl

/-- A rejected record is not checked further. -/
theorem reject_done (s : Sys) (a : Attempt) (verdict : Verdict) (fails : Query → Bool) :
    (s.reject a verdict).step (.pin fails) = s.reject a verdict ∧
      (s.reject a verdict).step (.startTime fails) = s.reject a verdict ∧
      (s.reject a verdict).step (.uid fails) = s.reject a verdict := by
  cases verdict <;> exact ⟨rfl, rfl, rfl⟩

/-- A check that fails does so with a verdict other than `Ours`. -/
def Refuses {α : Type} (got : Except Verdict α) : Prop :=
  ∀ verdict, got = .error verdict → ∀ fd, verdict ≠ .ours fd

theorem judged_refused {α : Type} {got : Except Verdict α} (h : Refuses got)
    (hv : got = .error verdict) : s.judged a verdict = s.reject a verdict := by
  cases verdict with
  | ours fd => exact absurd rfl (h _ hv fd)
  | gone | mismatch | legacy | unverifiable => rfl

theorem confirm_refuses (got : Except Fault Nat) (want : Nat) (why : String) :
    Refuses (confirm got want why) := by
  intro verdict h fd
  unfold confirm at h
  split at h
  · split at h <;> cases h
    nofun
  · cases h
    nofun
  · cases h
    nofun

theorem openFd_refuses (rec : PidRecord) (sys : ProcView) : Refuses (openFd rec sys) := by
  intro verdict h fd
  unfold openFd at h
  split at h <;> cases h <;> nofun

theorem checkHost_refuses (rec : PidRecord) (sys : ProcView) : Refuses (checkHost rec sys) := by
  intro verdict h fd
  unfold checkHost at h
  repeat' split at h
  all_goals cases h
  all_goals nofun

theorem quiet_verify : ((({ s with stage := .checking a }.step (.check fails)).step
    (.pin fails)).step (.startTime fails)).step (.uid fails) =
      s.judged a (verify a.recorded (s.view fails)) := by
  rw [step_check, verify]
  cases hc : checkHost a.recorded (s.view fails) with
  | error v =>
    obtain ⟨hpin, hstart, huid⟩ := reject_done s a v fails
    simp only [hpin, hstart, huid]
    exact (judged_refused (checkHost_refuses _ _) hc).symm
  | ok u =>
  simp only [step_pin]
  cases ho : openFd a.recorded (s.view fails) with
  | error v =>
    obtain ⟨-, hstart, huid⟩ := reject_done s a v fails
    simp only [hstart, huid]
    exact (judged_refused (openFd_refuses _ _) ho).symm
  | ok fd =>
  simp only [step_startTime]
  cases ht : confirm ((s.view fails).startTime a.recorded.pid) a.recorded.start "start time" with
  | error v =>
    simp only [(reject_done s a v fails).2.2]
    exact (judged_refused (confirm_refuses _ _ _) ht).symm
  | ok u =>
  simp only [step_uid]
  cases hu : confirm ((s.view fails).uid a.recorded.pid) a.recorded.uid "uid" with
  | error v => exact (judged_refused (confirm_refuses _ _ _) hu).symm
  | ok u => rfl
end

/-! What the checks establish, and what holds of the pinned process from then on. -/

structure Checked (host : Host) (rec : PidRecord) : Prop where
  v : rec.v = 1
  bootId : rec.bootId = host.bootId
  pidns : rec.pidns = host.pidns

/-- What was read by its number is a fact of the pinned process while it holds that number. -/
structure Pinned (procs : Processes) (rec : PidRecord) (fd : Proc) (timed owned : Bool) : Prop where
  mem : fd ∈ procs.started
  pid : fd.pid = rec.pid
  start : timed = true → fd ∈ procs.held → fd.start = rec.start
  uid : owned = true → fd ∈ procs.held → fd.uid = rec.uid

def Stage.Knows (host : Host) (procs : Processes) : Stage → Prop
  | .idle | .deleting _ _ => True
  | .checking a => a.recorded.uid = a.euid
  | .opening a => a.recorded.uid = a.euid ∧ Checked host a.recorded
  | .timing a fd =>
    a.recorded.uid = a.euid ∧ Checked host a.recorded ∧ Pinned procs a.recorded fd false false
  | .owning a fd =>
    a.recorded.uid = a.euid ∧ Checked host a.recorded ∧ Pinned procs a.recorded fd true false
  | .ours a fd | .waiting a fd =>
    a.recorded.uid = a.euid ∧ Checked host a.recorded ∧ Pinned procs a.recorded fd true true

/-- What is kept of a signal: its process is the one the record names, and the caller's. -/
structure Sent.Reached (host : Host) (procs : Processes) (x : Sent) : Prop where
  mem : x.proc ∈ procs.started
  caller : x.proc.uid = x.euid
  named : ∃ unit, x.recorded = selfRecord host x.proc unit

structure Sys.Inv (s : Sys) : Prop where
  procs : s.procs.Sound
  sent : ∀ x ∈ s.sent, x.Reached s.host s.procs
  stage : s.stage.Knows s.host s.procs

variable {s : Sys} {a : Attempt} {fd : Proc} {fails : Query → Bool} {host : Host} {procs : Processes}

theorem checkHost_ok {rec : PidRecord} (h : checkHost rec (s.view fails) = .ok ()) :
    Checked s.host rec := by
  simp only [checkHost, Sys.view, ask] at h
  grind [Checked]

theorem openFd_ok {rec : PidRecord} (h : openFd rec (s.view fails) = .ok fd) :
    fd ∈ s.procs.held ∧ fd.pid = rec.pid := by
  simp only [openFd, Sys.view, ask] at h
  cases hf : s.procs.holder rec.pid with
  | none => grind
  | some p =>
    have hp := Processes.holder_mem hf
    grind

theorem confirm_ok {got : Except Fault Nat} {want : Nat} {why : String}
    (h : confirm got want why = .ok ()) : got = .ok want := by
  unfold confirm at h
  grind

/-- A fact read by a number is a fact of the process that holds it. -/
theorem ask_ok {α : Type} {fact : Proc → α} {fails : Bool} {pid : Nat} {value : α}
    (h : ask fails ((procs.holder pid).map fact) = .ok value) (hs : procs.Sound)
    (hp : fd ∈ procs.held) (hpid : fd.pid = pid) : fact fd = value := by
  rw [← hpid, hs.holder hp] at h
  unfold ask at h
  grind

theorem Pinned.later {rec : PidRecord} {timed owned : Bool} {later : Processes}
    (h : Pinned procs rec fd timed owned) (hstarted : ∀ p ∈ procs.started, p ∈ later.started)
    (hheld : ∀ p ∈ procs.started, p ∈ later.held → p ∈ procs.held) :
    Pinned later rec fd timed owned :=
  ⟨hstarted fd h.mem, h.pid, fun ht hp => h.start ht (hheld fd h.mem hp),
    fun ho hp => h.uid ho (hheld fd h.mem hp)⟩

theorem Stage.Knows.later {stage : Stage} {later : Processes} (h : stage.Knows host procs)
    (hstarted : ∀ p ∈ procs.started, p ∈ later.started)
    (hheld : ∀ p ∈ procs.started, p ∈ later.held → p ∈ procs.held) :
    stage.Knows host later := by
  cases stage with
  | idle | deleting | checking | opening => exact h
  | timing | owning | ours | waiting => exact ⟨h.1, h.2.1, h.2.2.later hstarted hheld⟩

/-- Processes start, exit and are reaped; the pinned one does not come back. -/
theorem Sys.Inv.later (h : s.Inv) {later : Processes} (hsound : later.Sound)
    (hstarted : ∀ p ∈ s.procs.started, p ∈ later.started)
    (hheld : ∀ p ∈ s.procs.started, p ∈ later.held → p ∈ s.procs.held) :
    Sys.Inv { s with procs := later } :=
  ⟨hsound, fun x hx => ⟨hstarted _ (h.sent x hx).mem, (h.sent x hx).caller, (h.sent x hx).named⟩,
    h.stage.later hstarted hheld⟩

theorem Sys.Inv.conclude (h : s.Inv) (outcome : Outcome) : (s.conclude outcome).Inv :=
  ⟨h.procs, h.sent, trivial⟩

theorem Sys.Inv.reject (h : s.Inv) (a : Attempt) (verdict : Verdict) : (s.reject a verdict).Inv := by
  cases verdict <;> exact ⟨h.procs, h.sent, trivial⟩

theorem Sys.Inv.stopWith (h : s.Inv) (euid : Nat) (recorded : Option Recorded) :
    (s.stopWith euid recorded).Inv := by
  unfold Sys.stopWith
  split
  · exact h.conclude _
  · exact h.conclude _
  · next rec =>
    split
    · exact h.conclude _
    · split
      · exact h.conclude _
      · next heq => exact ⟨h.procs, h.sent, not_not.mp heq⟩

theorem Sys.Inv.terminate (h : s.Inv) (hst : s.stage = .ours a fd) (fails : Bool) :
    (s.terminate a fd fails).Inv := by
  have hk : (Stage.ours a fd).Knows s.host s.procs := hst ▸ h.stage
  unfold Sys.terminate
  split
  · exact h.conclude _
  split
  · next hrun =>
    refine ⟨h.procs, fun x hx => ?_, hk⟩
    rcases List.mem_append.mp hx with hx | hx
    · exact h.sent x hx
    obtain rfl := List.mem_singleton.mp hx
    obtain ⟨huid, hhost, hpin⟩ := hk
    have hstart := hpin.start rfl hrun.1
    have howner := hpin.uid rfl hrun.1
    refine ⟨hpin.mem, howner.trans huid, a.recorded.unit, ?_⟩
    simp only [selfRecord, hpin.pid, hstart, howner, ← hhost.v, ← hhost.bootId, ← hhost.pidns]
  · exact ⟨h.procs, h.sent, hk⟩

theorem Sys.Inv.wait (h : s.Inv) (a : Attempt) (fd : Proc) (fails expires : Bool) :
    (s.wait a fd fails expires).Inv := by
  unfold Sys.wait
  split
  · exact h.conclude _
  split
  · exact ⟨h.procs, h.sent, trivial⟩
  split
  · exact h.conclude _
  · exact h

theorem Sys.Inv.delete (h : s.Inv) (a : Attempt) (fails : Bool) : (s.delete a fails).Inv := by
  unfold Sys.delete
  split
  · exact h
  split <;> exact ⟨h.procs, h.sent, h.stage⟩

theorem Sys.Inv.step (h : s.Inv) (act : Act) : (s.step act).Inv := by
  cases act with
  | spawn p =>
    exact h.later (h.procs.spawn p) (fun q hq => Processes.mem_started_spawn hq p)
      fun q hq hp => Processes.held_of_spawn hq hp
  | exit p =>
    exact h.later (h.procs.exit p) (fun q hq => by simpa using hq)
      fun q _ hp => Processes.held_of_exit hp
  | reap p =>
    exact h.later (h.procs.reap p) (fun q hq => by simpa using hq)
      fun q _ hp => Processes.held_of_reap hp
  | write p unit =>
    simp only [Sys.step]
    split <;> exact ⟨h.procs, h.sent, h.stage⟩
  | place content => exact ⟨h.procs, h.sent, h.stage⟩
  | remove => exact ⟨h.procs, h.sent, h.stage⟩
  | read euid fails =>
    simp only [Sys.step]
    split
    · have hread : Sys.Inv { s with rewritten := false } := ⟨h.procs, h.sent, h.stage⟩
      exact hread.stopWith _ _
    · exact h
  | check fails =>
    simp only [Sys.step]
    split
    · next a hst =>
      have hk : (Stage.checking a).Knows s.host s.procs := hst ▸ h.stage
      split
      · next hc => exact ⟨h.procs, h.sent, hk, checkHost_ok hc⟩
      · exact h.reject _ _
    · exact h
  | pin fails =>
    simp only [Sys.step]
    split
    · next a hst =>
      have hk : (Stage.opening a).Knows s.host s.procs := hst ▸ h.stage
      split
      · next fd ho =>
        obtain ⟨hheld, hpid⟩ := openFd_ok ho
        exact ⟨h.procs, h.sent, hk.1, hk.2, h.procs.held hheld, hpid, nofun, nofun⟩
      · exact h.reject _ _
    · exact h
  | startTime fails =>
    simp only [Sys.step]
    split
    · next a fd hst =>
      have hk : (Stage.timing a fd).Knows s.host s.procs := hst ▸ h.stage
      obtain ⟨huid, hhost, hpin⟩ := hk
      split
      · next hc =>
        exact ⟨h.procs, h.sent, huid, hhost, hpin.mem, hpin.pid,
          fun _ hp => ask_ok (confirm_ok hc) h.procs hp hpin.pid, nofun⟩
      · exact h.reject _ _
    · exact h
  | uid fails =>
    simp only [Sys.step]
    split
    · next a fd hst =>
      have hk : (Stage.owning a fd).Knows s.host s.procs := hst ▸ h.stage
      obtain ⟨huid, hhost, hpin⟩ := hk
      split
      · next hc =>
        exact ⟨h.procs, h.sent, huid, hhost, hpin.mem, hpin.pid, hpin.start,
          fun _ hp => ask_ok (confirm_ok hc) h.procs hp hpin.pid⟩
      · exact h.reject _ _
    · exact h
  | terminate fails =>
    simp only [Sys.step]
    split
    · next hst => exact h.terminate hst fails
    · exact h
  | wait fails expires =>
    simp only [Sys.step]
    split
    · exact h.wait _ _ _ _
    · exact h
  | delete fails =>
    simp only [Sys.step]
    split
    · exact (h.delete _ _).conclude _
    · exact h

/-- Whatever happens between its steps, `down` signals only the process that its record is of. -/
theorem signals_recorded {file : Option Content}
    (h : (down host file).Runs (fun _ _ => True) s) : s.Signals := by
  have hinv : s.Inv := h.invariant ⟨Processes.sound_empty, nofun, trivial⟩ fun _ act hs _ => hs.step act
  intro x hx
  obtain ⟨hmem, hcaller, unit, hnamed⟩ := hinv.sent x hx
  refine ⟨hmem, hcaller, ⟨unit, hnamed⟩, fun p hp unit' hw => ?_⟩
  have heq := hw.symm.trans hnamed
  exact hinv.procs.unique hp hmem (congrArg PidRecord.pid heq) (congrArg PidRecord.start heq)

/-! What stands under the name from the read to the unlink. -/

def Stage.attempt : Stage → Option Attempt
  | .idle => none
  | .checking a | .opening a | .timing a _ | .owning a _ | .ours a _ | .waiting a _
  | .deleting a _ => some a

structure Sys.Judges (s : Sys) : Prop where
  unlinked : s.Unlinks
  file : ∀ a, s.stage.attempt = some a → s.rewritten = false →
    s.file = none ∨ s.file = some (.record a.recorded)

/-- A step that leaves the file and goes on with the same record, or ends. -/
private theorem Sys.Judges.goes_on (h : s.Judges) {s' : Sys} (hu : s'.unlinked = s.unlinked)
    (hf : s'.file = s.file) (hr : s'.rewritten = s.rewritten)
    (ha : ∀ a, s'.stage.attempt = some a → s.stage.attempt = some a) : s'.Judges :=
  ⟨fun x hx => h.unlinked x (hu ▸ hx), fun a hst hre => hf ▸ h.file a (ha a hst) (hr ▸ hre)⟩

theorem Sys.Judges.conclude (h : s.Judges) (outcome : Outcome) : (s.conclude outcome).Judges :=
  h.goes_on rfl rfl rfl nofun

theorem Sys.Judges.reject (h : s.Judges) (hst : s.stage.attempt = some a) (verdict : Verdict) :
    (s.reject a verdict).Judges := by
  cases verdict with
  | gone => exact h.goes_on rfl rfl rfl fun b hb => hst.trans hb
  | ours | mismatch | legacy | unverifiable => exact h.conclude _

private theorem read_record {file : Option Content} {fails : Bool} {rec : PidRecord}
    (h : Down.read file fails = some (.record rec)) : file = some (.record rec) := by
  unfold Down.read at h
  split at h
  · cases h
  obtain ⟨content, rfl, hparse⟩ := Option.bind_eq_some_iff.mp h
  cases content with
  | record r =>
    obtain ⟨-, hr⟩ := Option.ite_none_right_eq_some.mp hparse
    cases hr
    rfl
  | bare pid => cases hparse
  | other => cases hparse

/-- The record that `down` judges is the one that stands there when it reads. -/
theorem Sys.Judges.read (h : s.Judges) (euid : Nat) (fails : Bool) :
    ({ s with rewritten := false }.stopWith euid (Down.read s.file fails)).Judges := by
  have hidle (outcome : Outcome) : (Sys.conclude { s with rewritten := false } outcome).Judges :=
    ⟨h.unlinked, nofun⟩
  unfold Sys.stopWith
  split
  · exact hidle _
  · exact hidle _
  · next rec hrec =>
    split
    · exact hidle _
    split
    · exact hidle _
    · refine ⟨h.unlinked, fun b hb _ => ?_⟩
      obtain rfl := Option.some.inj hb
      exact .inr (read_record hrec)

theorem Sys.Judges.delete (h : s.Judges) (hst : s.stage.attempt = some a)
    (hr : s.rewritten = false) (fails : Bool) : (s.delete a fails).Judges := by
  unfold Sys.delete
  split
  · exact h
  split
  · next content hfile =>
    refine ⟨fun x hx => ?_, fun _ _ _ => .inl rfl⟩
    rcases List.mem_append.mp hx with hx | hx
    · exact h.unlinked x hx
    obtain rfl := List.mem_singleton.mp hx
    rcases h.file a hst hr with hf | hf
    · rw [hf] at hfile
      cases hfile
    · exact Option.some.inj (hfile.symm.trans hf)
  · exact h

theorem Sys.Judges.step (h : s.Judges) {act : Act} (ok : Meets s act) : (s.step act).Judges := by
  cases act with
  | spawn | exit | reap => exact h.goes_on rfl rfl rfl fun _ ha => ha
  | write p unit =>
    simp only [Sys.step]
    split
    · exact ⟨h.unlinked, nofun⟩
    · exact h
  | place content => exact ⟨h.unlinked, nofun⟩
  | remove => exact ⟨h.unlinked, fun _ _ _ => .inl rfl⟩
  | read euid fails =>
    simp only [Sys.step]
    split
    · exact h.read euid fails
    · exact h
  | check fails =>
    simp only [Sys.step]
    split
    · next a hst =>
      have ha : s.stage.attempt = some a := by rw [hst]; rfl
      split
      · exact h.goes_on rfl rfl rfl fun b hb => ha.trans hb
      · exact h.reject ha _
    · exact h
  | pin fails =>
    simp only [Sys.step]
    split
    · next a hst =>
      have ha : s.stage.attempt = some a := by rw [hst]; rfl
      split
      · exact h.goes_on rfl rfl rfl fun b hb => ha.trans hb
      · exact h.reject ha _
    · exact h
  | startTime fails =>
    simp only [Sys.step]
    split
    · next a fd hst =>
      have ha : s.stage.attempt = some a := by rw [hst]; rfl
      split
      · exact h.goes_on rfl rfl rfl fun b hb => ha.trans hb
      · exact h.reject ha _
    · exact h
  | uid fails =>
    simp only [Sys.step]
    split
    · next a fd hst =>
      have ha : s.stage.attempt = some a := by rw [hst]; rfl
      split
      · exact h.goes_on rfl rfl rfl fun b hb => ha.trans hb
      · exact h.reject ha _
    · exact h
  | terminate fails =>
    simp only [Sys.step]
    split
    · next a fd hst =>
      have ha : s.stage.attempt = some a := by rw [hst]; rfl
      unfold Sys.terminate
      split
      · exact h.conclude _
      split <;> exact h.goes_on rfl rfl rfl fun b hb => ha.trans hb
    · exact h
  | wait fails expires =>
    simp only [Sys.step]
    split
    · next a fd hst =>
      have ha : s.stage.attempt = some a := by rw [hst]; rfl
      unfold Sys.wait
      split
      · exact h.conclude _
      split
      · exact h.goes_on rfl rfl rfl fun b hb => ha.trans hb
      split
      · exact h.conclude _
      · exact h
    · exact h
  | delete fails =>
    simp only [Sys.step]
    split
    · next a outcome hst =>
      exact (h.delete (by rw [hst]; rfl) ok fails).conclude outcome
    · exact h

/-- While no file is put there between a read and the unlink, `down` signals only the recorded pulse
and unlinks only the record it judged. -/
theorem down_sound {file : Option Content} (h : (down host file).Runs Meets s) :
    s.Signals ∧ s.Unlinks := by
  refine ⟨signals_recorded (h.mono fun _ _ _ => trivial), ?_⟩
  have hinv : s.Judges := h.invariant ⟨nofun, nofun⟩ fun _ _ hs ok => hs.step ok
  exact hinv.unlinked

/-! A sample host. -/

def sampleHost : Host := ⟨Text.ascii "b1", 7⟩
def samplePulse (start : Nat) : Proc := ⟨40, start, 1000⟩
def live : Query → Bool := fun _ => false

instance (s : Sys) : (act : Act) → Decidable (Meets s act)
  | .delete _ => inferInstanceAs (Decidable (_ = _))
  | .spawn _ | .exit _ | .reap _ | .write _ _ | .place _ | .remove | .read _ _ | .check _ | .pin _
  | .startTime _ | .uid _ | .terminate _ | .wait _ _ => inferInstanceAs (Decidable True)

/-- The pulse is stopped and its file removed. -/
theorem down_sound_sample : ∃ s, (down sampleHost none).Runs Meets s ∧ (s.Signals ∧ s.Unlinks) ∧
    s.sent.map (·.proc) = [samplePulse 5] ∧ s.file = none ∧ s.said = [.stopped 40] := by
  have hrun : ((down sampleHost none).follow (fun s act => Meets s act) (down sampleHost none).start
      [.spawn (samplePulse 5), .write (samplePulse 5) none, .read 1000 false, .check live, .pin live,
        .startTime live, .uid live, .terminate false, .exit (samplePulse 5), .wait false false,
        .delete false]).map (fun s => (s.sent.map (·.proc), s.file, s.said)) =
      some ([samplePulse 5], none, [.stopped 40]) := by decide
  obtain ⟨s, hs, hend⟩ := Option.map_eq_some_iff.mp hrun
  have h : (down sampleHost none).Runs Meets s :=
    .follow (fun s act hc => of_decide_eq_true hc) .start hs
  obtain ⟨hsent, hrest⟩ := Prod.mk.inj hend
  exact ⟨s, h, down_sound h, hsent, Prod.mk.inj hrest⟩

/-- The old pulse is gone, and before its file is deleted a new pulse has written its own. -/
theorem new_record_unlinked : ∃ s, (down sampleHost none).Runs (fun _ _ => True) s ∧
    s.unlinked = [⟨.record (selfRecord sampleHost (samplePulse 9) none),
      selfRecord sampleHost (samplePulse 5) none⟩] ∧ ¬ s.Unlinks := by
  have hrun : ((down sampleHost none).follow (fun _ _ => true) (down sampleHost none).start
      [.spawn (samplePulse 5), .write (samplePulse 5) none, .exit (samplePulse 5),
        .reap (samplePulse 5), .read 1000 false, .check live, .pin live, .spawn (samplePulse 9),
        .write (samplePulse 9) none, .delete false]).map (·.unlinked) =
      some [⟨.record (selfRecord sampleHost (samplePulse 9) none),
        selfRecord sampleHost (samplePulse 5) none⟩] := by decide
  obtain ⟨s, hs, hend⟩ := Option.map_eq_some_iff.mp hrun
  refine ⟨s, .follow (fun _ _ _ => trivial) .start hs, hend, fun h => ?_⟩
  have hx := h _ (hend ▸ List.mem_singleton_self _)
  revert hx
  decide

end PulseNull.Cli.Down
