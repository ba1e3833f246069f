import PulseNull.Oneself.Ledger

/-! Append-only receipt file: opening with tail repair, appends that poison the store
when a write fails, and the gap row that accounts for what was lost. -/
namespace PulseNull.Oneself
open Text (ascii newline)

/-- A receipt file larger than this is refused. -/
def maxReceiptBytes : Nat := 256 * 1024 * 1024

/-- The last accepted row. -/
structure Head where
  seq : U64
  hash : Bytes
  deriving DecidableEq

inductive StoreError where
  | locked
  | rotate (path : Bytes)
  | broken (note : VerifyNote)
  | append (dropped : U64)
  | row
  | tooLarge (bytes : Nat)
  | foreign (path found pulse : Bytes)
  | notLedger (path : Bytes)
  | io
  deriving DecidableEq

/-- What the clock gives: a timestamp of the fixed form. -/
abbrev Stamp := { ts : Bytes // tsOk ts = true }

/-! Files. A write is everything and its sync, or fails with its first `k` bytes landed. -/

abbrev Outcome? := Option Nat

def writeAllSync (file bytes : Bytes) : Outcome? → Bytes × Bool
  | none => (file ++ bytes, true)
  | some k => (file ++ bytes.take k, false)

def readAll (file : Bytes) : Except StoreError Bytes :=
  if maxReceiptBytes < file.length then .error (.tooLarge file.length) else .ok file

def withNewline (line : Bytes) : Bytes := line ++ [newline]

/-! The tail. -/

inductive Class where
  | ready
  | missingNewline
  | torn (offset : U64) (bytes : Bytes) (needsNewline : Bool) (seq : U64) (prev : Bytes)
  | noRow
  | broken (note : VerifyNote)
  deriving DecidableEq

/-- `(prefix including its trailing newline, last line, last has newline)`. -/
def splitLast (bytes : Bytes) : Bytes × Bytes × Bool :=
  match (Text.lines bytes).getLast? with
  | none => ([], [], false)
  | some l => (bytes.take (bytes.length - l.text.length), l.bytes, l.terminated)

def firstPhysicalLine (bytes : Bytes) : Bytes := bytes.takeWhile (· ≠ newline)

def toU64 (n : Nat) : Except StoreError U64 :=
  if h : n < 2^64 then .ok ⟨n, h⟩ else .error .row

/-- The seq after a report's last row. -/
def VerifyReport.nextSeq (report : VerifyReport) : Except StoreError U64 :=
  match report.seq with
  | none => .ok 0
  | some seq => (seq.checkedAdd 1).elim (.error .row) .ok

/-- Pulse name from a canonical genesis line. -/
def Env.genesisPulse (env : Env) (line : Bytes) : Option Bytes :=
  if line = [] ∨ env.acceptsLine line 0 genesisPrev = false then none
  else match env.fromStr line with
    | some (.obj ms) =>
      match Json.lookup (ascii "e") ms with
      | some (.obj es) =>
        match Json.lookup (ascii "pulse") es with
        | some (.str pulse) => some pulse
        | _ => none
      | _ => none
    | _ => none

def Env.classify (env : Env) (bytes : Bytes) : Except StoreError Class :=
  if bytes = [] ∨ (newline ∉ bytes ∧ env.acceptsLine bytes 0 genesisPrev = false) then .ok .noRow
  else if bytes.getLast? ≠ some newline ∧
      (env.verifyLines (bytes ++ [newline])).firstBreak = none then .ok .missingNewline
  else
    let (pre, last, lastNl) := splitLast bytes
    let report := env.verifyLines pre
    match report.firstBreak with
    | some note => .ok (.broken note)
    | none => do
      let seq ← report.nextSeq
      if env.acceptsLine last seq report.head then
        return if lastNl then .ready else .missingNewline
      else if report.rows = 0 then return .broken ⟨1, .genesis⟩
      else if env.validJsonValue last then return .broken ⟨report.rows + 1, .notARow⟩
      else if maxLineBytes < last.length then
        return .broken ⟨pre.count newline + 1, .oversize⟩
      else return .torn (← toU64 pre.length) last (!lastNl) seq report.head

def Env.encodeLine (env : Env) (seq : U64) (prev ts : Bytes) (event : ReceiptEvent) :
    Except StoreError Bytes := do
  let row : Row := ⟨1, seq, prev, ts, event.toValue⟩
  let text ← (canonical row.toValue).mapError fun | .float => .row
  ensure (text.length ≤ maxLineBytes) .row
  ensure (env.acceptsLine text seq prev = true) .row
  return text

/-! Tail repair, shared by open and by a poisoned append. -/

inductive RepairKind where
  | ready | newline | recovered | noRow
  | broken (note : VerifyNote)
  deriving DecidableEq

/-- A repair must not push the file past the cap. -/
def ensureRepairFits (file : Bytes) (extra : Nat) : Except StoreError Unit :=
  ensure (file.length + extra ≤ maxReceiptBytes) (.tooLarge (file.length + extra))

/-- The bytes a repair writes, and what it is then called. -/
def Env.repairPlan (env : Env) (file : Bytes) (c : Class) (ts : Stamp) :
    Except StoreError (Option Bytes × RepairKind) :=
  match c with
  | .ready => .ok (none, .ready)
  | .missingNewline => do
    ensureRepairFits file 1
    return (some [Text.newline], .newline)
  | .torn offset torn needsNewline seq prev => do
    let line ← env.encodeLine seq prev ts.val
      (.recover offset (← toU64 torn.length) (env.sha256Hex torn))
    let record := if needsNewline then Text.newline :: withNewline line else withNewline line
    ensureRepairFits file record.length
    return (some record, .recovered)
  | .noRow => .ok (none, .noRow)
  | .broken note => .ok (none, .broken note)

def Env.repairClass (env : Env) (file : Bytes) (c : Class) (ts : Stamp) (write : Outcome?) :
    Bytes × Except StoreError RepairKind :=
  match env.repairPlan file c ts with
  | .error e => (file, .error e)
  | .ok (none, kind) => (file, .ok kind)
  | .ok (some record, kind) =>
    match writeAllSync file record write with
    | (file, true) => (file, .ok kind)
    | (file, false) => (file, .error .io)

/-- Whether the last line of `bytes` is the row that was being written. -/
def Env.committedAttempt (env : Env) (bytes : Bytes) (attempted : U64) : Bool :=
  if Text.utf8Valid bytes = false then false
  else
    let text (l : Text.Line) :=
      if l.terminated && l.bytes.getLast? = some 13 then l.bytes.dropLast else l.bytes
    match ((Text.lines bytes).map text).reverse.find? (· ≠ []) with
    | none => false
    | some line =>
      match Json.parse env.floatInRange line with
      | none => false
      | some value =>
        match Row.ofValue value with
        | .error _ => false
        | .ok row =>
          match ReceiptEvent.ofValue row.e with
          | .error _ => false
          | .ok event => row.seq = attempted && !event.isRecover

/-! The store. -/

structure Store where
  file : Bytes
  nextSeq : U64
  prev : Bytes
  poisoned : Bool
  dropped : U64
  gapFirst : Option Bytes
  gapLast : Option Bytes
  deriving DecidableEq

def Store.noteFailure (s : Store) (ts : Bytes) : Store :=
  { s with
    gapFirst := some (s.gapFirst.getD ts)
    gapLast := some ts
    dropped := s.dropped.saturatingAdd 1
    poisoned := true }

/-- `n` events that never reached the store. -/
def Store.lose (s : Store) (n : Nat) (ts : Stamp) : Store := n.repeat (fun s => s.noteFailure ts.val) s

def Store.writeEvent (env : Env) (s : Store) (event : ReceiptEvent) (ts : Stamp) (write : Outcome?) :
    Store × Except StoreError Head :=
  match env.encodeLine s.nextSeq s.prev ts.val event with
  | .error e => (s, .error e)
  | .ok line =>
    match writeAllSync s.file (withNewline line) write with
    | (file, false) =>
      let s := { s with file := file }.noteFailure ts.val
      (s, .error (.append s.dropped))
    | (file, true) =>
      let hash := env.sha256Hex line
      let seq := s.nextSeq
      match seq.checkedAdd 1 with
      | none => ({ s with file := file, prev := hash }, .error .row)
      | some next => ({ s with file := file, prev := hash, nextSeq := next }, .ok ⟨seq, hash⟩)

/-- The gap row of a poisoned store. -/
def Store.gapEvent (s : Store) : Except StoreError ReceiptEvent :=
  match s.gapFirst, s.gapLast with
  | some first, some last => .ok (.gap s.dropped first (if last < first then first else last))
  | _, _ => .error .row

def Store.writeGap (env : Env) (s : Store) (ts : Stamp) (write : Outcome?) :
    Store × Except StoreError Unit :=
  match s.gapEvent with
  | .error e => (s, .error e)
  | .ok event =>
    match s.writeEvent env event ts write with
    | (s, .error e) => (s, .error e)
    | (s, .ok _) =>
      ({ s with poisoned := false, dropped := 0, gapFirst := none, gapLast := none }, .ok ())

/-- One dropped event less. -/
def Store.uncount (s : Store) : Store :=
  let dropped := s.dropped.saturatingSub 1
  if dropped = 0 then
    { s with dropped := dropped, poisoned := false, gapFirst := none, gapLast := none }
  else { s with dropped := dropped }

/-- A row that landed is not counted as dropped. -/
def Store.settle (env : Env) (s : Store) (bytes : Bytes) : Store :=
  if env.committedAttempt bytes s.nextSeq then s.uncount else s

/-- Take the position of a file that was read back. -/
def Store.reposition (env : Env) (s : Store) : Store × Except StoreError Unit :=
  match readAll s.file with
  | .error e => (s, .error e)
  | .ok bytes =>
    let report := env.verifyLines bytes
    match report.firstBreak with
    | some note => (s, .error (.broken note))
    | none =>
      let s := s.settle env bytes
      match report.nextSeq with
      | .error e => (s, .error e)
      | .ok next => ({ s with nextSeq := next, prev := report.head }, .ok ())

/-- Re-read the tail after a failed append and repair it the way open does. -/
def Store.resync (env : Env) (s : Store) (ts : Stamp) (write : Outcome?) :
    Store × Except StoreError Unit :=
  match readAll s.file with
  | .error e => (s, .error e)
  | .ok bytes =>
    match env.classify bytes with
    | .error e => (s, .error e)
    | .ok c =>
      match env.repairClass s.file c ts write with
      | (file, .error e) => ({ s with file := file }, .error e)
      | (file, .ok .noRow) => ({ s with file := file }, .error .row)
      | (file, .ok (.broken note)) => ({ s with file := file }, .error (.broken note))
      | (file, .ok .ready) | (file, .ok .newline) | (file, .ok .recovered) =>
        { s with file := file }.reposition env

/-- What the clock and the disk do during one append: the repair, the gap row, the event. -/
structure AppendIo where
  repairTs : Stamp
  repairWrite : Outcome?
  lostTs : Stamp
  gapTs : Stamp
  gapWrite : Outcome?
  eventTs : Stamp
  eventWrite : Outcome?

/-- A poisoned store is resynced and writes its gap row before the event. -/
def Store.prepare (env : Env) (s : Store) (io : AppendIo) : Store × Except StoreError Unit :=
  if s.poisoned then
    match s.resync env io.repairTs io.repairWrite with
    | (s, .error e) => (s.noteFailure io.lostTs.val, .error e)
    | (s, .ok ()) => if s.poisoned then s.writeGap env io.gapTs io.gapWrite else (s, .ok ())
  else (s, .ok ())

/-- `genesis`, `recover` and `gap` are not appended by callers. -/
def ReceiptEvent.appendable (event : ReceiptEvent) : Bool :=
  !event.isGenesis && !event.isRecover && !event.isGap

def Store.append (env : Env) (s : Store) (event : ReceiptEvent) (io : AppendIo) :
    Store × Except StoreError Head :=
  if event.appendable then
    match s.prepare env io with
    | (s, .error e) => (s, .error e)
    | (s, .ok ()) => s.writeEvent env event io.eventTs io.eventWrite
  else (s, .error .row)

/-! Opening. -/

structure Protection where
  systemdFd : Bool
  ownerRoot : Bool
  modeSafe : Bool
  appendFlag : Bool
  parentSafe : Bool
  deriving DecidableEq

def Protection.isProtected (p : Protection) : Bool :=
  p.systemdFd && p.ownerRoot && p.modeSafe && p.appendFlag && p.parentSafe

/-- Streams with an `open` and no later `close`. -/
def Env.orphanStreams (env : Env) (bytes : Bytes) : List Bytes :=
  (Text.lines bytes).foldl (fun streams l =>
    if l.bytes = [] ∨ Text.utf8Valid l.bytes = false then streams
    else match Json.parse env.floatInRange l.bytes with
      | none => streams
      | some value =>
        match Row.ofValue value with
        | .error _ => streams
        | .ok row =>
          match ReceiptEvent.ofValue row.e with
          | .ok (.opened o) => streams ++ [o.stream]
          | .ok (.close c) => streams.erase c.stream
          | _ => streams) []

/-- What open did to the tail, plus the protection report. -/
structure Opened where
  recovered : Bool
  repairedNewline : Bool
  recreated : Bool
  orphans : List Bytes
  protection : Protection
  report : VerifyReport
  deriving DecidableEq

inductive OpenChoice where
  | ready (store : Store) (opened : Opened)
  | unprotected (protection : Protection)
  deriving DecidableEq

/-- An adopted file before it is read: where it came from, what the probe says, whether
another process holds the lock, and how the clock and the disk will behave. -/
structure OpenRequest where
  path : Bytes
  pulse : Bytes
  fromSystemd : Bool
  stopIfUnprotected : Bool
  protection : Protection
  lockHeld : Bool
  ts : Stamp
  write : Outcome?

/-- The store over a file that was repaired or was ready. -/
def Env.openRepaired (env : Env) (req : OpenRequest) (file : Bytes)
    (recovered repairedNewline recreated : Bool) : Except StoreError OpenChoice := do
  let bytes ← readAll file
  let report := env.verifyLines bytes
  match report.firstBreak with
  | some note => .error (.broken note)
  | none =>
    let next ← report.nextSeq
    return .ready ⟨file, next, report.head, false, 0, none, none⟩
      ⟨recovered, repairedNewline, recreated, env.orphanStreams bytes, req.protection, report⟩

/-- A nonempty file must start with this pulse's genesis. -/
def Env.checkGenesis (env : Env) (req : OpenRequest) (bytes : Bytes) : Except StoreError Unit :=
  if bytes = [] then .ok ()
  else match env.genesisPulse (firstPhysicalLine bytes) with
    | some found => ensure (found = req.pulse) (.foreign req.path found req.pulse)
    | none => .error (if req.fromSystemd then .rotate req.path else .notLedger req.path)

/-- The file after the open, and the store or the refusal. -/
def Env.openOnce (env : Env) (req : OpenRequest) (file : Bytes) :
    Bytes × Except StoreError OpenChoice :=
  if req.stopIfUnprotected && !req.protection.isProtected then (file, .ok (.unprotected req.protection))
  else if req.lockHeld then (file, .error .locked)
  else match (do
      let bytes ← readAll file
      env.checkGenesis req bytes
      env.classify bytes : Except StoreError Class) with
    | .error e => (file, .error e)
    | .ok c =>
      match env.repairClass file c req.ts req.write with
      | (file, .error e) => (file, .error e)
      | (file, .ok .ready) => (file, env.openRepaired req file false false false)
      | (file, .ok .newline) => (file, env.openRepaired req file false true false)
      | (file, .ok .recovered) => (file, env.openRepaired req file true false false)
      | (file, .ok (.broken note)) => (file, .error (.broken note))
      | (file, .ok .noRow) =>
        if req.fromSystemd || file ≠ [] then (file, .error (.rotate req.path))
        else match env.encodeLine 0 genesisPrev req.ts.val (.genesis req.pulse) with
          | .error e => (file, .error e)
          | .ok line =>
            match writeAllSync file (withNewline line) req.write with
            | (file, false) => (file, .error .io)
            | (file, true) => (file, env.openRepaired req file false false true)

end PulseNull.Oneself
