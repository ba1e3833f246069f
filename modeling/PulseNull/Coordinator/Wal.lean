import PulseNull.Coordinator.WalLine
import PulseNull.Text.Lines

/-! The lease log: appends that are undone or poison the log when they fail, tail repair at
open, and a replay that refuses anything but an unterminated last line. -/
namespace PulseNull.Coordinator
open Text (newline)

/-- The longest line a replay takes. -/
def maxLineBytes : Nat := 64 * 1024

inductive ReplayError where
  | locked
  | corrupt (line : Nat)
  | version (line : Nat) (found : Fin (2^32))
  | apply (line : Nat) (source : ApplyError)
  deriving DecidableEq

/-- The log file, and whether a failed append could not be undone. -/
structure LeaseWal where
  file : Bytes
  poisoned : Bool
  deriving DecidableEq

/-! Opening. -/

/-- Where the last line that has its newline ends. -/
def keepLength (file : Bytes) : Nat :=
  (file.foldl (fun s b => (s.1 + 1, if b = newline then s.1 + 1 else s.2)) (0, 0)).2

/-- Everything after the last newline is truncated. -/
def repairTail (file : Bytes) : Bytes := file.take (keepLength file)

def LeaseWal.new (file : Bytes) (lockHeld : Bool) : Except ReplayError LeaseWal :=
  if lockHeld then .error .locked else .ok ⟨repairTail file, false⟩

/-! Appending. -/

/-- What the disk does with an append: all of it, synced; a failure that is rewound; or a
failure whose rewind fails too, after which `k` bytes of the line are in the file. A process
that dies after `k` bytes leaves the file of the last one. -/
inductive AppendOutcome where
  | synced | rewound
  | stuck (k : Nat)
  deriving DecidableEq

inductive WalError where
  | poisoned | encode | rewound | stuck
  deriving DecidableEq

def LeaseWal.append (chrono : Chrono) (w : LeaseWal) (event : LeaseEvent) (outcome : AppendOutcome) :
    LeaseWal × Except WalError Unit :=
  if w.poisoned then (w, .error .poisoned)
  else match walLine chrono event with
    | none => (w, .error .encode)
    | some line =>
      match outcome with
      | .synced => ({ w with file := w.file ++ (line ++ [newline]) }, .ok ())
      | .rewound => (w, .error .rewound)
      | .stuck k => (⟨w.file ++ (line ++ [newline]).take k, true⟩, .error .stuck)

/-! Reading back. -/

/-- A line of the file, numbered from 1. -/
structure RawLine where
  number : Nat
  bytes : Bytes
  terminated : Bool

/-- Up to a newline, or `maxLineBytes + 1` bytes; a line cut there ends the reading. -/
def readRaw : Nat → Nat → Bytes → List RawLine
  | 0, _, _ => []
  | fuel + 1, number, rest =>
    if rest = [] then []
    else
      let chunk := rest.take (maxLineBytes + 1)
      let bytes := chunk.takeWhile (· ≠ newline)
      let terminated := decide (bytes.length < chunk.length)
      let line : RawLine := ⟨number, bytes, terminated⟩
      if !terminated && decide (maxLineBytes < bytes.length) then [line]
      else line :: readRaw fuel (number + 1) (rest.drop (bytes.length + if terminated then 1 else 0))

def LeaseWal.readRaw (w : LeaseWal) : List RawLine :=
  Coordinator.readRaw (w.file.length + 1) 1 w.file

/-- Space, tab, newline, form feed or carriage return. -/
def isWhitespace (c : UInt8) : Bool := c = 32 || c = 9 || c = 10 || c = 12 || c = 13

/-- The events of the lines. Blank lines are skipped, and an unterminated line that does not
parse. -/
def readNumbered (chrono : Chrono) (inRange : Bytes → Bool) :
    List RawLine → Except ReplayError (List (Nat × LeaseEvent))
  | [] => .ok []
  | line :: lines =>
    if line.bytes.all isWhitespace then readNumbered chrono inRange lines
    else if maxLineBytes < line.bytes.length then .error (.corrupt line.number)
    else match parseWalLine chrono inRange line.bytes with
      | some l =>
        if l.v = walVersion then do
          let events ← readNumbered chrono inRange lines
          return (line.number, l.e) :: events
        else .error (.version line.number l.v)
      | none =>
        if line.terminated then .error (.corrupt line.number)
        else readNumbered chrono inRange lines

def applyNumbered (t : LeaseTable) : List (Nat × LeaseEvent) → Except ReplayError LeaseTable
  | [] => .ok t
  | (line, event) :: events => do
    let t ← (t.apply event).mapError (.apply line)
    applyNumbered t events

/-- The table of the log. -/
def LeaseWal.replay (chrono : Chrono) (inRange : Bytes → Bool) (w : LeaseWal) :
    Except ReplayError LeaseTable := do
  let events ← readNumbered chrono inRange w.readRaw
  applyNumbered .new events

end PulseNull.Coordinator
