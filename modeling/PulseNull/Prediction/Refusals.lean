import PulseNull.Json.Decode
import PulseNull.Json.RoundTrip
import PulseNull.Json.Size
import PulseNull.Machine
import PulseNull.Scheduler.Strip
import PulseNull.Text.Lossy
import PulseNull.Word

/-! The state file of refused prediction markers: counted into numbered entries, told in a notice,
and cleared when the turn that carried the notice succeeds. -/
namespace PulseNull.Prediction.Refusals
open Text (ascii decimal)
open Json (Decoder)
open Scheduler (MarkerCounts countPredictionMarkers)

/-- Largest state file read. -/
def maxRefusalsBytes : ℕ := 64 * 1024

structure Pending where
  predict : U64
  resolve : U64
  deriving DecidableEq

structure Entry where
  id : U64
  counts : Pending
  deriving DecidableEq

structure State where
  nextId : U64
  shownThrough : U64
  entries : List Entry
  deriving DecidableEq

def Pending.default : Pending := ⟨0, 0⟩

def State.default : State := ⟨0, 0, []⟩

def Pending.add (p : Pending) (predict resolve : ℕ) : Pending :=
  ⟨p.predict.saturatingAdd predict, p.resolve.saturatingAdd resolve⟩

def total (entries : List Entry) : Pending :=
  entries.foldl (fun acc e => acc.add e.counts.predict.val e.counts.resolve.val) .default

/-! The file. -/

def u64 (n : U64) : Json := .num (.pos n)

def Pending.toValue (p : Pending) : Json :=
  .obj [(ascii "predict", u64 p.predict), (ascii "resolve", u64 p.resolve)]

def Entry.toValue (e : Entry) : Json :=
  .obj [(ascii "id", u64 e.id), (ascii "counts", e.counts.toValue)]

def State.toValue (s : State) : Json :=
  .obj [(ascii "next_id", u64 s.nextId), (ascii "shown_through", u64 s.shownThrough),
    (ascii "entries", .arr (s.entries.map Entry.toValue))]

def Pending.ofValue : Decoder Pending := fun v => do
  let ms ← Json.openMembers
    [.of (ascii "predict") Json.decodeU64, .of (ascii "resolve") Json.decodeU64] v
  return {
    predict := ← Json.required Json.decodeU64 (ascii "predict") ms
    resolve := ← Json.required Json.decodeU64 (ascii "resolve") ms }

def Entry.ofValue : Decoder Entry := fun v => do
  let ms ← Json.openMembers [.of (ascii "id") Json.decodeU64, .of (ascii "counts") Pending.ofValue] v
  return {
    id := ← Json.required Json.decodeU64 (ascii "id") ms
    counts := ← Json.required Pending.ofValue (ascii "counts") ms }

def decodeEntries : Decoder (List Entry)
  | .arr items => items.mapM Entry.ofValue
  | v => .error (Json.mismatch v)

def State.ofValue : Decoder State := fun v => do
  let ms ← Json.openMembers
    [.of (ascii "next_id") Json.decodeU64, .of (ascii "shown_through") Json.decodeU64,
     .of (ascii "entries") decodeEntries] v
  return {
    nextId := ← Json.required Json.decodeU64 (ascii "next_id") ms
    shownThrough := ← Json.required Json.decodeU64 (ascii "shown_through") ms
    entries := ← Json.required decodeEntries (ascii "entries") ms }

variable (inRange : Bytes → Bool)

/-- A missing, oversized or odd file is no state. -/
def load : Option Bytes → State
  | none => .default
  | some content =>
    if maxRefusalsBytes < content.length then .default
    else match (Json.parse inRange (Text.fromUtf8Lossy content)).map State.ofValue with
      | some (.ok s) => s
      | _ => .default

/-- The file after a write, or its removal, that lands or fails. -/
def store (file : Option Bytes) (s : State) (landed : Bool) : Option Bytes :=
  if !landed then file
  else if s.entries = [] then none
  else Json.print s.toValue

/-! The operations. -/

def render (pending : Pending) : Option Bytes :=
  let parts :=
    (if 0 < pending.predict.val then [decimal pending.predict.val ++ ascii " [PREDICT:]"] else []) ++
    if 0 < pending.resolve.val then [decimal pending.resolve.val ++ ascii " [RESOLVE:]"] else []
  if parts = [] then none
  else some (ascii "[MARKERS REFUSED: " ++ List.intercalate (ascii " and ") parts ++
    ascii (" in your recent output. Free-form predictions are retired; " ++
      "a checkable kind returns in a later phase.]"))

structure ShownNotice where
  text : Bytes
  upto : U64
  deriving DecidableEq

/-- A new entry, unless the last one has not been shown. -/
def State.record (s : State) (counts : MarkerCounts) : State :=
  match s.entries.getLast? with
  | some last =>
    if s.shownThrough < last.id then
      { s with entries := s.entries.dropLast ++
          [{ last with counts := last.counts.add counts.predict counts.resolve }] }
    else fresh
  | none => fresh
where
  fresh : State :=
    { s with
      nextId := s.nextId.saturatingAdd 1
      entries := s.entries ++
        [⟨s.nextId.saturatingAdd 1, Pending.default.add counts.predict counts.resolve⟩] }

def record (file : Option Bytes) (counts : MarkerCounts) (landed : Bool) : Option Bytes :=
  if counts.predict = 0 ∧ counts.resolve = 0 then file
  else store file ((load inRange file).record counts) landed

def State.upto (s : State) : U64 := (s.entries.getLast?.map Entry.id).getD 0

def State.markShown (s : State) : State := { s with shownThrough := s.upto }

/-- The pending notice, and the file with the notice marked as shown. -/
def peekNotice (file : Option Bytes) (landed : Bool) : Option ShownNotice × Option Bytes :=
  let s := load inRange file
  match render (total s.entries) with
  | none => (none, file)
  | some text =>
    (some ⟨text, s.upto⟩,
      if s.shownThrough < s.upto then store file s.markShown landed else file)

def State.acknowledge (s : State) (notice : ShownNotice) : State :=
  { s with entries := s.entries.filter fun e => notice.upto < e.id }

def acknowledge (file : Option Bytes) (notice : ShownNotice) (landed : Bool) : Option Bytes :=
  store file ((load inRange file).acknowledge notice) landed

/-- The message with the pending notice, and the notice. -/
def withNotice (file : Option Bytes) (message : Bytes) (landed : Bool) :
    Bytes × Option ShownNotice × Option Bytes :=
  let shown := peekNotice inRange file landed
  (message ++ (shown.1.map fun n => ascii "\n\n" ++ n.text).getD [], shown.1, shown.2)

def refuseMarkers (file : Option Bytes) (rawOutput : Bytes) (landed : Bool) : Option Bytes :=
  record inRange file (countPredictionMarkers rawOutput) landed

/-! Turns over one file. -/

/-- A turn whose prompt has a notice: the entries the notice counted, and how often the file had
been removed when it was built. -/
structure Turn where
  notice : ShownNotice
  shown : List Entry
  removals : ℕ
  deriving DecidableEq

/-- The file and the turns under way, with what has been counted and cleared. -/
structure Sys where
  file : Option Bytes
  turns : List Turn
  removals : ℕ
  recorded : MarkerCounts
  cleared : List (Turn × Entry)
  deriving DecidableEq

inductive Act where
  | refuse (rawOutput : Bytes) (landed : Bool)
  | prompt (message : Bytes) (landed : Bool)
  | succeed (turn : ℕ) (landed : Bool)
  | fail (turn : ℕ)
  | restart

/-- Whether a write that lands takes the file away. -/
def removed (before after : Option Bytes) : ℕ := if before.isSome && after.isNone then 1 else 0

def Sys.refuse (s : Sys) (rawOutput : Bytes) (landed : Bool) : Sys :=
  let counts := countPredictionMarkers rawOutput
  { s with
    file := refuseMarkers inRange s.file rawOutput landed
    recorded := if landed then ⟨s.recorded.predict + counts.predict, s.recorded.resolve + counts.resolve⟩
      else s.recorded }

def Sys.prompt (s : Sys) (message : Bytes) (landed : Bool) : Sys :=
  let shown := withNotice inRange s.file message landed
  { s with
    file := shown.2.2
    turns := s.turns ++
      (shown.2.1.map fun notice => ⟨notice, (load inRange s.file).entries, s.removals⟩).toList }

def Sys.succeed (s : Sys) (turn : ℕ) (landed : Bool) : Sys :=
  match s.turns[turn]? with
  | none => s
  | some t =>
    let file := acknowledge inRange s.file t.notice landed
    { s with
      file := file
      turns := s.turns.eraseIdx turn
      removals := s.removals + removed s.file file
      cleared := s.cleared ++ if landed then
        ((load inRange s.file).entries.filter fun e => !decide (t.notice.upto < e.id)).map fun e => (t, e)
        else [] }

def Sys.step (s : Sys) : Act → Sys
  | .refuse rawOutput landed => s.refuse inRange rawOutput landed
  | .prompt message landed => s.prompt inRange message landed
  | .succeed turn landed => s.succeed inRange turn landed
  | .fail turn => { s with turns := s.turns.eraseIdx turn }
  | .restart => { s with turns := [] }

def refusals : Machine Sys Act := ⟨⟨none, [], 0, ⟨0, 0⟩, []⟩, Sys.step inRange⟩

end PulseNull.Prediction.Refusals
