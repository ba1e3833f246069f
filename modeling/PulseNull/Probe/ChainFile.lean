import PulseNull.Probe.Schedule
import PulseNull.HashChain
import PulseNull.Json.RoundTrip
import PulseNull.Json.Decode
import PulseNull.Json.Extend
import PulseNull.Text.Lines
import PulseNull.Text.Chars

/-! A file of the probe record: rows hash-chained to the last one that verifies, lines that are no
rows skipped and counted. -/
namespace PulseNull.Probe
open Text (ascii newline)
open HashChain (Link)

/-- SHA-256, which float texts the JSON reader has in range, and the hash of the row on a line that
holds a float (its canonical text is the JSON library's). -/
structure Env where
  sha256 : Bytes → { digest : Bytes // digest.length = 32 }
  floatInRange : Bytes → Bool
  floatRowHash : Bytes → Bytes

abbrev Members := List (Bytes × Json)

def genesis : Bytes := ascii "genesis"

def erase (k : Bytes) (ms : Members) : Members := ms.filter fun m => m.1 ≠ k

def asStr : Json → Option Bytes
  | .str s => some s
  | _ => none

def getStr (k : Bytes) (ms : Members) : Option Bytes := (Json.lookup k ms).bind asStr

def Env.sha256Hex (env : Env) (bytes : Bytes) : Bytes := Text.hex (env.sha256 bytes).val

/-- What is hashed of a row: its members are in key order, so the text is canonical. -/
def rowText (ms : Members) : Option Bytes := Json.print (.obj (erase (ascii "hash") ms))

def Env.rowHash (env : Env) (line : Bytes) (ms : Members) : Bytes :=
  match rowText ms with
  | some text => env.sha256Hex text
  | none => env.floatRowHash line

/-- The members of a line that is one JSON object. -/
def Env.readRow (env : Env) (line : Bytes) : Option Members :=
  if Text.utf8Valid line then
    match (Json.parse env.floatInRange line).map Json.normalize with
    | some (.obj ms) => some ms
    | _ => none
  else none

/-- `rows` are without their `prev` and `hash`. -/
structure ChainRead where
  rows : List Members
  brokenAt : Option Nat
  rejected : Nat
  unreadable : Nat

/-- A reader after some lines: what it read, the hash the next row is to name, and the last one. -/
structure Reading where
  read : ChainRead
  prev : Bytes
  last : Option Bytes

def Reading.start : Reading := ⟨⟨[], none, 0, 0⟩, genesis, none⟩

def Env.verified (env : Env) (prev line : Bytes) (ms : Members) : Bool :=
  getStr (ascii "prev") ms = some prev && getStr (ascii "hash") ms = some (env.rowHash line ms)

def Env.readLine (env : Env) (number : Nat) (r : Reading) (line : Bytes) : Reading :=
  match env.readRow line with
  | none =>
    if Text.utf8Valid line && Text.trim line = [] then r
    else { r with read := { r.read with unreadable := r.read.unreadable + 1 } }
  | some ms =>
    if env.verified r.prev line ms then
      let hash := (getStr (ascii "hash") ms).getD []
      { read := { r.read with rows := r.read.rows ++
          [erase (ascii "prev") (erase (ascii "hash") ms)] }
        prev := hash
        last := some hash }
    else { r with read := { r.read with
      rejected := r.read.rejected + 1
      brokenAt := r.read.brokenAt.orElse fun _ => some number } }

def Env.readLines (env : Env) : Nat → Reading → List Bytes → Reading
  | _, r, [] => r
  | number, r, line :: lines => env.readLines (number + 1) (env.readLine number r line) lines

def lineBytes (file : Bytes) : List Bytes := (Text.lines file).map Text.Line.bytes

/-- The piece after a last newline is blank, and skipped like any blank line. -/
def Env.readChainRaw (env : Env) (file : Bytes) : ChainRead × Option Bytes :=
  let r := env.readLines 1 .start (lineBytes file)
  (r.read, r.last)

def Env.readChain (env : Env) (file : Bytes) : ChainRead := (env.readChainRaw file).1

/-- The hash the next row is chained to. What an append remembers of the file it left gives the
same. -/
def Env.lastHash (env : Env) (file : Bytes) : Bytes := (env.readChainRaw file).2.getD genesis

def endsTorn (file : Bytes) : Bool := file.getLast?.any (· ≠ newline)

/-- A row with its `prev` and its `hash`. A float has no text here. -/
def Env.sealRow (env : Env) (prev : Bytes) (row : Members) : Option Members :=
  let fields := Json.insert (ascii "prev") (.str prev) (erase (ascii "hash") (erase (ascii "prev") row))
  (Json.print (.obj fields)).map fun text =>
    Json.insert (ascii "hash") (.str (env.sha256Hex text)) fields

def Env.rowLine (env : Env) (prev : Bytes) (row : Members) : Option Bytes :=
  (env.sealRow prev row).bind fun ms => Json.print (.obj ms)

/-- What an append writes after a file: a torn last line is closed off first. -/
def appended (file line : Bytes) : Bytes :=
  (if endsTorn file then [newline] else []) ++ (line ++ [newline])

/-- The streams the gate reads. -/
def gateStreams : List Stream := [.runs, .budget, .facts]

def Env.brokenChains (env : Env) (files : Stream → Bytes) : List (Stream × Nat) :=
  gateStreams.filterMap fun s => (env.readChain (files s)).brokenAt.map fun line => (s, line)

/-! The reader follows the chain. -/

def Env.link (env : Env) (line : Bytes) : Option (Link Bytes) :=
  (env.readRow line).map fun ms => ⟨getStr (ascii "prev") ms,
    if getStr (ascii "hash") ms = some (env.rowHash line ms) then some (env.rowHash line ms)
    else none⟩

def Env.links (env : Env) (lines : List Bytes) : List (Option (Link Bytes)) := lines.map env.link

variable {env : Env}

theorem readLine_link (number : Nat) {r : Reading} (line : Bytes) (hr : r.last.getD genesis = r.prev) :
    match HashChain.next r.prev (env.link line) with
    | some q => (env.readLine number r line).read.brokenAt = r.read.brokenAt ∧
      (env.readLine number r line).prev = q ∧ (env.readLine number r line).last.getD genesis = q
    | none => (env.readLine number r line).read.brokenAt =
        r.read.brokenAt.orElse (fun _ => some number) := by
  unfold Env.readLine Env.link
  cases env.readRow line with
  | none =>
    change _ ∧ _ ∧ _
    dsimp only
    split
    · exact ⟨rfl, rfl, hr⟩
    · exact ⟨rfl, rfl, hr⟩
  | some ms =>
    by_cases hprev : getStr (ascii "prev") ms = some r.prev <;>
      by_cases hhash : getStr (ascii "hash") ms = some (env.rowHash line ms) <;>
      simp [HashChain.next, Env.verified, hprev, hhash]

/-- Once broken, always broken, at the same line. -/
theorem readLines_broken {lines : List Bytes} {number at' : Nat} {r : Reading}
    (h : r.read.brokenAt = some at') : (env.readLines number r lines).read.brokenAt = some at' := by
  induction lines generalizing number r with
  | nil => exact h
  | cons line lines ih =>
    refine ih ?_
    unfold Env.readLine
    split
    · split <;> exact h
    · split
      · exact h
      · change r.read.brokenAt.orElse _ = _
        rw [h]
        rfl

theorem readLines_follow {lines : List Bytes} (number : Nat) {r : Reading}
    (hr : r.last.getD genesis = r.prev) (hb : r.read.brokenAt = none) :
    match HashChain.follow r.prev (env.links lines) with
    | some q => (env.readLines number r lines).read.brokenAt = none ∧
      (env.readLines number r lines).last.getD genesis = q
    | none => (env.readLines number r lines).read.brokenAt.isSome := by
  induction lines generalizing number r with
  | nil => exact ⟨hb, hr⟩
  | cons line lines ih =>
    have hline := @readLine_link env number _ line hr
    change match (HashChain.next r.prev (env.link line)).bind
      fun q => HashChain.follow q (env.links lines) with | some q => _ | none => _
    cases hn : HashChain.next r.prev (env.link line) with
    | none =>
      rw [hn] at hline
      rw [hb] at hline
      change (env.readLines (number + 1) (env.readLine number r line) lines).read.brokenAt.isSome
      rw [readLines_broken hline]
      rfl
    | some q =>
      rw [hn] at hline
      obtain ⟨hbroken, rfl, hlast⟩ := hline
      exact ih (number + 1) hlast (hbroken.trans hb)

/-- A file reads clean when its rows follow one another, and its last hash is theirs. -/
theorem readChain_clean {file : Bytes} :
    (env.readChain file).brokenAt = none ↔
      ∃ q, HashChain.follow genesis (env.links (lineBytes file)) = some q := by
  have h := @readLines_follow env (lineBytes file) 1 .start rfl rfl
  change (match HashChain.follow genesis (env.links (lineBytes file)) with
    | some q => _ | none => _) at h
  cases hf : HashChain.follow genesis (env.links (lineBytes file)) with
  | none =>
    rw [hf] at h
    refine iff_of_false (fun hn => ?_) (fun ⟨q, hq⟩ => nomatch hq)
    change (env.readChain file).brokenAt.isSome = true at h
    rw [hn] at h
    exact nomatch h
  | some q =>
    rw [hf] at h
    exact iff_of_true h.1 ⟨q, rfl⟩

theorem follow_lastHash {file : Bytes} (h : (env.readChain file).brokenAt = none) :
    HashChain.follow genesis (env.links (lineBytes file)) = some (env.lastHash file) := by
  obtain ⟨q, hq⟩ := readChain_clean.mp h
  have hl := @readLines_follow env (lineBytes file) 1 .start rfl rfl
  change (match HashChain.follow genesis (env.links (lineBytes file)) with
    | some q => _ | none => _) at hl
  rw [hq] at hl
  rw [hq, ← hl.2]
  rfl

end PulseNull.Probe
