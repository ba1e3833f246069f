import PulseNull.Probe.Schedule

/-! Paired facts: a pair is drawn and one side of it planted by the owner; the fact is then asked
at fixed offsets. What has been asked is read back from the rows of `facts.jsonl`. -/
namespace PulseNull.Probe
open Text (ascii)

def plantWindowDays : Int := 14

/-- One side of a pair. -/
structure Side where
  slot : Bytes
  askOwner : Bytes
  question : Bytes
  keywords : List Bytes
  deriving DecidableEq

structure Pair where
  id : Bytes
  a : Side
  b : Side
  deriving DecidableEq

/-- The pair set as written in its file. -/
structure PairSet where
  set : Bytes
  version : Nat
  minN : Nat
  offsetsDays : List Int
  maxActive : Nat
  instructions : Bytes
  pairs : List Pair
  deriving DecidableEq

/-- Words of a text, the first of them begun already when `inWord`. -/
def wordCountFrom : Nat → Bool → Bytes → Nat
  | 0, _, _ => 0
  | n + 1, inWord, text => match Text.stripBlank text, text with
    | some rest, _ => wordCountFrom n false rest
    | none, _ :: rest => (if inWord then 0 else 1) + wordCountFrom n true rest
    | none, [] => 0

def wordCount (text : Bytes) : Nat := wordCountFrom text.length false text

def checkPairs (set : PairSet) : Except Bytes Unit := do
  ensure (set.pairs ≠ [] ∧ set.offsetsDays ≠ []) (ascii "paired-facts set has no pairs or no offsets")
  match (set.pairs.flatMap fun p => [p.a, p.b]).find? fun side =>
    side.keywords.isEmpty || side.keywords.any fun k => wordCount k < 2 with
  | some side => .error (ascii "paired-facts side '" ++ side.slot ++
      ascii "' needs keyword phrases of two words or more")
  | none => .ok ()

/-- The pair set and the key the record's assignments are committed with. -/
structure LoadedPairs extends PairSet where
  factKey : Bytes
  checked : checkPairs toPairSet = .ok ()
  deriving DecidableEq

/-- Which side of the pair was planted. -/
inductive Which where
  | a | b
  deriving DecidableEq, Repr

def Which.asStr : Which → UInt8
  | .a => 97
  | .b => 98

def plantedSide (pair : Pair) : Which → Side
  | .a => pair.a
  | .b => pair.b

def twinOf (pair : Pair) : Which → Side
  | .a => pair.b
  | .b => pair.a

def assignmentText (factKey fact pair : Bytes) (planted : Which) : Bytes :=
  ascii "pulse-null probe fact v1\n" ++ factKey ++ [Text.newline] ++ fact ++ [Text.newline] ++ pair ++
    [Text.newline, planted.asStr]

/-- The commitment a draw row carries for a pair and its planted side. -/
def LoadedPairs.assignment (sha256 : Sha256) (pairs : LoadedPairs) (fact pair : Bytes)
    (planted : Which) : Bytes :=
  Text.hex (sha256 (assignmentText pairs.factKey fact pair planted)).val

/-- The pair and planted side behind a draw row's commitment. -/
def LoadedPairs.resolve (sha256 : Sha256) (pairs : LoadedPairs) (fact assignment : Bytes) :
    Option (Bytes × Which) :=
  pairs.pairs.findSome? fun pair =>
    ([Which.a, .b].find? fun w => pairs.assignment sha256 fact pair.id w = assignment).map
      fun w => (pair.id, w)

def LoadedPairs.label (pairs : LoadedPairs) : Bytes :=
  pairs.set ++ ascii "/v" ++ Text.decimal pairs.version

def LoadedPairs.pair (pairs : LoadedPairs) (id : Bytes) : Option Pair :=
  pairs.pairs.find? (·.id = id)

def guessInstructions : Bytes :=
  ascii ("Guess: you were never told the answer to the question below. Reply with just your best " ++
    "guess at it, a single value. Do not reply UNKNOWN: here a guess is always the answer.")

/-- The prompt for one side. -/
def LoadedPairs.prompt (pairs : LoadedPairs) (side : Side) : Bytes :=
  Text.trim pairs.instructions ++ ascii "\n\n" ++ side.question

def guessPrompt (side : Side) : Bytes := guessInstructions ++ ascii "\n\n" ++ side.question

/-- A fact as its rows describe it. `asked` are the offsets already asked or passed over. -/
structure Fact where
  fact : Bytes
  pair : Bytes
  planted : Which
  drawnAt : Utc
  value : Option Bytes
  plantedAt : Option Utc
  asked : List Int
  deriving DecidableEq

/-- Drawn and planted within the plant window, and not yet asked at the last offset. -/
def Fact.active (fact : Fact) (offsets : List Int) (now : Utc) : Bool :=
  if fact.value.isNone then now - fact.drawnAt < plantWindowDays * dayNanos
  else !fact.asked.contains (offsets.max?.getD 0)

/-- The first fact of this name is changed by `f`. -/
def updateFact (id : Bytes) (f : Fact → Fact) : List Fact → List Fact
  | [] => []
  | fact :: facts => if fact.fact = id then f fact :: facts else fact :: updateFact id f facts

/-- One row of `facts.jsonl`; a draw that does not resolve with this fact key is passed over. -/
def LoadedPairs.applyFactRow (sha256 : Sha256) (pairs : LoadedPairs) (facts : List Fact) :
    FactRow → List Fact
  | .draw id time assignment => match pairs.resolve sha256 id assignment with
    | some (pair, planted) => facts ++ [⟨id, pair, planted, time, none, none, []⟩]
    | none => facts
  | .plant id value plantedAt =>
    updateFact id (fun f => { f with value := some value, plantedAt := some plantedAt }) facts
  | .missed id offset _ | .ask id offset _ _ _ _ _ =>
    updateFact id (fun f => { f with asked := f.asked ++ [offset] }) facts

/-- Rebuild the facts from the rows of `facts.jsonl`. -/
def LoadedPairs.factsFromRows (sha256 : Sha256) (pairs : LoadedPairs) (rows : List FactRow) :
    List Fact :=
  rows.foldl (pairs.applyFactRow sha256) []

inductive FactError where
  | refused (reason : Bytes)
  | noMention (drawnAt : Utc) (value : Bytes) (keywords : List Bytes)
  deriving DecidableEq

/-- What a draw asks the owner to do. -/
structure Drawn where
  fact : Bytes
  askOwner : Bytes
  say : Bytes
  avoid : Bytes
  deriving DecidableEq

/-- A fresh UUID. -/
abbrev Uuid := { bytes : Bytes // bytes.length = 16 }

/-- The pairs no fact has used. -/
def LoadedPairs.free (pairs : LoadedPairs) (facts : List Fact) : List Pair :=
  pairs.pairs.filter fun p => !facts.any (·.pair = p.id)

/-- Draw a pair no fact has ever used, and which side the owner plants: the row to append, and
the pair behind it. -/
def LoadedPairs.draw (sha256 : Sha256) (pairs : LoadedPairs) (rows : List FactRow) (now : Utc)
    (random : Uuid) : Except FactError (Drawn × Pair × FactRow) :=
  let facts := pairs.factsFromRows sha256 rows
  let active := facts.filter fun f => f.active pairs.offsetsDays now
  if active.length ≥ pairs.maxActive then
    .error (.refused (Text.decimal active.length ++ ascii " facts are already in flight (max " ++
      Text.decimal pairs.maxActive ++ ascii "); draw again after one finishes"))
  else
    let free := pairs.free facts
    match free[(random.val.getD 0 0).toNat % free.length]? with
    | none => .error (.refused (ascii "all " ++ Text.decimal pairs.pairs.length ++ ascii " pairs of " ++
        pairs.label ++ ascii " have been used; a new set version brings new ones"))
    | some pair =>
      let planted := if (random.val.getD 1 0).toNat % 2 = 0 then Which.a else .b
      let fact := ascii "f" ++ Text.hex (random.val.take 4)
      .ok (⟨fact, (plantedSide pair planted).askOwner, (plantedSide pair planted).keywords.headD [],
          (twinOf pair planted).askOwner⟩,
        pair, .draw fact now (pairs.assignment sha256 fact pair.id planted))

/-- The drawn fact, if it can still be planted: not yet planted, and inside its window. -/
def plantable (facts : List Fact) (factId : Bytes) (offsetsDays : List Int) (now : Utc) :
    Except FactError Fact :=
  match facts.find? (·.fact = factId) with
  | none => .error (.refused (ascii "no drawn fact '" ++ factId ++ ascii "'"))
  | some fact =>
    if fact.value.isSome then
      .error (.refused (ascii "'" ++ factId ++ ascii "' is already planted"))
    else if !fact.active offsetsDays now then
      .error (.refused (ascii "'" ++ factId ++ ascii "' was drawn more than 14 days ago and is " ++
        ascii "abandoned; draw a new fact"))
    else .ok fact

/-- The row of a planted value, once an owner message after the draw contains it: `findPlant` is
when the first such message came. -/
def LoadedPairs.plant (sha256 : Sha256) (pairs : LoadedPairs) (rows : List FactRow)
    (findPlant : Utc → Side → Bytes → Option Utc) (factId value : Bytes) (now : Utc) :
    Except FactError FactRow :=
  let value := Text.trim value
  if value.isEmpty then .error (.refused (ascii "the value is empty"))
  else do
    let fact ← plantable (pairs.factsFromRows sha256 rows) factId pairs.offsetsDays now
    match pairs.pair fact.pair with
    | none => .error (.refused (ascii "pair '" ++ fact.pair ++ ascii "' is not in this set"))
    | some pair =>
      let side := plantedSide pair fact.planted
      match findPlant fact.drawnAt side value with
      | none => .error (.noMention fact.drawnAt value side.keywords)
      | some mention => .ok (.plant factId value mention)

/-- One side to ask at one offset. -/
structure Ask where
  fact : Bytes
  pair : Bytes
  offsetDays : Int
  side : SideRole
  question : Bytes
  value : Option Bytes
  drawnAt : Utc
  plantedAt : Utc
  keywords : List Bytes
  missed : List Int
  deriving DecidableEq

/-- Does this ask carry the planted value? -/
def SideRole.knowsValue : SideRole → Bool
  | .planted | .chance | .guess => true
  | .twin => false

/-- The offsets of a planted fact that came due and were not asked. -/
def LoadedPairs.cameDue (pairs : LoadedPairs) (fact : Fact) (plantedAt now : Utc) : List Int :=
  pairs.offsetsDays.filter fun d => !fact.asked.contains d && plantedAt + d * dayNanos ≤ now

/-- One ask of a fact at its latest due offset. -/
def LoadedPairs.ask (pairs : LoadedPairs) (fact : Fact) (value : Bytes) (plantedAt : Utc)
    (side : Side) (offset : Int) (missed : List Int) (role : SideRole) : Ask :=
  { fact := fact.fact, pair := fact.pair, offsetDays := offset, side := role
    question := if role = .guess then guessPrompt side else pairs.prompt side
    value := if role.knowsValue then some value else none
    drawnAt := fact.drawnAt, plantedAt, keywords := side.keywords, missed }

/-- The asks due for one fact: the latest offset that came due, on each of its four sides. -/
def LoadedPairs.dueOf (pairs : LoadedPairs) (now : Utc) (fact : Fact) : List Ask :=
  match fact.value, fact.plantedAt, pairs.pair fact.pair with
  | some value, some plantedAt, some pair =>
    let cameDue := pairs.cameDue fact plantedAt now
    match cameDue.max? with
    | none => []
    | some offset =>
      let missed := cameDue.filter (· < offset)
      let planted := pairs.ask fact value plantedAt (plantedSide pair fact.planted) offset missed
      let twin := pairs.ask fact value plantedAt (twinOf pair fact.planted) offset missed
      [planted .planted, twin .twin, planted .chance, planted .guess]
  | _, _, _ => []

/-- The asks due at `now`. -/
def LoadedPairs.due (pairs : LoadedPairs) (facts : List Fact) (now : Utc) : List Ask :=
  facts.flatMap (pairs.dueOf now)

end PulseNull.Probe
