import PulseNull.Text.Lines
import PulseNull.Text.Trim

/-! Journal documents and their archive. A document is entries and the furniture around them, and
archiving moves the older half of the entries to another file. -/
namespace PulseNull.Praxis
open Text (ascii newline trimStart Complete)

/-! The document. -/

/-- How a line participates in a document's structure. -/
inductive LineRole where
  | entryStart | structural | body
  deriving DecidableEq

def structuralHeaders : List Bytes :=
  [ascii "## Open Questions", ascii "## Themes", ascii "## Explored", ascii "## Core Identity",
    ascii "## How I Think", ascii "## Moral Foundation", ascii "## Philosophical Positions",
    ascii "## Growth Log", ascii "## Core Values", ascii "## How I Communicate"]

def isStructuralHeader (line : Bytes) : Bool :=
  structuralHeaders.any fun header => header.isPrefixOf line

def isH2 (line : Bytes) : Bool := (ascii "## ").isPrefixOf (trimStart line)

def isH3 (line : Bytes) : Bool := (ascii "### ").isPrefixOf (trimStart line)

/-- A `### ` inside a `## ` entry is a subsection of that entry. -/
def classifyLine (line : Bytes) (insideH2Entry : Bool) : LineRole :=
  if isH2 line then if isStructuralHeader (trimStart line) then .structural else .entryStart
  else if isH3 line && !insideH2Entry then .entryStart
  else .body

/-- One run of lines. Furniture is never archived. -/
inductive Block where
  | furniture (text : Bytes)
  | entry (text : Bytes)
  deriving DecidableEq

def Block.text : Block → Bytes
  | .furniture text | .entry text => text

def Block.pushLine (line : Bytes) : Block → Block
  | .furniture text => .furniture (text ++ (line ++ [newline]))
  | .entry text => .entry (text ++ (line ++ [newline]))

def pushNonEmpty (blocks : List Block) (block : Block) : List Block :=
  if block.text = [] then blocks else blocks ++ [block]

/-- `parse` between two lines. -/
structure Parsing where
  blocks : List Block
  current : Block
  insideH2Entry : Bool

def Parsing.line (p : Parsing) (line : Bytes) : Parsing :=
  match classifyLine line p.insideH2Entry with
  | .entryStart =>
    ⟨pushNonEmpty p.blocks p.current, (Block.entry []).pushLine line, isH2 line⟩
  | .structural => ⟨pushNonEmpty p.blocks p.current, (Block.furniture []).pushLine line, false⟩
  | .body => { p with current := p.current.pushLine line }

def Parsing.finish (p : Parsing) : List Block := pushNonEmpty p.blocks p.current

/-- The lines `str::lines` gives. -/
def contents (text : Bytes) : List Bytes := (Text.lines text).map Text.Line.content

def parse (content : Bytes) : List Block :=
  ((contents content).foldl Parsing.line ⟨[], .furniture [], false⟩).finish

def render (blocks : List Block) : Bytes := blocks.flatMap Block.text

/-- The texts of the entries. -/
def entries (blocks : List Block) : List Bytes :=
  blocks.filterMap fun
    | .entry text => some text
    | .furniture _ => none

/-- The first `count` entries, and the blocks that stay. -/
def removeOldestEntries : Nat → List Block → List Bytes × List Block
  | _, [] => ([], [])
  | count + 1, .entry text :: rest =>
    let (removed, kept) := removeOldestEntries count rest
    (text :: removed, kept)
  | count, block :: rest =>
    let (removed, kept) := removeOldestEntries count rest
    (removed, block :: kept)

/-! The archive. -/

/-- The journal, and the archive of the day. -/
structure Files where
  source : Bytes
  archive : Option Bytes

/-- The name of the document and the date. -/
structure Heading where
  docName : Bytes
  date : Bytes

def Heading.text (h : Heading) : Bytes :=
  ascii "# Archive " ++ [226, 128, 148] ++ ascii " " ++ h.docName ++ ascii " (" ++ h.date ++ ascii ")" ++
    [newline, newline]

def archiveText (h : Heading) (archive : Option Bytes) (toArchive : List Bytes) : Bytes :=
  match archive with
  | some existing => existing ++ newline :: [newline].intercalate toArchive
  | none => h.text ++ [newline].intercalate toArchive

/-- The new archive and the new source. Nothing is written when no entry is old enough. -/
def archivePlan (h : Heading) (f : Files) : Option (Bytes × Bytes) :=
  let blocks := parse f.source
  let (toArchive, kept) := removeOldestEntries ((entries blocks).length / 2) blocks
  if toArchive = [] then none else some (archiveText h f.archive toArchive, render kept)

/-- `archive_document`: whether entries were moved, and the files. -/
def archiveDocument (h : Heading) (f : Files) : Bool × Files :=
  match archivePlan h f with
  | none => (false, f)
  | some (archive, source) => (true, ⟨source, some archive⟩)

/-- Where a run stops. A write truncates its file, and then some of its bytes are there. -/
inductive CrashPoint where
  | before
  | inArchive (written : Nat)
  | between
  | inSource (written : Nat)
  | after

/-- What a run that stops there leaves. -/
def crashAt (h : Heading) (f : Files) (c : CrashPoint) : Files :=
  match archivePlan h f with
  | none => f
  | some (archive, source) => match c with
    | .before => f
    | .inArchive written => { f with archive := some (archive.take written) }
    | .between => { f with archive := some archive }
    | .inSource written => ⟨source.take written, some archive⟩
    | .after => ⟨source, some archive⟩

end PulseNull.Praxis
