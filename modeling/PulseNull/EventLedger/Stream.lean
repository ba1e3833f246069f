import PulseNull.Broadcast
import PulseNull.EventLedger.Row

/-! The ring of recent rows, the task that fills it and the stream one client reads, each by the
steps in which it touches what they share. -/
namespace PulseNull.EventLedger
open Text

structure LedgerRing where
  nextId : Nat
  capacity : Nat
  buf : List LedgerRow
  tx : Broadcast LedgerRow

/-- `slots` is how many rows the channel comes to keep when it is asked for `max capacity 16`. -/
def LedgerRing.new (capacity slots : Nat) : LedgerRing := ⟨1, capacity, [], ⟨slots, []⟩⟩

/-- The id handed out, and the ring after it. -/
def LedgerRing.fetchNextId (ring : LedgerRing) : Nat × LedgerRing :=
  (ring.nextId, { ring with nextId := (ring.nextId + 1) % 2^64 })

/-- The first half of `push`, under the lock. -/
def LedgerRing.store (ring : LedgerRing) (row : LedgerRow) : LedgerRing :=
  let buf := if ring.buf.length = ring.capacity then ring.buf.tail else ring.buf
  { ring with buf := buf ++ [row] }

/-- The second half of `push`. -/
def LedgerRing.broadcast (ring : LedgerRing) (row : LedgerRow) : LedgerRing :=
  { ring with tx := ring.tx.send row }

def LedgerRing.replay (ring : LedgerRing) (after : Option Nat) : List LedgerRow :=
  ring.buf.filter fun r => after.all fun a => decide (a < r.id)

def LedgerRing.oldestId (ring : LedgerRing) : Option Nat := ring.buf.head?.map (·.id)

def LedgerRing.lastId (ring : LedgerRing) : Nat := ring.nextId - 1

/-! The projector. -/

/-- What the task receives from the bus of events. -/
inductive BusItem where
  | event (e : PulseEvent)
  | lagged (n : Nat)

def BusItem.row (item : BusItem) (id : Nat) (now : DateTime) : Option LedgerRow :=
  match item with
  | .event e => project e id now
  | .lagged n =>
    some (notice id now (ascii "ledger: " ++ decimal n ++ ascii " events dropped (bus lagged)"))

/-- Between two items; with a row to store; with a row stored and still to be broadcast. -/
inductive Projector where
  | idle
  | storing (row : LedgerRow)
  | sending (row : LedgerRow)

/-- An id is taken before the event is projected. -/
def Projector.take (ring : LedgerRing) (item : BusItem) (now : DateTime) :
    Projector × LedgerRing :=
  let (id, ring) := ring.fetchNextId
  match item.row id now with
  | some row => (.storing row, ring)
  | none => (.idle, ring)

def Projector.push (ring : LedgerRing) : Projector → Projector × LedgerRing
  | .idle => (.idle, ring)
  | .storing row => (.sending row, ring.store row)
  | .sending row => (.idle, ring.broadcast row)

/-! The stream. -/

inductive Notice where
  | expired (rows : Nat)
  | dropped (rows : Nat)
  deriving DecidableEq

def Notice.rows : Notice → Nat
  | .expired rows => rows
  | .dropped rows => rows

def Notice.name : Notice → Bytes
  | .expired rows => ascii "ledger: " ++ decimal rows ++ ascii " rows expired before reconnect"
  | .dropped rows => ascii "ledger: " ++ decimal rows ++ ascii " rows dropped (stream lagged)"

/-- What the stream yields: a row of the ledger, or a notice under the id of the connection. -/
inductive Item where
  | row (r : LedgerRow)
  | notice (id : Nat) (what : Notice)

/-- The row that goes out. -/
def Item.ledgerRow (now : DateTime) : Item → LedgerRow
  | .row r => r
  | .notice id what => EventLedger.notice id now what.name

/-- Where `ledger_stream` stands: subscribed; the cursor clamped; the replay taken; the ring found
empty after it; in the loop. -/
inductive Phase where
  | subscribed (after : Option Nat)
  | clamped (after : Option Nat)
  | replaying (a : Nat) (replayed : List LedgerRow)
  | unkept (a : Nat) (replayed : List LedgerRow)
  | live (lastId : Nat)

structure LedgerStream where
  pos : Nat
  phase : Phase

def LedgerStream.subscribe (ring : LedgerRing) (after : Option Nat) : LedgerStream :=
  ⟨ring.tx.subscribe, .subscribed after⟩

/-- The last id once the replayed rows are out. -/
def replayedId (lastId : Nat) (replayed : List LedgerRow) : Nat :=
  replayed.foldl (fun last r => max last r.id) lastId

/-- The notice on expired rows, if any are, and the replay. -/
def resume (firstKept a : Nat) (replayed : List LedgerRow) : List Item :=
  let expired := firstKept - a - 1
  (if 0 < expired then [.notice a (.expired expired)] else []) ++ replayed.map .row

def LedgerStream.advance (ring : LedgerRing) (stream : LedgerStream) : LedgerStream × List Item :=
  let pos := stream.pos
  match stream.phase with
  | .subscribed after => (⟨pos, .clamped (after.map fun a => min a ring.lastId)⟩, [])
  | .clamped none =>
    let replayed := ring.replay none
    (⟨pos, .live (replayedId 0 replayed)⟩, replayed.map .row)
  | .clamped (some a) => (⟨pos, .replaying a (ring.replay (some a))⟩, [])
  | .replaying a replayed => match ring.oldestId with
    | some firstKept => (⟨pos, .live (replayedId a replayed)⟩, resume firstKept a replayed)
    | none => (⟨pos, .unkept a replayed⟩, [])
  | .unkept a replayed =>
    let firstKept := min (ring.lastId + 1) (2^64 - 1)
    (⟨pos, .live (replayedId a replayed)⟩, resume firstKept a replayed)
  | .live lastId => match ring.tx.recv pos with
    | .pending => (stream, [])
    | .value row =>
      if row.id ≤ lastId then (⟨pos + 1, .live lastId⟩, [])
      else (⟨pos + 1, .live row.id⟩, [.row row])
    | .lagged dropped =>
      (⟨pos + dropped, .live lastId⟩, [.notice lastId (.dropped dropped)])

/-! One client, which reconnects with the id of the last event it received, and the daemon, which
may restart. -/

/-- A row, and the life of the daemon that recorded it. -/
structure Recorded where
  life : Nat
  row : LedgerRow
  deriving DecidableEq

/-- What the client sees: a connection opens, a row comes, or a notice. -/
inductive Seen where
  | opened
  | row (r : Recorded)
  | notice (id : Nat) (what : Notice)
  deriving DecidableEq

def Item.seen (life : Nat) : Item → Seen
  | .row r => .row ⟨life, r⟩
  | .notice id what => .notice id what

def Seen.id : Seen → Option Nat
  | .opened => none
  | .row r => some r.row.id
  | .notice id _ => some id

/-- The id of the last event received. -/
def lastEventId (seen : List Seen) : Option Nat := (seen.filterMap Seen.id).getLast?

/-- `past` has the rows of earlier lives and `rows` those of this one, as they were stored; `wire`
what the stream has yielded and the client has not received. -/
structure Sys where
  life : Nat
  past : List Recorded
  rows : List LedgerRow
  ring : LedgerRing
  projector : Projector
  stream : Option LedgerStream
  wire : List Item
  seen : List Seen

def Sys.log (s : Sys) : List Recorded := s.past ++ s.rows.map (Recorded.mk s.life)

inductive Act where
  | record (item : BusItem) (now : DateTime)
  | push
  | connect
  | advance
  | receive
  | disconnect
  | restart

/-- An event comes off the bus when the projector is back at its loop. -/
def Sys.record (s : Sys) (item : BusItem) (now : DateTime) : Sys :=
  match s.projector with
  | .idle =>
    let (projector, ring) := Projector.take s.ring item now
    { s with projector := projector, ring := ring }
  | _ => s

def Sys.push (s : Sys) : Sys :=
  let (projector, ring) := s.projector.push s.ring
  { s with
    projector := projector
    ring := ring
    rows := match s.projector with
      | .storing row => s.rows ++ [row]
      | _ => s.rows }

/-- A new connection takes the place of an older one. -/
def Sys.connect (s : Sys) : Sys :=
  { s with
    stream := some (.subscribe s.ring (lastEventId s.seen))
    wire := []
    seen := s.seen ++ [.opened] }

def Sys.advance (s : Sys) : Sys :=
  match s.stream with
  | none => s
  | some stream =>
    let (stream, items) := stream.advance s.ring
    { s with stream := some stream, wire := s.wire ++ items }

def Sys.receive (s : Sys) : Sys :=
  match s.wire with
  | [] => s
  | item :: wire => { s with wire := wire, seen := s.seen ++ [item.seen s.life] }

def Sys.disconnect (s : Sys) : Sys := { s with stream := none, wire := [] }

/-- The ring starts anew: rows on disk have no id. -/
def Sys.restart (s : Sys) : Sys :=
  { s with
    life := s.life + 1
    past := s.log
    rows := []
    ring := .new s.ring.capacity s.ring.tx.slots
    projector := .idle
    stream := none
    wire := [] }

def Sys.step (s : Sys) : Act → Sys
  | .record item now => s.record item now
  | .push => s.push
  | .connect => s.connect
  | .advance => s.advance
  | .receive => s.receive
  | .disconnect => s.disconnect
  | .restart => s.restart

def Sys.start (capacity slots : Nat) : Sys :=
  ⟨0, [], [], .new capacity slots, .idle, none, [], []⟩

end PulseNull.EventLedger
