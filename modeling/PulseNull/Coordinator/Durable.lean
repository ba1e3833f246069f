import PulseNull.Coordinator.Wal

/-! A lease table whose mutations are on the log before they are visible. -/
namespace PulseNull.Coordinator
open Time (DateTime Duration)

inductive DurableError where
  | lease (e : LeaseError)
  | wal (e : WalError)
  deriving DecidableEq

structure DurableLeaseTable where
  table : LeaseTable
  wal : LeaseWal

variable (chrono : Chrono)

def DurableLeaseTable.open (inRange : Bytes → Bool) (file : Bytes) (lockHeld : Bool) :
    Except ReplayError DurableLeaseTable := do
  let wal ← LeaseWal.new file lockHeld
  let table ← wal.replay chrono inRange
  return ⟨table, wal⟩

def DurableLeaseTable.get (d : DurableLeaseTable) (resourceId : Bytes) : Option Lease :=
  d.table.get resourceId

/-- The table, the lease and the event of an acquire that is not on the log yet. -/
def DurableLeaseTable.stageAcquire (d : DurableLeaseTable) (resourceId holderId : Bytes)
    (ttl : Duration) (now : DateTime) : Except LeaseError (LeaseTable × Lease × LeaseEvent) := do
  let reclaim := (d.get resourceId).any fun l => l.isExpired now
  let (staged, lease) ← d.table.acquire resourceId holderId ttl now
  return (staged, lease, if reclaim then .reclaimed now lease else .acquired now lease)

def DurableLeaseTable.stageRelease (d : DurableLeaseTable) (resourceId holderId : Bytes)
    (now : DateTime) : Except LeaseError (LeaseTable × LeaseEvent) := do
  let staged ← d.table.release resourceId holderId
  return (staged, .released now resourceId holderId)

/-- The staged table is installed when the event is on the log. -/
def DurableLeaseTable.commit (d : DurableLeaseTable) (staged : LeaseTable) (event : LeaseEvent)
    (outcome : AppendOutcome) : DurableLeaseTable × Except WalError Unit :=
  match d.wal.append chrono event outcome with
  | (wal, .ok ()) => (⟨staged, wal⟩, .ok ())
  | (wal, .error e) => ({ d with wal := wal }, .error e)

def DurableLeaseTable.acquire (d : DurableLeaseTable) (resourceId holderId : Bytes) (ttl : Duration)
    (now : DateTime) (outcome : AppendOutcome) : DurableLeaseTable × Except DurableError Lease :=
  match d.stageAcquire resourceId holderId ttl now with
  | .error e => (d, .error (.lease e))
  | .ok (staged, lease, event) =>
    match d.commit chrono staged event outcome with
    | (d, .error e) => (d, .error (.wal e))
    | (d, .ok ()) => (d, .ok lease)

/-- Not on the log: a renewal mints no token. -/
def DurableLeaseTable.renew (d : DurableLeaseTable) (resourceId holderId : Bytes) (ttl : Duration)
    (now : DateTime) : DurableLeaseTable × Except DurableError Lease :=
  match d.table.renew resourceId holderId ttl now with
  | .error e => (d, .error (.lease e))
  | .ok (table, lease) => ({ d with table := table }, .ok lease)

def DurableLeaseTable.release (d : DurableLeaseTable) (resourceId holderId : Bytes)
    (now : DateTime) (outcome : AppendOutcome) : DurableLeaseTable × Except DurableError Unit :=
  match d.stageRelease resourceId holderId now with
  | .error e => (d, .error (.lease e))
  | .ok (staged, event) =>
    match d.commit chrono staged event outcome with
    | (d, .error e) => (d, .error (.wal e))
    | (d, .ok ()) => (d, .ok ())

end PulseNull.Coordinator
