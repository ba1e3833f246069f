import PulseNull.Json.Decode
import PulseNull.Time

/-! Leases with a ttl and a fencing token per resource: the table in memory and the fold of
logged events over it. -/
namespace PulseNull.Coordinator
open Time (DateTime Duration)

abbrev FencingToken := U64

def maxTtl : Duration := ⟨86400, 0⟩

def maxIdBytes : Nat := 128

/-- `A-Z`, `a-z`, `0-9`, `.`, `_` and `-`. -/
def isIdByte (c : UInt8) : Bool :=
  Text.isDigit c || (65 ≤ c && c ≤ 90) || (97 ≤ c && c ≤ 122) || c = 46 || c = 95 || c = 45

/-- A granted lease. A renewal resets `grantedAt` and `ttl`. -/
structure Lease where
  resourceId : Bytes
  holderId : Bytes
  fencingToken : FencingToken
  grantedAt : DateTime
  ttl : Duration
  deriving DecidableEq

/-- The grant time plus the ttl, or the far future where that is out of range. -/
def Lease.expiresAt (l : Lease) : DateTime :=
  (l.ttl.toDelta.bind l.grantedAt.checkedAdd).getD .last

def Lease.isExpired (l : Lease) (now : DateTime) : Bool := l.expiresAt.nanos ≤ now.nanos

inductive IdKind where
  | resource | holder
  deriving DecidableEq

inductive LeaseError where
  | held (resourceId holderId : Bytes) (expiresAt : DateTime)
  | notHeld (resourceId : Bytes)
  | notHolder (resourceId holderId actualHolder : Bytes)
  | expired (resourceId holderId : Bytes) (expiredAt : DateTime)
  | tokenOverflow (resourceId : Bytes)
  | invalidTtl (resourceId : Bytes) (ttl : Duration)
  | invalidId (kind : IdKind) (id : Bytes)
  deriving DecidableEq

def validateId (kind : IdKind) (id : Bytes) : Except LeaseError Unit :=
  ensure (id ≠ [] ∧ id.length ≤ maxIdBytes ∧ id.all isIdByte = true) (.invalidId kind id)

def validateTtl (resourceId : Bytes) (ttl : Duration) : Except LeaseError Unit :=
  ensure (0 < ttl.nanos ∧ ttl.nanos ≤ maxTtl.nanos) (.invalidTtl resourceId ttl)

/-- A state change worth surviving a restart. `ts` is the time of the append. -/
inductive LeaseEvent where
  | acquired (ts : DateTime) (lease : Lease)
  | reclaimed (ts : DateTime) (lease : Lease)
  | renewed (ts : DateTime) (lease : Lease)
  | released (ts : DateTime) (resourceId holderId : Bytes)
  deriving DecidableEq

inductive LeaseOp where
  | renew | release
  deriving DecidableEq

/-- Why a logged event is refused. -/
inductive ApplyError where
  | tokenRegression (resourceId : Bytes) (token watermark : FencingToken)
  | holderMismatch (op : LeaseOp) (resourceId eventHolder tableHolder : Bytes)
  | noLease (op : LeaseOp) (resourceId : Bytes)
  | renewMintedToken (resourceId : Bytes) (token current : FencingToken)
  | renewedExpired (resourceId : Bytes) (expiredAt ts : DateTime)
  | implausibleGrantTime (resourceId : Bytes) (grantedAt ts : DateTime)
  | invalidLease (e : LeaseError)
  deriving DecidableEq

/-- At most one lease per resource, and the highest token ever issued for it. A release leaves
the watermark. -/
structure LeaseTable where
  leases : Bytes → Option Lease
  watermarks : Bytes → Option FencingToken

def LeaseTable.new : LeaseTable := ⟨fun _ => none, fun _ => none⟩

def LeaseTable.get (t : LeaseTable) (resourceId : Bytes) : Option Lease := t.leases resourceId

def LeaseTable.watermark (t : LeaseTable) (resourceId : Bytes) : Option FencingToken :=
  t.watermarks resourceId

def LeaseTable.insertLease (t : LeaseTable) (l : Lease) : LeaseTable :=
  { t with leases := Function.update t.leases l.resourceId (some l) }

/-- The lease and its token. -/
def LeaseTable.grant (t : LeaseTable) (l : Lease) : LeaseTable :=
  { t.insertLease l with watermarks := Function.update t.watermarks l.resourceId (some l.fencingToken) }

def LeaseTable.removeLease (t : LeaseTable) (resourceId : Bytes) : LeaseTable :=
  { t with leases := Function.update t.leases resourceId none }

def LeaseTable.nextToken (t : LeaseTable) (resourceId : Bytes) : Except LeaseError FencingToken :=
  match t.watermark resourceId with
  | none => .ok 1
  | some n => (n.checkedAdd 1).elim (.error (.tokenOverflow resourceId)) .ok

/-- A lease that is not expired keeps everyone out, its own holder too. -/
def LeaseTable.checkFree (t : LeaseTable) (resourceId : Bytes) (now : DateTime) :
    Except LeaseError Unit :=
  match t.get resourceId with
  | some existing =>
    ensure (existing.isExpired now = true) (.held resourceId existing.holderId existing.expiresAt)
  | none => .ok ()

def LeaseTable.acquire (t : LeaseTable) (resourceId holderId : Bytes) (ttl : Duration)
    (now : DateTime) : Except LeaseError (LeaseTable × Lease) := do
  validateId .resource resourceId
  validateId .holder holderId
  validateTtl resourceId ttl
  t.checkFree resourceId now
  let token ← t.nextToken resourceId
  let lease : Lease := ⟨resourceId, holderId, token, now, ttl⟩
  return (t.grant lease, lease)

/-- The lease of a resource that `holderId` holds. -/
def LeaseTable.heldBy (t : LeaseTable) (resourceId holderId : Bytes) : Except LeaseError Lease := do
  match t.get resourceId with
  | none => .error (.notHeld resourceId)
  | some lease =>
    ensure (lease.holderId = holderId) (.notHolder resourceId holderId lease.holderId)
    return lease

def LeaseTable.renew (t : LeaseTable) (resourceId holderId : Bytes) (ttl : Duration)
    (now : DateTime) : Except LeaseError (LeaseTable × Lease) := do
  validateId .resource resourceId
  validateId .holder holderId
  validateTtl resourceId ttl
  let lease ← t.heldBy resourceId holderId
  ensure (lease.isExpired now = false) (.expired resourceId holderId lease.expiresAt)
  let lease := { lease with grantedAt := now, ttl := ttl }
  return ({ t with leases := Function.update t.leases resourceId (some lease) }, lease)

def LeaseTable.release (t : LeaseTable) (resourceId holderId : Bytes) :
    Except LeaseError LeaseTable := do
  let _ ← t.heldBy resourceId holderId
  return t.removeLease resourceId

/-! The fold. -/

/-- Ids and ttl as online, and a grant time no further than the longest ttl from the append. -/
def validateEventLease (lease : Lease) (ts : DateTime) : Except ApplyError Unit := do
  (validateId .resource lease.resourceId).mapError .invalidLease
  (validateId .holder lease.holderId).mapError .invalidLease
  (validateTtl lease.resourceId lease.ttl).mapError .invalidLease
  ensure ((lease.grantedAt.nanos - ts.nanos).natAbs ≤ maxTtl.nanos)
    (.implausibleGrantTime lease.resourceId lease.grantedAt ts)

def LeaseTable.checkAdvances (t : LeaseTable) (lease : Lease) : Except ApplyError Unit :=
  match t.watermark lease.resourceId with
  | none => .ok ()
  | some watermark =>
    ensure (watermark < lease.fencingToken)
      (.tokenRegression lease.resourceId lease.fencingToken watermark)

/-- One logged event. An acquire over a lease that is not expired is accepted: its token is
higher. -/
def LeaseTable.apply (t : LeaseTable) : LeaseEvent → Except ApplyError LeaseTable
  | .acquired ts lease | .reclaimed ts lease => do
    validateEventLease lease ts
    t.checkAdvances lease
    return t.grant lease
  | .renewed ts lease => do
    validateEventLease lease ts
    match t.get lease.resourceId with
    | none => .error (.noLease .renew lease.resourceId)
    | some current =>
      ensure (current.isExpired ts = false)
        (.renewedExpired lease.resourceId current.expiresAt ts)
      ensure (current.holderId = lease.holderId)
        (.holderMismatch .renew lease.resourceId lease.holderId current.holderId)
      ensure (current.fencingToken = lease.fencingToken)
        (.renewMintedToken lease.resourceId lease.fencingToken current.fencingToken)
      return t.insertLease lease
  | .released _ resourceId holderId => do
    match t.get resourceId with
    | none => .error (.noLease .release resourceId)
    | some current =>
      ensure (current.holderId = holderId)
        (.holderMismatch .release resourceId holderId current.holderId)
      return t.removeLease resourceId

end PulseNull.Coordinator
