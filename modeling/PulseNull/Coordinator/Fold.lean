import PulseNull.Coordinator.WalText

/-! What each operation and each logged event does to the table. -/
namespace PulseNull.Coordinator
open Time (DateTime Duration)

/-! The table's operations. -/

/-- Who holds the resource, and under which token. -/
def Lease.epoch (l : Lease) : Bytes × Bytes × FencingToken :=
  (l.resourceId, l.holderId, l.fencingToken)

@[simp] theorem grant_get (t : LeaseTable) (l : Lease) (r : Bytes) :
    (t.grant l).get r = if r = l.resourceId then some l else t.get r := by
  simp [LeaseTable.grant, LeaseTable.insertLease, LeaseTable.get, Function.update_apply]

@[simp] theorem grant_watermark (t : LeaseTable) (l : Lease) (r : Bytes) :
    (t.grant l).watermark r = if r = l.resourceId then some l.fencingToken else t.watermark r := by
  simp [LeaseTable.grant, LeaseTable.watermark, Function.update_apply]

@[simp] theorem removeLease_get (t : LeaseTable) (r' r : Bytes) :
    (t.removeLease r').get r = if r = r' then none else t.get r := by
  simp [LeaseTable.removeLease, LeaseTable.get, Function.update_apply]

@[simp] theorem removeLease_watermark (t : LeaseTable) (r' r : Bytes) :
    (t.removeLease r').watermark r = t.watermark r := rfl

/-- A lease the table may grant. -/
structure LeaseOk (l : Lease) : Prop where
  resource : IdOk l.resourceId
  holder : IdOk l.holderId
  ttl : 0 < l.ttl.nanos ∧ l.ttl.nanos ≤ maxTtl.nanos

theorem validateTtl_eq_ok {r : Bytes} {ttl : Duration} {u : Unit} :
    validateTtl r ttl = .ok u ↔ 0 < ttl.nanos ∧ ttl.nanos ≤ maxTtl.nanos := ensure_eq_ok

theorem nextToken_eq_ok {t : LeaseTable} {r : Bytes} {token : FencingToken} :
    t.nextToken r = .ok token ↔
      token.val = ((t.watermark r).map fun w => w.val + 1).getD 1 := by
  unfold LeaseTable.nextToken
  cases t.watermark r with
  | none => simp [Fin.ext_iff, eq_comm]
  | some w =>
    cases hw : w.checkedAdd 1 with
    | none =>
      have := U64.checkedAdd_eq_none.mp hw
      have := token.isLt
      simp only [hw, Option.elim_none, reduceCtorEq, Option.map_some, Option.getD_some, false_iff]
      omega
    | some m =>
      have := U64.checkedAdd_eq_some.mp hw
      simp only [hw, Option.elim_some, Except.ok.injEq, Fin.ext_iff, Option.map_some,
        Option.getD_some]
      omega

theorem heldBy_eq_ok {t : LeaseTable} {r h : Bytes} {l : Lease} :
    t.heldBy r h = .ok l ↔ t.get r = some l ∧ l.holderId = h := by
  unfold LeaseTable.heldBy
  cases t.get r with
  | none => simp
  | some l' =>
    simp only [bind_eq_ok, ensure_eq_ok, pure, Except.pure, Except.ok.injEq, Option.some.injEq]
    constructor
    · rintro ⟨_, hh, rfl⟩
      exact ⟨rfl, hh⟩
    · rintro ⟨rfl, hh⟩
      exact ⟨(), hh, rfl⟩

/-- An acquire grants a valid lease with the token after the watermark. -/
theorem acquire_eq_ok {t t' : LeaseTable} {r h : Bytes} {ttl : Duration} {now : DateTime} {l : Lease}
    (ha : t.acquire r h ttl now = .ok (t', l)) :
    LeaseOk l ∧ l.resourceId = r ∧ l.holderId = h ∧ l.grantedAt = now ∧
      t.nextToken r = .ok l.fencingToken ∧ t' = t.grant l := by
  simp only [LeaseTable.acquire, bind_eq_ok, validateId_eq_ok, validateTtl_eq_ok, pure, Except.pure,
    Except.ok.injEq, Prod.mk.injEq] at ha
  obtain ⟨_, hr, _, hh, _, ht, _, _, token, hn, rfl, rfl⟩ := ha
  exact ⟨⟨hr, hh, ht⟩, rfl, rfl, rfl, hn, rfl⟩

theorem renew_eq_ok {t t' : LeaseTable} {r h : Bytes} {ttl : Duration} {now : DateTime} {l : Lease}
    (hr : t.renew r h ttl now = .ok (t', l)) : ∃ l₀, t.get r = some l₀ ∧ l.epoch = l₀.epoch ∧
      t' = { t with leases := Function.update t.leases r (some l) } := by
  simp only [LeaseTable.renew, bind_eq_ok, heldBy_eq_ok, pure, Except.pure, Except.ok.injEq,
    Prod.mk.injEq] at hr
  obtain ⟨_, _, _, _, _, _, l₀, ⟨hg, _⟩, _, _, rfl, rfl⟩ := hr
  exact ⟨l₀, hg, rfl, rfl⟩

theorem release_eq_ok {t t' : LeaseTable} {r h : Bytes} (hr : t.release r h = .ok t') :
    ∃ l, t.get r = some l ∧ l.holderId = h ∧ t' = t.removeLease r := by
  simp only [LeaseTable.release, bind_eq_ok, heldBy_eq_ok, pure, Except.pure, Except.ok.injEq] at hr
  obtain ⟨l, ⟨hg, hh⟩, rfl⟩ := hr
  exact ⟨l, hg, hh, rfl⟩

/-! The fold's steps. -/

def LeaseEvent.granted : LeaseEvent → Option Lease
  | .acquired _ l | .reclaimed _ l => some l
  | .renewed .. | .released .. => none

def LeaseEvent.isRenewed : LeaseEvent → Bool
  | .renewed .. => true
  | _ => false

private theorem validateEventLease_eq_ok {l : Lease} {ts : DateTime} {u : Unit} :
    validateEventLease l ts = .ok u ↔
      LeaseOk l ∧ (l.grantedAt.nanos - ts.nanos).natAbs ≤ maxTtl.nanos := by
  simp only [validateEventLease, bind_eq_ok, mapError_eq_ok, validateId_eq_ok, validateTtl_eq_ok,
    ensure_eq_ok, exists_const]
  constructor
  · rintro ⟨hr, hh, ht, hs⟩
    exact ⟨⟨hr, hh, ht⟩, hs⟩
  · rintro ⟨h, hs⟩
    exact ⟨h.resource, h.holder, h.ttl, hs⟩

private theorem checkAdvances_eq_ok {t : LeaseTable} {l : Lease} {u : Unit} :
    t.checkAdvances l = .ok u ↔ ∀ w ∈ t.watermark l.resourceId, w < l.fencingToken := by
  unfold LeaseTable.checkAdvances
  cases t.watermark l.resourceId with
  | none => simp
  | some w => simp [ensure_eq_ok]

/-- A grant with a higher token is taken from the log. -/
theorem apply_grant {t : LeaseTable} {e : LeaseEvent} {ts : DateTime} {l : Lease}
    (he : e = .acquired ts l ∨ e = .reclaimed ts l) (hl : LeaseOk l)
    (hs : (l.grantedAt.nanos - ts.nanos).natAbs ≤ maxTtl.nanos)
    (hw : ∀ w ∈ t.watermark l.resourceId, w < l.fencingToken) : t.apply e = .ok (t.grant l) := by
  have h1 : validateEventLease l ts = .ok () := validateEventLease_eq_ok.mpr ⟨hl, hs⟩
  have h2 : t.checkAdvances l = .ok () := checkAdvances_eq_ok.mpr hw
  rcases he with rfl | rfl <;>
    simp [LeaseTable.apply, h1, h2, bind, Except.bind, pure, Except.pure]

theorem apply_released {t : LeaseTable} {ts : DateTime} {r : Bytes} {l : Lease}
    (hg : t.get r = some l) : t.apply (.released ts r l.holderId) = .ok (t.removeLease r) := by
  simp [LeaseTable.apply, hg, ensure, bind, Except.bind, pure, Except.pure]

/-- What an event other than a renewal does to the table. -/
theorem apply_cases {t t' : LeaseTable} {e : LeaseEvent} (h : t.apply e = .ok t')
    (hr : e.isRenewed = false) :
    (∃ l, e.granted = some l ∧ LeaseOk l ∧ (∀ w ∈ t.watermark l.resourceId, w < l.fencingToken) ∧
      t' = t.grant l) ∨
    ∃ r, e.granted = none ∧ t' = t.removeLease r := by
  cases e with
  | acquired ts l | reclaimed ts l =>
    simp only [LeaseTable.apply, bind_eq_ok, validateEventLease_eq_ok, checkAdvances_eq_ok, pure,
      Except.pure, Except.ok.injEq] at h
    obtain ⟨_, ⟨hl, _⟩, _, hw, rfl⟩ := h
    exact .inl ⟨l, rfl, hl, hw, rfl⟩
  | renewed => simp [LeaseEvent.isRenewed] at hr
  | released ts r hid =>
    simp only [LeaseTable.apply] at h
    split at h
    · simp at h
    · simp only [bind_eq_ok, pure, Except.pure, Except.ok.injEq] at h
      obtain ⟨_, _, rfl⟩ := h
      exact .inr ⟨r, rfl, rfl⟩

/-! The fold. -/

def LeaseTable.applyAll (t : LeaseTable) (events : List LeaseEvent) : Except ApplyError LeaseTable :=
  events.foldlM LeaseTable.apply t

theorem applyAll_snoc {t t' : LeaseTable} {events : List LeaseEvent} {e : LeaseEvent} :
    t.applyAll (events ++ [e]) = .ok t' ↔
      ∃ b, t.applyAll events = .ok b ∧ b.apply e = .ok t' := by
  simp only [LeaseTable.applyAll, List.foldlM_append, List.foldlM_cons, List.foldlM_nil, bind_eq_ok,
    pure, Except.pure, Except.ok.injEq, exists_eq_right]

/-- The last lease the log granted on a resource. -/
def lastGrant (events : List LeaseEvent) (resourceId : Bytes) : Option Lease :=
  (events.filterMap LeaseEvent.granted).reverse.find? fun l => l.resourceId = resourceId

theorem lastGrant_snoc (events : List LeaseEvent) (e : LeaseEvent) (r : Bytes) :
    lastGrant (events ++ [e]) r =
      match e.granted with
      | some l => if l.resourceId = r then some l else lastGrant events r
      | none => lastGrant events r := by
  unfold lastGrant
  cases h : e.granted with
  | none => simp [List.filterMap_append, h]
  | some l => simp [List.filterMap_append, h, List.find?_cons]; split <;> simp_all

/-- A lease of a replayed table is the last one its log granted, and valid. -/
theorem applyAll_get {events : List LeaseEvent} {t : LeaseTable}
    (h : LeaseTable.new.applyAll events = .ok t) (hr : ∀ e ∈ events, e.isRenewed = false)
    {r : Bytes} {l : Lease} (hg : t.get r = some l) :
    lastGrant events r = some l ∧ l.resourceId = r ∧ LeaseOk l := by
  induction events using List.reverseRecOn generalizing t with
  | nil =>
    simp only [LeaseTable.applyAll, List.foldlM_nil, pure, Except.pure, Except.ok.injEq] at h
    rw [← h] at hg
    simp [LeaseTable.new, LeaseTable.get] at hg
  | append_singleton events e ih =>
    obtain ⟨b, hb, he⟩ := applyAll_snoc.mp h
    have hold := ih hb fun x hx => hr x (List.mem_append_left _ hx)
    rw [lastGrant_snoc]
    rcases apply_cases he (hr e (by simp)) with ⟨l', hl', hok, _, rfl⟩ | ⟨r', hn, rfl⟩
    · simp only [hl']
      rw [grant_get] at hg
      split at hg
      · next hreq =>
        obtain rfl := Option.some.inj hg
        exact ⟨if_pos hreq.symm, hreq.symm, hok⟩
      · next hne =>
        obtain ⟨h1, h2⟩ := hold hg
        exact ⟨by rw [if_neg (fun he => hne he.symm), h1], h2⟩
    · simp only [hn]
      rw [removeLease_get] at hg
      split at hg
      · simp at hg
      · exact hold hg

end PulseNull.Coordinator
