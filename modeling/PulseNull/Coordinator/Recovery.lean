import PulseNull.Coordinator.Replay

/-! Recovery: after any run and a crash, the log opens as the table before the crash with its
renewals forgotten. -/
namespace PulseNull.Coordinator
open Text (newline)
open Time (DateTime Duration)
variable {chrono : Chrono} {inRange : Bytes → Bool}

/-! Runs. -/

/-- A running coordinator. `acked` are the events whose append succeeded, in this process or an
earlier one; `torn` is the append that failed for good, and how many of its bytes are left. -/
structure Node where
  durable : DurableLeaseTable
  acked : List LeaseEvent
  torn : Option (LeaseEvent × Nat)

/-- A call, or a crash and the restart after it. A crash inside an append is the append that is
`stuck` at that byte, then the restart. -/
inductive Op where
  | acquire (resourceId holderId : Bytes) (ttl : Duration) (now : DateTime) (outcome : AppendOutcome)
  | renew (resourceId holderId : Bytes) (ttl : Duration) (now : DateTime)
  | release (resourceId holderId : Bytes) (now : DateTime) (outcome : AppendOutcome)
  | restart

/-- The node after a call that staged `event`, if it did. -/
def Node.record (n : Node) (d : DurableLeaseTable) (event : Except LeaseError LeaseEvent)
    (outcome : AppendOutcome) : Node :=
  match event with
  | .error _ => { n with durable := d }
  | .ok event =>
    if n.durable.wal.poisoned then { n with durable := d }
    else match outcome with
      | .synced => { n with durable := d, acked := n.acked ++ [event] }
      | .rewound => { n with durable := d }
      | .stuck k => { n with durable := d, torn := some (event, k) }

/-- Whether `k` bytes are the whole line with its newline. -/
def reached (chrono : Chrono) (event : LeaseEvent) (k : Nat) : Bool :=
  (walLine chrono event).any fun line => line.length + 1 ≤ k

/-- The unacknowledged event, if its whole line is on the log. -/
def Node.landed (chrono : Chrono) (n : Node) : List LeaseEvent :=
  match n.torn with
  | some (event, k) => if reached chrono event k then [event] else []
  | none => []

/-- A restart fails when the log does not open. -/
def Node.step (chrono : Chrono) (inRange : Bytes → Bool) (n : Node) : Op → Option Node
  | .acquire r h ttl now outcome =>
    some (n.record (n.durable.acquire chrono r h ttl now outcome).1
      ((n.durable.stageAcquire r h ttl now).map fun staged => staged.2.2) outcome)
  | .renew r h ttl now => some { n with durable := (n.durable.renew r h ttl now).1 }
  | .release r h now outcome =>
    some (n.record (n.durable.release chrono r h now outcome).1
      ((n.durable.stageRelease r h now).map Prod.snd) outcome)
  | .restart =>
    match DurableLeaseTable.open chrono inRange n.durable.wal.file false with
    | .ok d => some ⟨d, n.acked ++ n.landed chrono, none⟩
    | .error _ => none

/-- The coordinator on an empty log. -/
def Node.fresh : Node := ⟨⟨.new, ⟨[], false⟩⟩, [], none⟩

def runNode (chrono : Chrono) (inRange : Bytes → Bool) (ops : List Op) : Option Node :=
  ops.foldlM (Node.step chrono inRange) .fresh

/-- `post` is `pre` as the log `events` knows it: the same watermarks, the same holders and
tokens, and each lease as it was last granted. -/
structure Recovers (events : List LeaseEvent) (pre post : LeaseTable) : Prop where
  watermark : ∀ r, post.watermark r = pre.watermark r
  held : ∀ r, (post.get r).map Lease.epoch = (pre.get r).map Lease.epoch
  grant : ∀ r l, post.get r = some l → lastGrant events r = some l

/-! The invariant. -/

/-- The same watermarks, and the same holders and tokens. -/
structure Same (pre post : LeaseTable) : Prop where
  watermark : ∀ r, post.watermark r = pre.watermark r
  held : ∀ r, (post.get r).map Lease.epoch = (pre.get r).map Lease.epoch

variable {t b t' : LeaseTable}

theorem Same.refl (t : LeaseTable) : Same t t := ⟨fun _ => rfl, fun _ => rfl⟩

theorem Same.grant (h : Same t b) (l : Lease) : Same (t.grant l) (b.grant l) := by
  refine ⟨fun r => ?_, fun r => ?_⟩
  · simp only [grant_watermark, h.watermark]
  · simp only [grant_get]
    split
    · rfl
    · exact h.held r

theorem Same.removeLease (h : Same t b) (r : Bytes) : Same (t.removeLease r) (b.removeLease r) := by
  refine ⟨h.watermark, fun r' => ?_⟩
  simp only [removeLease_get]
  split
  · rfl
  · exact h.held r'

/-- A renewal keeps the epoch. -/
theorem Same.renew (h : Same t b) {r hid : Bytes} {ttl : Duration} {now : DateTime} {l : Lease}
    (hr : t.renew r hid ttl now = .ok (t', l)) : Same t' b := by
  obtain ⟨l₀, hg, he, rfl⟩ := renew_eq_ok hr
  refine ⟨h.watermark, fun r' => ?_⟩
  have hh := h.held r'
  simp only [LeaseTable.get, Function.update_apply]
  split
  · next heq =>
    subst heq
    rw [show b.leases r' = b.get r' from rfl, hh, hg]
    simp [he]
  · exact hh

/-- What an append leaves of a line, cut at `k`. -/
def tornBytes (chrono : Chrono) : Option (LeaseEvent × Nat) → Bytes
  | none => []
  | some (event, k) => ((walLine chrono event).getD [] ++ [newline]).take k

/-- An event that may follow the log whose fold is `base`. -/
structure Appendable (base : LeaseTable) (e : LeaseEvent) : Prop where
  ids : e.IdsOk
  durable : e.isRenewed = false
  accepted : ∃ post, base.apply e = .ok post

/-- `base` is the fold of the acknowledged events, which the log holds; the table is the same
up to renewals. -/
structure Node.Inv (chrono : Chrono) (inRange : Bytes → Bool) (n : Node) (base : LeaseTable) :
    Prop where
  fold : LeaseTable.new.applyAll n.acked = .ok base
  durable : ∀ e ∈ n.acked, e.isRenewed = false
  file : ∃ whole, Logged chrono inRange whole n.acked ∧
    n.durable.wal.file = whole ++ tornBytes chrono n.torn
  same : Same n.durable.table base
  torn : ∀ e k, n.torn = some (e, k) → n.durable.wal.poisoned = true ∧ Appendable base e

variable {n : Node} {base : LeaseTable}

theorem Node.fresh_inv : Node.fresh.Inv chrono inRange .new :=
  ⟨rfl, by simp [Node.fresh], ⟨[], .nil, rfl⟩, .refl _, by simp [Node.fresh]⟩

/-- A lease of the table names a valid resource and a valid holder. -/
theorem Node.Inv.ids (h : n.Inv chrono inRange base) {r : Bytes} {l : Lease}
    (hg : n.durable.table.get r = some l) : l.resourceId = r ∧ IdOk r ∧ IdOk l.holderId := by
  have hh := h.same.held r
  rw [hg, Option.map_some, Option.map_eq_some_iff] at hh
  obtain ⟨l', hl', he⟩ := hh
  obtain ⟨_, hr, hok⟩ := applyAll_get h.fold h.durable hl'
  simp only [Lease.epoch, Prod.mk.injEq] at he
  refine ⟨he.1 ▸ hr, hr ▸ hok.resource, he.2.1 ▸ hok.holder⟩

theorem Node.Inv.renew (h : n.Inv chrono inRange base) (r hid : Bytes) (ttl : Duration)
    (now : DateTime) :
    Node.Inv chrono inRange { n with durable := (n.durable.renew r hid ttl now).1 } base := by
  unfold DurableLeaseTable.renew
  cases hr : n.durable.table.renew r hid ttl now with
  | error e => exact h
  | ok out => exact ⟨h.fold, h.durable, h.file, h.same.renew hr, h.torn⟩

/-- An append that is staged on the table: the event is folded in when it was acknowledged. -/
theorem Node.Inv.commit (h : n.Inv chrono inRange base) {staged post : LeaseTable} {e : LeaseEvent}
    (hids : e.IdsOk) (hdur : e.isRenewed = false) (hap : base.apply e = .ok post)
    (hsame : Same staged post) (outcome : AppendOutcome) :
    (Node.Inv chrono inRange
        (n.record (n.durable.commit chrono staged e outcome).1 (.ok e) outcome) base ∧
      ∃ err, (n.durable.commit chrono staged e outcome).2 = .error err) ∨
    (Node.Inv chrono inRange
        (n.record (n.durable.commit chrono staged e outcome).1 (.ok e) outcome) post ∧
      (n.durable.commit chrono staged e outcome).2 = .ok ()) := by
  obtain ⟨line, hw⟩ := written chrono inRange hids
  obtain ⟨whole, hlog, hfile⟩ := h.file
  cases hp : n.durable.wal.poisoned with
  | true =>
    left
    simpa [Node.record, hp, DurableLeaseTable.commit, LeaseWal.append] using h
  | false =>
    have htorn : n.torn = none := by
      cases ht : n.torn with
      | none => rfl
      | some x =>
        have := (h.torn x.1 x.2 ht).1
        simp [hp] at this
    rw [htorn] at hfile
    cases outcome with
    | rewound =>
      left
      simpa [Node.record, hp, DurableLeaseTable.commit, LeaseWal.append, hw.text] using h
    | synced =>
      right
      simp only [Node.record, hp, DurableLeaseTable.commit, LeaseWal.append, hw.text,
        Bool.false_eq_true, if_false, and_true]
      refine ⟨applyAll_snoc.mpr ⟨base, h.fold, hap⟩, ?_, ⟨_, hlog.snoc hw, ?_⟩, hsame, ?_⟩
      · intro x hx
        rcases List.mem_append.mp hx with hx | hx
        · exact h.durable x hx
        · rw [List.mem_singleton.mp hx, hdur]
      · simp [hfile, htorn, tornBytes]
      · simp [htorn]
    | stuck k =>
      left
      simp only [Node.record, hp, DurableLeaseTable.commit, LeaseWal.append, hw.text,
        Bool.false_eq_true, if_false]
      refine ⟨⟨h.fold, h.durable, ⟨whole, hlog, ?_⟩, h.same, ?_⟩, _, rfl⟩
      · simp [hfile, tornBytes, hw.text]
      · intro x j hx
        obtain ⟨rfl, rfl⟩ := Prod.mk.inj (Option.some.inj hx)
        exact ⟨rfl, hids, hdur, post, hap⟩

/-! Steps. -/

/-- No watermark goes back. -/
def Advances (b b' : LeaseTable) : Prop :=
  ∀ r, ∀ w ∈ b.watermark r, ∃ w' ∈ b'.watermark r, w ≤ w'

theorem Advances.refl (b : LeaseTable) : Advances b b := fun _ w hw => ⟨w, hw, le_rfl⟩

theorem Advances.apply {e : LeaseEvent} (h : b.apply e = .ok t') (hr : e.isRenewed = false) :
    Advances b t' := by
  intro r w hw
  rcases apply_cases h hr with ⟨l, _, _, hlt, rfl⟩ | ⟨r', _, rfl⟩
  · rw [grant_watermark]
    split
    · next heq =>
      subst heq
      exact ⟨_, rfl, (hlt w hw).le⟩
    · exact ⟨w, hw, le_rfl⟩
  · exact ⟨w, hw, le_rfl⟩

private theorem stageAcquire_eq_ok {d : DurableLeaseTable} {r hid : Bytes} {ttl : Duration}
    {now : DateTime} {staged : LeaseTable} {l : Lease} {e : LeaseEvent}
    (h : d.stageAcquire r hid ttl now = .ok (staged, l, e)) :
    d.table.acquire r hid ttl now = .ok (staged, l) ∧
      (e = .acquired now l ∨ e = .reclaimed now l) := by
  simp only [DurableLeaseTable.stageAcquire, bind_eq_ok, pure, Except.pure, Except.ok.injEq,
    Prod.mk.injEq] at h
  obtain ⟨⟨staged', l'⟩, ha, rfl, rfl, rfl⟩ := h
  refine ⟨ha, ?_⟩
  split
  · exact .inr rfl
  · exact .inl rfl

private theorem acquire_eq_commit {d : DurableLeaseTable} {r hid : Bytes} {ttl : Duration}
    {now : DateTime} {staged : LeaseTable} {l : Lease} {e : LeaseEvent} (outcome : AppendOutcome)
    (h : d.stageAcquire r hid ttl now = .ok (staged, l, e)) :
    d.acquire chrono r hid ttl now outcome = ((d.commit chrono staged e outcome).1,
      ((d.commit chrono staged e outcome).2.mapError .wal).map fun _ => l) := by
  simp only [DurableLeaseTable.acquire, h]
  cases d.commit chrono staged e outcome with
  | mk d' res => cases res <;> rfl

private theorem release_eq_commit {d : DurableLeaseTable} {r hid : Bytes} {now : DateTime}
    {staged : LeaseTable} {e : LeaseEvent} (outcome : AppendOutcome)
    (h : d.stageRelease r hid now = .ok (staged, e)) :
    (d.release chrono r hid now outcome).1 = (d.commit chrono staged e outcome).1 := by
  simp only [DurableLeaseTable.release, h]
  cases d.commit chrono staged e outcome with
  | mk d' res => cases res <;> rfl

/-- An acquire keeps the invariant, and what it grants is above every token before it. -/
theorem Node.Inv.acquire (h : n.Inv chrono inRange base) (r hid : Bytes) (ttl : Duration)
    (now : DateTime) (outcome : AppendOutcome) : ∃ base',
      Node.Inv chrono inRange (n.record (n.durable.acquire chrono r hid ttl now outcome).1
        ((n.durable.stageAcquire r hid ttl now).map fun staged => staged.2.2) outcome) base' ∧
      Advances base base' ∧ ∀ l, (n.durable.acquire chrono r hid ttl now outcome).2 = .ok l →
        (∀ w ∈ base.watermark r, w < l.fencingToken) ∧ base'.watermark r = some l.fencingToken := by
  cases hs : n.durable.stageAcquire r hid ttl now with
  | error e =>
    have he : n.durable.acquire chrono r hid ttl now outcome = (n.durable, .error (.lease e)) := by
      simp only [DurableLeaseTable.acquire, hs]
    rw [he]
    exact ⟨base, h, .refl base, fun l hl => by simp at hl⟩
  | ok out =>
    obtain ⟨staged, l, e⟩ := out
    obtain ⟨ha, he⟩ := stageAcquire_eq_ok hs
    obtain ⟨hok, rfl, rfl, rfl, hn, rfl⟩ := acquire_eq_ok ha
    have hids : e.IdsOk := by
      rcases he with rfl | rfl <;> exact ⟨hok.resource, hok.holder⟩
    have hdur : e.isRenewed = false := by
      rcases he with rfl | rfl <;> rfl
    have hlt : ∀ w ∈ base.watermark l.resourceId, w < l.fencingToken := by
      intro w hw
      rw [h.same.watermark] at hw
      have := nextToken_eq_ok.mp hn
      rw [hw, Option.map_some, Option.getD_some] at this
      rw [Fin.lt_def]
      omega
    have hap := apply_grant he hok (by simp [maxTtl]) hlt
    rw [acquire_eq_commit outcome hs]
    rcases h.commit hids hdur hap (h.same.grant l) outcome with ⟨hi, err, herr⟩ | ⟨hi, hres⟩
    · refine ⟨base, hi, .refl base, fun l' hl => ?_⟩
      rw [herr] at hl
      simp [Except.mapError, Except.map] at hl
    · refine ⟨_, hi, .apply hap hdur, fun l' hl => ?_⟩
      rw [hres] at hl
      obtain rfl := Except.ok.inj hl
      exact ⟨hlt, by simp⟩

theorem Node.Inv.release (h : n.Inv chrono inRange base) (r hid : Bytes) (now : DateTime)
    (outcome : AppendOutcome) : ∃ base',
      Node.Inv chrono inRange (n.record (n.durable.release chrono r hid now outcome).1
        ((n.durable.stageRelease r hid now).map Prod.snd) outcome) base' ∧ Advances base base' := by
  cases hs : n.durable.stageRelease r hid now with
  | error e =>
    have he : (n.durable.release chrono r hid now outcome).1 = n.durable := by
      simp only [DurableLeaseTable.release, hs]
    rw [he]
    exact ⟨base, h, .refl base⟩
  | ok out =>
    rw [release_eq_commit outcome hs]
    obtain ⟨staged, e⟩ := out
    simp only [DurableLeaseTable.stageRelease, bind_eq_ok, pure, Except.pure, Except.ok.injEq,
      Prod.mk.injEq] at hs
    obtain ⟨_, hs, rfl, rfl⟩ := hs
    obtain ⟨l, hg, rfl, rfl⟩ := release_eq_ok hs
    obtain ⟨_, hir, hih⟩ := h.ids hg
    obtain ⟨l', hg', he⟩ : ∃ l', base.get r = some l' ∧ l'.epoch = l.epoch := by
      have hh := h.same.held r
      rwa [hg, Option.map_some, Option.map_eq_some_iff] at hh
    have hap : base.apply (.released now r l'.holderId) = .ok (base.removeLease r) :=
      apply_released hg'
    rw [show l'.holderId = l.holderId from congrArg (fun x => x.2.1) he] at hap
    have hids : (LeaseEvent.released now r l.holderId).IdsOk := ⟨hir, hih⟩
    rcases h.commit hids rfl hap (h.same.removeLease r) outcome with ⟨hi, _⟩ | ⟨hi, _⟩
    · exact ⟨base, hi, .refl base⟩
    · exact ⟨_, hi, .apply hap rfl⟩

/-- The log of a node opens as the fold of the acknowledged events and of the torn one, if it
landed whole. -/
theorem Node.Inv.open (h : n.Inv chrono inRange base) : ∃ post file,
    base.applyAll (n.landed chrono) = .ok post ∧
      DurableLeaseTable.open chrono inRange n.durable.wal.file false = .ok ⟨post, ⟨file, false⟩⟩ ∧
      Node.Inv chrono inRange ⟨⟨post, ⟨file, false⟩⟩, n.acked ++ n.landed chrono, none⟩ post ∧
      Advances base post := by
  obtain ⟨whole, hlog, hfile⟩ := h.file
  have quiet (hl : n.landed chrono = []) (hn : newline ∉ tornBytes chrono n.torn) : ∃ post file,
      base.applyAll (n.landed chrono) = .ok post ∧
        DurableLeaseTable.open chrono inRange n.durable.wal.file false =
          .ok ⟨post, ⟨file, false⟩⟩ ∧
        Node.Inv chrono inRange ⟨⟨post, ⟨file, false⟩⟩, n.acked ++ n.landed chrono, none⟩ post ∧
        Advances base post := by
    refine ⟨base, whole, by rw [hl]; rfl, by rw [hfile]; exact hlog.open hn h.fold, ?_, .refl base⟩
    rw [hl, List.append_nil]
    exact ⟨h.fold, h.durable, ⟨whole, hlog, by simp [tornBytes]⟩, .refl base, by simp⟩
  cases ht : n.torn with
  | none =>
    exact quiet (by simp [Node.landed, ht]) (by simp [ht, tornBytes])
  | some torn =>
    obtain ⟨e, k⟩ := torn
    obtain ⟨hids, hdur, post, hap⟩ := (h.torn e k ht).2
    obtain ⟨line, hw⟩ := written chrono inRange hids
    have htb : tornBytes chrono n.torn = (line ++ [newline]).take k := by
      simp [ht, tornBytes, hw.text]
    have hreach : reached chrono e k = decide (line.length + 1 ≤ k) := by
      rw [reached, hw.text]
      rfl
    by_cases hk : line.length + 1 ≤ k
    · have hl : n.landed chrono = [e] := by
        simp only [Node.landed, ht, hreach, hk, decide_true, if_true]
      have hfold : LeaseTable.new.applyAll (n.acked ++ [e]) = .ok post :=
        applyAll_snoc.mpr ⟨base, h.fold, hap⟩
      have hlog' := hlog.snoc hw
      have hopen := hlog'.open (show newline ∉ ([] : Bytes) by simp) hfold
      refine ⟨post, whole ++ (line ++ [newline]), ?_, ?_, ?_, .apply hap hdur⟩
      · have hone : base.applyAll ([] ++ [e]) = .ok post := applyAll_snoc.mpr ⟨base, rfl, hap⟩
        rwa [hl]
      · rw [hfile, htb, List.take_of_length_le (by simpa using hk)]
        simpa using hopen
      · rw [hl]
        refine ⟨hfold, ?_, ⟨_, hlog', by simp [tornBytes]⟩, .refl post, by simp⟩
        intro x hx
        rcases List.mem_append.mp hx with hx | hx
        · exact h.durable x hx
        · rw [List.mem_singleton.mp hx, hdur]
    · refine quiet (by simp only [Node.landed, ht, hreach, hk, decide_false, Bool.false_eq_true,
        if_false]) ?_
      rw [htb, List.take_append_of_le_length (by omega)]
      exact fun hm => hw.noNewline (List.mem_of_mem_take hm)

/-- Every step keeps the invariant; a restart opens the log. -/
theorem Node.Inv.step (h : n.Inv chrono inRange base) (op : Op) : ∃ n' base',
    n.step chrono inRange op = some n' ∧ n'.Inv chrono inRange base' ∧ Advances base base' := by
  cases op with
  | acquire r hid ttl now outcome =>
    obtain ⟨base', hi, ha, _⟩ := h.acquire r hid ttl now outcome
    exact ⟨_, base', rfl, hi, ha⟩
  | renew r hid ttl now => exact ⟨_, base, rfl, h.renew r hid ttl now, .refl base⟩
  | release r hid now outcome =>
    obtain ⟨base', hi, ha⟩ := h.release r hid now outcome
    exact ⟨_, base', rfl, hi, ha⟩
  | restart =>
    obtain ⟨post, file, _, ho, hi, ha⟩ := h.open
    exact ⟨_, post, by simp only [Node.step, ho], hi, ha⟩

theorem Node.Inv.run (h : n.Inv chrono inRange base) (ops : List Op) : ∃ n' base',
    ops.foldlM (Node.step chrono inRange) n = some n' ∧ n'.Inv chrono inRange base' := by
  induction ops generalizing n base with
  | nil => exact ⟨n, base, rfl, h⟩
  | cons op ops ih =>
    obtain ⟨n₁, base₁, hs, hi, _⟩ := h.step op
    obtain ⟨n', base', hr, hi'⟩ := ih hi
    exact ⟨n', base', by rw [List.foldlM_cons, hs]; exact hr, hi'⟩

/-- After any run of calls, failed appends and restarts, a crash leaves a log that opens: as the
table before the crash with its renewals forgotten, and the unacknowledged event folded in
exactly when its whole line is there. -/
theorem recovery_exact (chrono : Chrono) (inRange : Bytes → Bool) (ops : List Op) :
    ∃ n base post wal whole, runNode chrono inRange ops = some n ∧
      n.durable.wal.file = whole ++ tornBytes chrono n.torn ∧
      Logged chrono inRange whole n.acked ∧
      Recovers n.acked n.durable.table base ∧ base.applyAll (n.landed chrono) = .ok post ∧
      DurableLeaseTable.open chrono inRange n.durable.wal.file false = .ok ⟨post, wal⟩ := by
  have h₀ : Node.fresh.Inv chrono inRange .new := Node.fresh_inv
  obtain ⟨n, base, hr, hi⟩ := h₀.run ops
  obtain ⟨whole, hlog, hfile⟩ := hi.file
  obtain ⟨post, file, hpost, hopen, _⟩ := hi.open
  exact ⟨n, base, post, _, whole, hr, hfile, hlog,
    ⟨hi.same.watermark, hi.same.held, fun r l hg => (applyAll_get hi.fold hi.durable hg).1⟩,
    hpost, hopen⟩

/-- Instants as counts from the first one. -/
def Chrono.counted : Chrono where
  fmt t := Text.decimal (t.nanos - Time.minUtc).toNat
  parse text :=
    let nanos := Time.minUtc + Text.digitsValue text
    if h : Time.minUtc ≤ nanos ∧ nanos ≤ Time.maxUtc then some ⟨nanos, h.1, h.2⟩ else none
  parse_fmt t := by
    have hl := t.lower
    have hu := t.upper
    have he : Time.minUtc + ((t.nanos - Time.minUtc).toNat : Int) = t.nanos := by omega
    simp only [Text.digitsValue_decimal, he]
    exact dif_pos ⟨hl, hu⟩
  fmt_ascii t c hc := Text.isDigit_lt (Text.decimal_digits _ c hc)
  fmt_short t := by
    have hu := t.upper
    have hr : Time.maxUtc - Time.minUtc < 10^23 := by decide
    refine (Text.decimal_length_le (k := 23) (by decide) ?_).trans (by decide)
    omega

/-- A grant on the log survives a crash inside the next append, which leaves nothing. -/
example : ((runNode .counted (fun _ => true)
    [.acquire [119] [97] ⟨30, 0⟩ ⟨0, by decide, by decide⟩ .synced,
     .acquire [120] [97] ⟨30, 0⟩ ⟨0, by decide, by decide⟩ (.stuck 9), .restart]).map fun n =>
      ((n.durable.get [119]).map Lease.fencingToken, n.durable.get [120])) = some (some 1, none) := by
  decide +kernel

end PulseNull.Coordinator
