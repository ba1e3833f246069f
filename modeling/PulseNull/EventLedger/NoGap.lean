import PulseNull.Machine
import PulseNull.EventLedger.Stream

/-! No silent gap: the rows one client receives have increasing ids, and what lies between two of
them has been announced, row for row. -/
namespace PulseNull.EventLedger

/-- The last row a client has seen, and how many rows its connection has announced as missing
since. -/
structure View where
  last : Option Recorded
  announced : Nat

def View.see (v : View) : Seen → View
  | .opened => { v with announced := 0 }
  | .row r => ⟨some r, 0⟩
  | .notice _ what => { v with announced := v.announced + what.rows }

def view (seen : List Seen) : View := seen.foldl View.see ⟨none, 0⟩

/-- The id of the last row, or zero. -/
def View.lastId (v : View) : Nat := (v.last.map (·.row.id)).getD 0

def Seen.recorded : Seen → Option Recorded
  | .row r => some r
  | _ => none

def delivered (seen : List Seen) : List Recorded := seen.filterMap Seen.recorded

structure NoSilentGap (log : List Recorded) (seen : List Seen) : Prop where
  increasing : (delivered seen).Pairwise fun x y => x.row.id < y.row.id
  announced : ∀ pre y post, seen = pre ++ .row y :: post → ∀ x ∈ (view pre).last,
    ∃ before between after, log = before ++ x :: between ++ y :: after ∧
      (view pre).announced = between.length

/-- When the gap before a replay is counted, the ring has not dropped what the replay holds, or what
came after it; and when the stream lags, what it missed was not in the replay. -/
def LedgerStream.Meets (ring : LedgerRing) (stream : LedgerStream) : Prop :=
  match stream.phase with
  | .replaying a replayed => 0 < a → ∀ firstKept ∈ ring.oldestId,
    firstKept ≤ (replayed.head?.map (·.id)).getD (a + 1)
  | .live lastId => ∀ row ∈ ring.tx.missed stream.pos, lastId < row.id
  | _ => True

/-- What keeps the stream without a silent gap: ids do not run out, the client connects with a row
only to the life of the daemon that recorded it, and each step of the stream meets its condition. -/
def Sys.Meets (s : Sys) : Act → Prop
  | .record _ _ => s.ring.nextId + 1 < 2^64
  | .connect => ∀ x ∈ delivered s.seen, x.life = s.life
  | .advance => ∀ stream ∈ s.stream, stream.Meets s.ring
  | _ => True

instance (ring : LedgerRing) : (stream : LedgerStream) → Decidable (stream.Meets ring)
  | ⟨_, .replaying a replayed⟩ => inferInstanceAs (Decidable (0 < a → ∀ firstKept ∈ ring.oldestId,
      firstKept ≤ (replayed.head?.map (·.id)).getD (a + 1)))
  | ⟨pos, .live lastId⟩ =>
    inferInstanceAs (Decidable (∀ row ∈ ring.tx.missed pos, lastId < row.id))
  | ⟨_, .subscribed _⟩ | ⟨_, .clamped _⟩ | ⟨_, .unkept _ _⟩ => isTrue trivial

instance (s : Sys) : (act : Act) → Decidable (s.Meets act)
  | .record _ _ => inferInstanceAs (Decidable (s.ring.nextId + 1 < 2^64))
  | .connect => inferInstanceAs (Decidable (∀ x ∈ delivered s.seen, x.life = s.life))
  | .advance => inferInstanceAs (Decidable (∀ stream ∈ s.stream, stream.Meets s.ring))
  | .push | .receive | .disconnect | .restart => isTrue trivial

def daemon (capacity slots : Nat) : Machine Sys Act := ⟨.start capacity slots, .step⟩

/-! Views. -/

@[simp] theorem view_snoc (seen : List Seen) (e : Seen) : view (seen ++ [e]) = (view seen).see e := by
  unfold view
  rw [List.foldl_append, List.foldl_cons, List.foldl_nil]

@[simp] theorem delivered_append (seen more : List Seen) :
    delivered (seen ++ more) = delivered seen ++ delivered more := List.filterMap_append

theorem view_last (seen : List Seen) : (view seen).last = (delivered seen).getLast? := by
  induction seen using List.reverseRecOn with
  | nil => rfl
  | append_singleton seen e ih =>
    rw [view_snoc, delivered_append]
    cases e with
    | opened => rw [View.see, ih]; simp [delivered, Seen.recorded]
    | row r => simp [View.see, delivered, Seen.recorded]
    | notice id what => rw [View.see, ih]; simp [delivered, Seen.recorded]

/-- Where an event stands in a list that ends in another. -/
private theorem snoc_eq_split {α : Type} {l pre post : List α} {e z : α}
    (h : l ++ [e] = pre ++ z :: post) :
    (post = [] ∧ l = pre ∧ e = z) ∨ ∃ post', post = post' ++ [e] ∧ l = pre ++ z :: post' := by
  rcases List.eq_nil_or_concat post with rfl | ⟨post', e', rfl⟩
  · obtain ⟨hl, he⟩ := List.append_inj' h rfl
    exact .inl ⟨rfl, hl, by simpa using he⟩
  · rw [List.concat_eq_append, ← List.cons_append, ← List.append_assoc] at h
    obtain ⟨hl, he⟩ := List.append_inj' h rfl
    obtain rfl : e = e' := by simpa using he
    exact .inr ⟨post', List.concat_eq_append, hl⟩

theorem NoSilentGap.of_prefix {log : List Recorded} {seen more : List Seen}
    (h : NoSilentGap log (seen ++ more)) : NoSilentGap log seen where
  increasing := by
    have := h.increasing
    rw [delivered_append] at this
    exact (List.pairwise_append.mp this).1
  announced pre y post hs := by
    subst hs
    exact h.announced pre y (post ++ more) (by simp)

theorem NoSilentGap.grow {log more : List Recorded} {seen : List Seen} (h : NoSilentGap log seen) :
    NoSilentGap (log ++ more) seen where
  increasing := h.increasing
  announced pre y post hs x hx := by
    obtain ⟨before, between, after, hlog, hn⟩ := h.announced pre y post hs x hx
    exact ⟨before, between, after ++ more, by rw [hlog]; simp, hn⟩

/-- Events other than rows leave no gap. -/
theorem NoSilentGap.snoc {log : List Recorded} {seen : List Seen} {e : Seen}
    (h : NoSilentGap log seen) (he : e.recorded = none) : NoSilentGap log (seen ++ [e]) where
  increasing := by
    have hd : delivered [e] = [] := by simp [delivered, he]
    rw [delivered_append, hd, List.append_nil]
    exact h.increasing
  announced pre y post hs := by
    rcases snoc_eq_split hs with ⟨-, -, rfl⟩ | ⟨post', -, hs'⟩
    · exact nomatch he
    · exact h.announced pre y post' hs'

theorem NoSilentGap.snoc_row {log : List Recorded} {seen : List Seen} {y : Recorded}
    (h : NoSilentGap log seen)
    (hy : ∀ x ∈ (view seen).last, x.row.id < y.row.id ∧ ∃ before between after,
      log = before ++ x :: between ++ y :: after ∧ (view seen).announced = between.length) :
    NoSilentGap log (seen ++ [.row y]) where
  increasing := by
    rw [delivered_append]
    refine List.pairwise_append.mpr ⟨h.increasing, List.pairwise_singleton _ _, ?_⟩
    intro z hz y' hy'
    obtain rfl : y' = y := by simpa [delivered, Seen.recorded] using hy'
    obtain ⟨init, x, hx⟩ := (List.eq_nil_or_concat (delivered seen)).resolve_left
      (List.ne_nil_of_mem hz)
    rw [List.concat_eq_append] at hx
    have hlast : x ∈ (view seen).last := by rw [view_last, hx]; simp
    have hlt := (hy x hlast).1
    rw [hx, List.mem_append, List.mem_singleton] at hz
    rcases hz with hz | rfl
    · have hp := h.increasing
      rw [hx] at hp
      exact ((List.pairwise_append.mp hp).2.2 z hz x (List.mem_singleton_self x)).trans hlt
    · exact hlt
  announced pre z post hs := by
    rcases snoc_eq_split hs with ⟨-, rfl, hz⟩ | ⟨post', -, hs'⟩
    · obtain rfl : y = z := Seen.row.inj hz
      exact fun x hx => (hy x hx).2
    · exact h.announced pre z post' hs'

/-- Every notice goes out under the id of the last row before it. -/
def Marked (seen : List Seen) : Prop :=
  ∀ pre id what post, seen = pre ++ .notice id what :: post → id = (view pre).lastId

theorem Marked.of_prefix {seen more : List Seen} (h : Marked (seen ++ more)) : Marked seen := by
  intro pre id what post hs
  subst hs
  exact h pre id what (post ++ more) (by simp)

theorem Marked.snoc {seen : List Seen} {e : Seen} (h : Marked seen)
    (he : ∀ id what, e = .notice id what → id = (view seen).lastId) : Marked (seen ++ [e]) := by
  intro pre id what post hs
  rcases snoc_eq_split hs with ⟨-, rfl, he'⟩ | ⟨post', -, hs'⟩
  · exact he id what he'
  · exact h pre id what post' hs'

/-- A client resumes after the last row it has. -/
theorem Marked.lastEventId {seen : List Seen} (h : Marked seen) {a : Nat}
    (ha : lastEventId seen = some a) : a = (view seen).lastId := by
  induction seen using List.reverseRecOn with
  | nil => exact nomatch ha
  | append_singleton seen e ih =>
    unfold EventLedger.lastEventId at ha
    rw [List.filterMap_append] at ha
    cases e with
    | opened =>
      rw [view_snoc]
      exact ih h.of_prefix (by simpa [Seen.id, EventLedger.lastEventId] using ha)
    | row r =>
      obtain rfl : r.row.id = a := by simpa [Seen.id] using ha
      rw [view_snoc]
      rfl
    | notice id what =>
      obtain rfl : id = a := by simpa [Seen.id] using ha
      rw [view_snoc]
      exact h seen id what [] rfl

theorem lastEventId_none {seen : List Seen} (h : lastEventId seen = none) : delivered seen = [] := by
  rw [lastEventId, List.getLast?_eq_none_iff, List.filterMap_eq_nil_iff] at h
  refine List.filterMap_eq_nil_iff.mpr fun e he => ?_
  cases e with
  | opened => rfl
  | row r => exact nomatch h _ he
  | notice => rfl

/-! What a stream may yield next. -/

section
variable {life : Nat} {past : List Recorded} {rows : List LedgerRow} {seen : List Seen}

/-- The rows up to the place `m` have been seen or announced, if any row has been seen. -/
def Upto (life : Nat) (rows : List LedgerRow) (v : View) (m : Nat) : Prop :=
  ∀ x ∈ v.last, ∃ i, rows[i]? = some x.row ∧ x.life = life ∧ i + 1 + v.announced = m

theorem Upto.of_none {v : View} {m : Nat} (h : v.last = none) : Upto life rows v m := by
  intro x hx
  rw [h] at hx
  exact nomatch hx

theorem Upto.notice {m id : Nat} {what : Notice} (h : Upto life rows (view seen) m) :
    Upto life rows (view (seen ++ [.notice id what])) (m + what.rows) := by
  intro x hx
  rw [view_snoc] at hx ⊢
  obtain ⟨i, hi, hl, hm⟩ := h x hx
  exact ⟨i, hi, hl, by rw [← hm]; exact (Nat.add_assoc _ _ _).symm⟩

theorem Upto.grow {v : View} {m : Nat} {more : List LedgerRow} (h : Upto life rows v m) :
    Upto life (rows ++ more) v m := by
  intro x hx
  obtain ⟨i, hi, hl, hm⟩ := h x hx
  exact ⟨i, (List.getElem?_append_left (List.getElem?_eq_some_iff.mp hi).1).trans hi, hl, hm⟩

/-- Ids count the rows. -/
def Numbered (rows : List LedgerRow) : Prop := ∀ i r, rows[i]? = some r → r.id = i + 1

theorem Numbered.of_prefix {more : List LedgerRow} (h : Numbered (rows ++ more)) : Numbered rows :=
  fun i r hr => h i r ((List.getElem?_append_left (List.getElem?_eq_some_iff.mp hr).1).trans hr)

theorem Numbered.snoc {row : LedgerRow} (h : Numbered rows) (hid : row.id = rows.length + 1) :
    Numbered (rows ++ [row]) := by
  intro i r hr
  rcases Nat.lt_or_ge i rows.length with hi | hi
  · rw [List.getElem?_append_left hi] at hr
    exact h i r hr
  · rw [List.getElem?_append_right hi, List.getElem?_singleton] at hr
    split at hr
    · obtain rfl := Option.some.inj hr
      omega
    · exact nomatch hr

/-- Two entries of a list and what lies between them. -/
private theorem between_entries {α : Type} {l : List α} {i j : Nat} {x y : α} (hi : l[i]? = some x)
    (hj : l[j]? = some y) (h : i < j) :
    ∃ before between after, l = before ++ x :: between ++ y :: after ∧ i + 1 + between.length = j := by
  obtain ⟨hil, rfl⟩ := List.getElem?_eq_some_iff.mp hi
  obtain ⟨hjl, rfl⟩ := List.getElem?_eq_some_iff.mp hj
  have hrest : (l.drop (i + 1))[j - (i + 1)]? = some l[j] := by
    rw [List.getElem?_drop, ← hj]
    congr 1
    omega
  obtain ⟨hlt, hget⟩ := List.getElem?_eq_some_iff.mp hrest
  refine ⟨l.take i, (l.drop (i + 1)).take (j - (i + 1)), (l.drop (i + 1)).drop (j - (i + 1) + 1),
    ?_, ?_⟩
  · rw [List.append_assoc, List.cons_append]
    have := List.take_append_drop (j - (i + 1)) (l.drop (i + 1))
    rw [List.drop_eq_getElem_cons hlt, hget] at this
    rw [this, ← List.drop_eq_getElem_cons hil, List.take_append_drop]
  · rw [List.length_take, List.length_drop]
    omega

/-- The events so far leave no gap, and tell of rows of this life only. -/
structure Sound (life : Nat) (past : List Recorded) (rows : List LedgerRow) (seen : List Seen) :
    Prop where
  gapless : NoSilentGap (past ++ rows.map (Recorded.mk life)) seen
  marked : Marked seen
  known : ∀ x ∈ delivered seen, x.life = life ∧ x.row ∈ rows

theorem Sound.of_prefix {more : List Seen} (h : Sound life past rows (seen ++ more)) :
    Sound life past rows seen :=
  ⟨h.gapless.of_prefix, h.marked.of_prefix, fun x hx => h.known x (by
    rw [delivered_append]
    exact List.mem_append_left _ hx)⟩

theorem Sound.grow {more : List LedgerRow} (h : Sound life past rows seen) :
    Sound life past (rows ++ more) seen := by
  refine ⟨?_, h.marked, fun x hx => ⟨(h.known x hx).1, List.mem_append_left _ (h.known x hx).2⟩⟩
  rw [List.map_append, ← List.append_assoc]
  exact h.gapless.grow

theorem Sound.notice {id : Nat} {what : Notice} (h : Sound life past rows seen)
    (hid : id = (view seen).lastId) : Sound life past rows (seen ++ [.notice id what]) where
  gapless := h.gapless.snoc rfl
  marked := h.marked.snoc fun _ _ he => by
    cases he
    exact hid
  known x hx := h.known x (by simpa [delivered, Seen.recorded] using hx)

theorem Sound.opened (h : Sound life past rows seen) : Sound life past rows (seen ++ [.opened]) where
  gapless := h.gapless.snoc rfl
  marked := h.marked.snoc fun _ _ he => nomatch he
  known x hx := h.known x (by simpa [delivered, Seen.recorded] using hx)

/-- The row at the place up to which all is known comes next. -/
theorem Sound.row {m : Nat} {r : LedgerRow} (hn : Numbered rows) (h : Sound life past rows seen)
    (hm : Upto life rows (view seen) m) (hr : rows[m]? = some r) :
    Sound life past rows (seen ++ [.row ⟨life, r⟩]) ∧
      Upto life rows (view (seen ++ [.row ⟨life, r⟩])) (m + 1) := by
  constructor
  · refine ⟨h.gapless.snoc_row ?_, h.marked.snoc (fun _ _ he => nomatch he), ?_⟩
    · intro x hx
      obtain ⟨i, hi, hl, him⟩ := hm x hx
      obtain ⟨before, between, after, hrows, hlen⟩ := between_entries hi hr (by omega)
      refine ⟨?_, past ++ before.map (.mk life), between.map (.mk life), after.map (.mk life), ?_, ?_⟩
      · have hy : r.id = m + 1 := hn m r hr
        rw [hn i x.row hi]
        change i + 1 < r.id
        omega
      · obtain rfl : life = x.life := hl.symm
        rw [hrows]
        simp
      · rw [List.length_map]
        omega
    · intro x hx
      rw [delivered_append, List.mem_append] at hx
      rcases hx with hx | hx
      · exact h.known x hx
      · obtain rfl : x = ⟨life, r⟩ := by simpa [delivered, Seen.recorded] using hx
        exact ⟨rfl, List.mem_of_getElem? hr⟩
  · intro x hx
    rw [view_snoc] at hx ⊢
    obtain rfl : ⟨life, r⟩ = x := by simpa [View.see] using hx
    exact ⟨m, hr, rfl, rfl⟩

/-- A run of rows from the place up to which all is known. -/
theorem Sound.replay (hn : Numbered rows) {replayed : List LedgerRow} {m a : Nat}
    (h : Sound life past rows seen) (hm : Upto life rows (view seen) m)
    (hr : ∀ j r, replayed[j]? = some r → rows[m + j]? = some r) (ha : a = (view seen).lastId)
    (ham : a ≤ m) :
    let seen' := seen ++ replayed.map fun r => .row ⟨life, r⟩
    Sound life past rows seen' ∧ Upto life rows (view seen') (m + replayed.length) ∧
      replayedId a replayed = (view seen').lastId ∧
      (replayed ≠ [] → replayedId a replayed = m + replayed.length) := by
  induction replayed generalizing seen m a with
  | nil =>
    rw [List.map_nil, List.append_nil]
    exact ⟨h, hm, ha, fun hne => absurd rfl hne⟩
  | cons r replayed ih =>
    have hrow : rows[m]? = some r := hr 0 r rfl
    have hid : r.id = m + 1 := hn m r hrow
    obtain ⟨hs, hu⟩ := h.row hn hm hrow
    have hmax : max a r.id = m + 1 := by omega
    obtain ⟨hs', hu', hlast, hend⟩ := ih (a := max a r.id) hs hu
      (fun j r' hj => by
        have := hr (j + 1) r' hj
        rwa [Nat.add_comm j 1, ← Nat.add_assoc] at this)
      (by rw [view_snoc, hmax, ← hid]; rfl) (by omega)
    rw [List.append_assoc] at hs' hu' hlast
    refine ⟨hs', ?_, hlast, fun _ => ?_⟩
    · rw [List.length_cons, Nat.add_comm replayed.length 1, ← Nat.add_assoc]
      exact hu'
    · change replayedId (max a r.id) replayed = _
      by_cases hne : replayed = []
      · rw [hne, hmax]
        rfl
      · rw [hend hne, List.length_cons]
        omega

end

/-! The invariant. -/

/-- Between two items the ids handed out are those of the rows; in between, the row in hand is the
next one, or the last. -/
def Projector.Ok (rows : List LedgerRow) (ring : LedgerRing) : Projector → Prop
  | .idle => ring.nextId = rows.length + 1 ∧ ring.tx.sent = rows
  | .storing row => row.id = rows.length + 1 ∧ ring.nextId = rows.length + 2 ∧ ring.tx.sent = rows
  | .sending row => ring.nextId = rows.length + 1 ∧ rows = ring.tx.sent ++ [row]

/-- What holds at each place of the stream. A replay has the rows from `k` to `n`; nothing between
the cursor and `k` is in the ring. -/
def Phase.Ok (life : Nat) (rows : List LedgerRow) (ring : LedgerRing) (v : View) (pos : Nat) :
    Phase → Prop
  | .subscribed after | .clamped after => (after = none → v.last = none) ∧
      after.getD 0 = v.lastId ∧ Upto life rows v v.lastId
  | .replaying a replayed => a = v.lastId ∧ Upto life rows v a ∧ ∃ k n, a ≤ k ∧ k ≤ n ∧ pos ≤ n ∧
      n ≤ rows.length ∧ replayed = (rows.take n).drop k ∧ (k = n → n ≤ a) ∧
      ∀ r ∈ ring.buf, a < k → k < r.id
  | .unkept a replayed => v.last = none ∧ a = 0 ∧ replayed = [] ∧ pos = 0
  | .live lastId => lastId = v.lastId ∧ Upto life rows v (max lastId pos)

/-- What the client has seen, and what is on the way to it. -/
def Sys.events (s : Sys) : List Seen := s.seen ++ s.wire.map (Item.seen s.life)

structure Sys.Inv (s : Sys) : Prop where
  numbered : Numbered s.rows
  buf : s.ring.buf <:+ s.rows
  kept : s.rows ≠ [] → s.ring.buf ≠ []
  projector : s.projector.Ok s.rows s.ring
  gapless : NoSilentGap s.log s.events
  marked : Marked s.events
  known : ∀ x ∈ delivered s.events, x.life ≤ s.life ∧ (x.life = s.life → x.row ∈ s.rows)
  idle : s.stream = none → s.wire = []
  life : ∀ x ∈ delivered s.events, s.stream.isSome → x.life = s.life
  stream : ∀ stream ∈ s.stream, stream.pos ≤ s.ring.tx.sent.length ∧
    stream.phase.Ok s.life s.rows s.ring (view s.events) stream.pos

theorem Sys.Inv.sound {s : Sys} (h : s.Inv) {stream : LedgerStream} (hs : s.stream = some stream) :
    Sound s.life s.past s.rows s.events where
  gapless := h.gapless
  marked := h.marked
  known x hx := by
    have hl := h.life x hx (by rw [hs]; rfl)
    exact ⟨hl, (h.known x hx).2 hl⟩

theorem Projector.Ok.sent {rows : List LedgerRow} {ring : LedgerRing} {projector : Projector}
    (h : projector.Ok rows ring) : ring.tx.sent <+: rows := by
  cases projector with
  | idle => rw [h.2]
  | storing row => rw [h.2.2]
  | sending row => exact ⟨[row], h.2.symm⟩

theorem Projector.Ok.lastId {rows : List LedgerRow} {ring : LedgerRing} {projector : Projector}
    (h : projector.Ok rows ring) : rows.length ≤ ring.lastId := by
  unfold LedgerRing.lastId
  cases projector with
  | idle => have := h.1; omega
  | storing row => have := h.2.1; omega
  | sending row => have := h.1; omega

theorem Sys.Inv.start (capacity slots : Nat) : (Sys.start capacity slots).Inv where
  numbered i r hr := nomatch hr
  buf := List.suffix_rfl
  kept h := absurd rfl h
  projector := ⟨rfl, rfl⟩
  gapless := ⟨.nil, fun pre y post h => by simp [Sys.events, Sys.start] at h⟩
  marked pre id what post h := by simp [Sys.events, Sys.start] at h
  known x hx := nomatch hx
  idle _ := rfl
  life x hx := nomatch hx
  stream _ h := nomatch h

/-! The projector. -/

theorem BusItem.row_id (item : BusItem) (id : Nat) (now : DateTime) :
    ∃ row, item.row id now = some row ∧ row.id = id := by
  cases item with
  | event e => exact project_id e id now
  | lagged n => exact ⟨_, rfl, rfl⟩

theorem Sys.Inv.record {s : Sys} (h : s.Inv) (item : BusItem) (now : DateTime)
    (hid : s.ring.nextId + 1 < 2^64) : (s.record item now).Inv := by
  unfold Sys.record
  split
  · next hp =>
    obtain ⟨row, hrow, hrid⟩ := item.row_id s.ring.nextId now
    have hok := h.projector
    rw [hp] at hok
    simp only [Projector.take, LedgerRing.fetchNextId, hrow]
    refine { h with projector := ⟨hrid.trans hok.1, ?_, hok.2⟩, stream := h.stream }
    rw [Nat.mod_eq_of_lt hid, hok.1]
  · exact h

theorem LedgerRing.store_suffix {ring : LedgerRing} {rows : List LedgerRow} (row : LedgerRow)
    (h : ring.buf <:+ rows) : (ring.store row).buf <:+ rows ++ [row] := by
  have hkept : (if ring.buf.length = ring.capacity then ring.buf.tail else ring.buf) <:+ rows := by
    split
    · exact (List.tail_suffix ring.buf).trans h
    · exact h
  obtain ⟨front, hfront⟩ := hkept
  exact ⟨front, by rw [← hfront, List.append_assoc]; rfl⟩

theorem LedgerRing.mem_store {ring : LedgerRing} {row r : LedgerRow} (h : r ∈ (ring.store row).buf) :
    r ∈ ring.buf ∨ r = row := by
  unfold LedgerRing.store at h
  rw [List.mem_append, List.mem_singleton] at h
  refine h.imp_left fun h => ?_
  split at h
  · exact List.mem_of_mem_tail h
  · exact h

/-- A stream stands where it stood when a row is stored. -/
theorem Phase.Ok.store {life pos : Nat} {rows : List LedgerRow} {ring : LedgerRing} {v : View}
    {row : LedgerRow} {phase : Phase} (h : phase.Ok life rows ring v pos)
    (hid : row.id = rows.length + 1) : phase.Ok life (rows ++ [row]) (ring.store row) v pos := by
  cases phase with
  | subscribed after => exact ⟨h.1, h.2.1, h.2.2.grow⟩
  | clamped after => exact ⟨h.1, h.2.1, h.2.2.grow⟩
  | replaying a replayed =>
    obtain ⟨ha, hu, k, n, hak, hkn, hpos, hn, hr, hend, hout⟩ := h
    refine ⟨ha, hu.grow, k, n, hak, hkn, hpos, ?_, ?_, hend, ?_⟩
    · rw [List.length_append]
      omega
    · rw [List.take_append_of_le_length hn]
      exact hr
    · intro r hmem hlt
      rcases LedgerRing.mem_store hmem with hmem | rfl
      · exact hout r hmem hlt
      · omega
  | unkept a replayed => exact h
  | live lastId => exact ⟨h.1, h.2.grow⟩

theorem Sys.Inv.push {s : Sys} (h : s.Inv) : s.push.Inv := by
  have hok := h.projector
  unfold Sys.push
  cases hp : s.projector with
  | idle =>
    rw [hp] at hok
    exact { h with projector := hok }
  | storing row =>
    rw [hp] at hok
    obtain ⟨hid, hnext, hsent⟩ := hok
    refine {
      numbered := h.numbered.snoc hid
      buf := LedgerRing.store_suffix row h.buf
      kept := fun _ => List.append_ne_nil_of_right_ne_nil _ (List.cons_ne_nil _ _)
      projector := ⟨?_, ?_⟩
      gapless := ?_
      marked := h.marked
      known := fun x hx => ⟨(h.known x hx).1, fun hl =>
        List.mem_append_left _ ((h.known x hx).2 hl)⟩
      idle := h.idle
      life := h.life
      stream := fun stream hs => ⟨(h.stream stream hs).1, (h.stream stream hs).2.store hid⟩ }
    · rw [List.length_append]
      exact hnext
    · change s.rows ++ [row] = s.ring.tx.sent ++ [row]
      rw [hsent]
    · change NoSilentGap (s.past ++ (s.rows ++ [row]).map _) s.events
      rw [List.map_append, ← List.append_assoc]
      exact h.gapless.grow
  | sending row =>
    rw [hp] at hok
    refine { h with
      projector := ⟨hok.1, hok.2.symm⟩
      stream := fun stream hs => ⟨?_, (h.stream stream hs).2⟩ }
    have := (h.stream stream hs).1
    change _ ≤ (s.ring.tx.sent ++ [row]).length
    rw [List.length_append]
    omega

/-! The client. -/

theorem Sys.events_receive (s : Sys) : s.receive.events = s.events := by
  unfold Sys.receive
  split
  · rfl
  · next item wire hw =>
    unfold Sys.events
    rw [hw, List.map_cons, ← List.append_cons]

theorem Sys.Inv.receive {s : Sys} (h : s.Inv) : s.receive.Inv := by
  have he := s.events_receive
  unfold Sys.receive at he ⊢
  split
  · exact h
  · next item wire hw =>
    rw [hw] at he
    exact {
      numbered := h.numbered
      buf := h.buf
      kept := h.kept
      projector := h.projector
      gapless := he ▸ h.gapless
      marked := he ▸ h.marked
      known := he ▸ h.known
      idle := fun hs => by rw [h.idle hs] at hw; exact nomatch hw
      life := he ▸ h.life
      stream := fun stream hs => he ▸ h.stream stream hs }

theorem Sys.mem_events {s : Sys} {x : Recorded} (h : x ∈ delivered s.seen) :
    x ∈ delivered s.events := by
  rw [Sys.events, delivered_append]
  exact List.mem_append_left _ h

/-- What the client has received stands, whatever becomes of the connection. -/
theorem Sys.Inv.seen {s : Sys} (h : s.Inv) : NoSilentGap s.log s.seen ∧ Marked s.seen :=
  ⟨h.gapless.of_prefix, h.marked.of_prefix⟩

theorem Sys.Inv.disconnect {s : Sys} (h : s.Inv) : s.disconnect.Inv := by
  have he : s.disconnect.events = s.seen := List.append_nil _
  exact {
    numbered := h.numbered
    buf := h.buf
    kept := h.kept
    projector := h.projector
    gapless := he ▸ h.seen.1
    marked := he ▸ h.seen.2
    known := fun x hx => h.known x (mem_events (he ▸ hx))
    idle := fun _ => rfl
    life := fun _ _ hs => nomatch hs
    stream := fun _ hs => nomatch hs }

theorem Sys.Inv.restart {s : Sys} (h : s.Inv) : s.restart.Inv := by
  have he : s.restart.events = s.seen := List.append_nil _
  have hlog : s.restart.log = s.log := List.append_nil _
  exact {
    numbered := fun _ _ hr => nomatch hr
    buf := List.suffix_rfl
    kept := fun hne => absurd rfl hne
    projector := ⟨rfl, rfl⟩
    gapless := by rw [he, hlog]; exact h.seen.1
    marked := he ▸ h.seen.2
    known := fun x hx => by
      have hl : x.life ≤ s.life := (h.known x (mem_events (he ▸ hx))).1
      refine ⟨hl.trans (Nat.le_succ _), fun heq => ?_⟩
      change x.life = s.life + 1 at heq
      omega
    idle := fun _ => rfl
    life := fun _ _ hs => nomatch hs
    stream := fun _ hs => nomatch hs }

theorem view_last_none {seen : List Seen} (h : delivered seen = []) : (view seen).last = none := by
  rw [view_last, h]
  rfl

theorem Sys.Inv.connect {s : Sys} (h : s.Inv) (hl : ∀ x ∈ delivered s.seen, x.life = s.life) :
    s.connect.Inv := by
  have he : s.connect.events = s.seen ++ [.opened] := List.append_nil _
  have hd : delivered s.connect.events = delivered s.seen := by
    rw [he, delivered_append]
    exact List.append_nil _
  have hv : view s.connect.events = ⟨(view s.seen).last, 0⟩ := by rw [he, view_snoc]; rfl
  refine {
    numbered := h.numbered
    buf := h.buf
    kept := h.kept
    projector := h.projector
    gapless := he ▸ h.seen.1.snoc rfl
    marked := he ▸ h.seen.2.snoc (fun _ _ he => nomatch he)
    known := fun x hx => h.known x (mem_events (hd ▸ hx))
    idle := fun hs => nomatch hs
    life := fun x hx _ => hl x (hd ▸ hx)
    stream := ?_ }
  intro stream hs
  obtain rfl := Option.some.inj hs
  refine ⟨le_rfl, ?_⟩
  rw [hv]
  refine ⟨fun hnone => view_last_none (lastEventId_none hnone), ?_, ?_⟩
  · cases ha : lastEventId s.seen with
    | none =>
      rw [view_last_none (lastEventId_none ha)]
      rfl
    | some a => exact h.seen.2.lastEventId ha
  · intro x hx
    have hmem : x ∈ delivered s.seen := by
      rw [view_last] at hx
      exact List.mem_of_getLast? hx
    obtain ⟨i, hi⟩ := List.mem_iff_getElem?.mp ((h.known x (mem_events hmem)).2 (hl x hmem))
    refine ⟨i, hi, hl x hmem, ?_⟩
    rw [View.lastId, Option.mem_def.mp hx]
    exact (h.numbered i x.row hi).symm

/-! The stream. -/

private theorem getElem?_of_prefix {α : Type} {l l' : List α} {i : Nat} {x : α} (h : l <+: l')
    (hx : l[i]? = some x) : l'[i]? = some x := by
  obtain ⟨t, rfl⟩ := h
  exact (List.getElem?_append_left (List.getElem?_eq_some_iff.mp hx).1).trans hx

private theorem mem_drop {rows : List LedgerRow} {c : Nat} {r : LedgerRow} (hn : Numbered rows)
    (h : r ∈ rows.drop c) : c < r.id := by
  obtain ⟨i, hi⟩ := List.mem_iff_getElem?.mp h
  rw [List.getElem?_drop] at hi
  have := hn _ r hi
  omega

/-- What the ring replays after `a`, if it has the rows from `b` on. -/
theorem replay_drop {rows : List LedgerRow} {ring : LedgerRing} {b : Nat} (a : Nat)
    (hn : Numbered rows) (hb : ring.buf = rows.drop b) :
    ring.replay (some a) = rows.drop (max a b) := by
  have hkeep : ∀ c, a ≤ c → ∀ r ∈ rows.drop c, (some a).all (fun a => decide (a < r.id)) = true := by
    intro c hc r hr
    have := mem_drop hn hr
    simpa using Nat.lt_of_le_of_lt hc this
  unfold LedgerRing.replay
  rw [hb]
  rcases Nat.le_total a b with hab | hab
  · rw [max_eq_right hab]
    exact List.filter_eq_self.mpr (hkeep b hab)
  · have hsplit : rows.drop b = (rows.drop b).take (a - b) ++ rows.drop a := by
      have := List.take_append_drop (a - b) (rows.drop b)
      rw [List.drop_drop, Nat.add_sub_cancel' hab] at this
      exact this.symm
    rw [max_eq_left hab, hsplit, List.filter_append, List.filter_eq_self.mpr (hkeep a le_rfl),
      List.filter_eq_nil_iff.mpr, List.nil_append]
    intro r hr
    obtain ⟨i, hi⟩ := List.mem_iff_getElem?.mp hr
    obtain ⟨hlt, -⟩ := List.getElem?_eq_some_iff.mp hi
    rw [List.length_take] at hlt
    rw [List.getElem?_take_of_lt (by omega), List.getElem?_drop] at hi
    have := hn _ r hi
    simp only [Option.all_some, decide_eq_true_eq]
    omega

/-- The rows and the ring, as the projector keeps them. -/
structure Stored (rows : List LedgerRow) (ring : LedgerRing) : Prop where
  numbered : Numbered rows
  buf : ring.buf <:+ rows
  kept : rows ≠ [] → ring.buf ≠ []
  sent : ring.tx.sent <+: rows
  lastId : rows.length ≤ ring.lastId

theorem Sys.Inv.stored {s : Sys} (h : s.Inv) : Stored s.rows s.ring :=
  ⟨h.numbered, h.buf, h.kept, h.projector.sent, h.projector.lastId⟩

theorem Stored.drop {rows : List LedgerRow} {ring : LedgerRing} (h : Stored rows ring) :
    ∃ b ≤ rows.length, ring.buf = rows.drop b ∧ (b = rows.length → rows = []) := by
  refine ⟨rows.length - ring.buf.length, Nat.sub_le _ _, List.suffix_iff_eq_drop.mp h.buf, ?_⟩
  intro hb
  by_contra hne
  have hbuf := List.length_pos_of_ne_nil (h.kept hne)
  have hrows := List.length_pos_of_ne_nil hne
  omega

theorem Stored.sent_id {rows : List LedgerRow} {ring : LedgerRing} (h : Stored rows ring)
    {pos : Nat} {r : LedgerRow} (hr : ring.tx.sent[pos]? = some r) :
    rows[pos]? = some r ∧ r.id = pos + 1 := by
  have hrow := getElem?_of_prefix h.sent hr
  exact ⟨hrow, h.numbered pos r hrow⟩

section
variable {life : Nat} {past : List Recorded} {rows : List LedgerRow} {ring : LedgerRing}
  {seen : List Seen} {pos : Nat}

/-- What an advance of the stream must leave behind. -/
structure Advanced (life : Nat) (past : List Recorded) (rows : List LedgerRow) (ring : LedgerRing)
    (seen : List Seen) (next : LedgerStream × List Item) : Prop where
  sound : Sound life past rows (seen ++ next.2.map (Item.seen life))
  pos : next.1.pos ≤ ring.tx.sent.length
  phase : next.1.phase.Ok life rows ring (view (seen ++ next.2.map (Item.seen life))) next.1.pos

theorem Advanced.quiet {stream : LedgerStream} (h : Sound life past rows seen)
    (hpos : stream.pos ≤ ring.tx.sent.length)
    (hok : stream.phase.Ok life rows ring (view seen) stream.pos) :
    Advanced life past rows ring seen (stream, []) :=
  ⟨by rwa [List.map_nil, List.append_nil], hpos, by rwa [List.map_nil, List.append_nil]⟩

theorem map_seen_row (life : Nat) (replayed : List LedgerRow) :
    (replayed.map Item.row).map (Item.seen life) = replayed.map fun r => .row ⟨life, r⟩ := by
  rw [List.map_map]
  rfl

/-- The replay of the rows from `k` to `n`, once all before `k` is known. -/
theorem Advanced.replay {a k n : Nat} (hst : Stored rows ring) (h : Sound life past rows seen)
    (hu : Upto life rows (view seen) k) (ha : a = (view seen).lastId) (hak : a ≤ k) (hkn : k ≤ n)
    (hn : n ≤ rows.length) (hend : k = n → n ≤ a) (hpos : pos ≤ ring.tx.sent.length)
    (hpn : pos ≤ n) :
    Advanced life past rows ring seen
      (⟨pos, .live (replayedId a ((rows.take n).drop k))⟩, ((rows.take n).drop k).map .row) := by
  have hlen : k + ((rows.take n).drop k).length = n := by
    rw [List.length_drop, List.length_take]
    omega
  obtain ⟨hs, hu', hlast, hne⟩ := h.replay hst.numbered hu
    (fun j r hj => by
      rw [List.getElem?_drop] at hj
      exact getElem?_of_prefix (List.take_prefix n rows) hj) ha hak
  rw [hlen] at hu' hne
  refine ⟨?_, hpos, ?_⟩
  · rw [map_seen_row]
    exact hs
  · rw [map_seen_row]
    refine ⟨hlast, ?_⟩
    have hid : max (replayedId a ((rows.take n).drop k)) pos = n := by
      by_cases hnil : (rows.take n).drop k = []
      · rw [hnil, List.length_nil] at hlen
        rw [hnil]
        change max a pos = n
        omega
      · rw [hne hnil]
        omega
    rw [hid]
    exact hu'

theorem Sound.lastId_le (hn : Numbered rows) (h : Sound life past rows seen) :
    (view seen).lastId ≤ rows.length := by
  unfold View.lastId
  cases hx : (view seen).last with
  | none => exact Nat.zero_le _
  | some x =>
    rw [view_last] at hx
    obtain ⟨i, hi⟩ := List.mem_iff_getElem?.mp (h.known x (List.mem_of_getLast? hx)).2
    have := (List.getElem?_eq_some_iff.mp hi).1
    have := hn i x.row hi
    change x.row.id ≤ _
    omega

theorem Advanced.prepend {stream : LedgerStream} {first items : List Item}
    (h : Advanced life past rows ring (seen ++ first.map (Item.seen life)) (stream, items)) :
    Advanced life past rows ring seen (stream, first ++ items) := by
  obtain ⟨hs, hpos, hok⟩ := h
  rw [List.append_assoc, ← List.map_append] at hs hok
  exact ⟨hs, hpos, hok⟩

/-- The gap is counted right, or nothing has been seen that a gap could follow. -/
theorem Advanced.resume {a k n firstKept : Nat} (hst : Stored rows ring)
    (h : Sound life past rows seen) (hu : Upto life rows (view seen) a)
    (ha : a = (view seen).lastId)
    (hgap : (view seen).last = none ∨ firstKept - a - 1 = k - a) (hak : a ≤ k) (hkn : k ≤ n)
    (hn : n ≤ rows.length) (hend : k = n → n ≤ a) (hpos : pos ≤ ring.tx.sent.length)
    (hpn : pos ≤ n) :
    Advanced life past rows ring seen
      (⟨pos, .live (replayedId a ((rows.take n).drop k))⟩,
        resume firstKept a ((rows.take n).drop k)) := by
  unfold EventLedger.resume
  refine .prepend ?_
  split
  · have hv : view (seen ++ [.notice a (.expired (firstKept - a - 1))]) =
        (view seen).see (.notice a (.expired (firstKept - a - 1))) := view_snoc _ _
    have hid : (view (seen ++ [.notice a (.expired (firstKept - a - 1))])).lastId =
        (view seen).lastId := by
      rw [hv]
      rfl
    refine .replay hst (h.notice ha) ?_ (ha.trans hid.symm) hak hkn hn hend hpos hpn
    rcases hgap with hnone | hgap
    · exact .of_none ((congrArg View.last hv).trans hnone)
    · have hk : a + (Notice.expired (firstKept - a - 1)).rows = k := by
        change a + (firstKept - a - 1) = k
        omega
      exact hk ▸ hu.notice
  · next hzero =>
    rw [List.map_nil, List.append_nil]
    refine .replay hst h ?_ ha hak hkn hn hend hpos hpn
    rcases hgap with hnone | hgap
    · exact .of_none hnone
    · have hka : k = a := by omega
      exact hka ▸ hu

/-- One step of a stream, under its condition. -/
theorem LedgerStream.advanced {stream : LedgerStream} (hst : Stored rows ring)
    (h : Sound life past rows seen) (hpos : stream.pos ≤ ring.tx.sent.length)
    (hok : stream.phase.Ok life rows ring (view seen) stream.pos)
    (hm : stream.Meets ring) :
    Advanced life past rows ring seen (stream.advance ring) := by
  obtain ⟨pos, phase⟩ := stream
  have hsent : pos ≤ rows.length := hpos.trans hst.sent.length_le
  have hseen : (view seen).lastId ≤ rows.length := h.lastId_le hst.numbered
  cases phase with
  | subscribed after =>
    obtain ⟨hnone, hid, hu⟩ := hok
    refine .quiet h hpos ⟨fun hn => hnone (Option.map_eq_none_iff.mp hn), ?_, hu⟩
    cases after with
    | none => exact hid
    | some a =>
      have := hst.lastId
      change a = _ at hid
      change min a ring.lastId = _
      omega
  | clamped after =>
    obtain ⟨hnone, hid, hu⟩ := hok
    obtain ⟨b, hb, hbuf, hempty⟩ := hst.drop
    cases after with
    | none =>
      have hlast : (view seen).last = none := hnone rfl
      have hzero : (view seen).lastId = 0 := by rw [View.lastId, hlast]; rfl
      have hall : ring.replay none = (rows.take rows.length).drop b := by
        rw [List.take_length, ← hbuf]
        exact List.filter_eq_self.mpr fun _ _ => rfl
      change Advanced life past rows ring seen
        (⟨pos, .live (replayedId 0 (ring.replay none))⟩, (ring.replay none).map .row)
      rw [hall]
      refine .replay hst h (.of_none hlast) hzero.symm (Nat.zero_le b) hb le_rfl ?_ hpos hsent
      intro hbn
      rw [hempty hbn]
      exact le_rfl
    | some a =>
      change a = _ at hid
      refine .quiet h hpos ⟨hid, hid ▸ hu, max a b, rows.length, le_max_left a b,
        max_le (hid ▸ hseen) hb, hsent, le_rfl, ?_, ?_, ?_⟩
      · rw [List.take_length]
        exact replay_drop a hst.numbered hbuf
      · intro hmax
        rcases Nat.le_total b a with hba | hab
        · omega
        · rw [hempty (by omega)]
          exact Nat.zero_le _
      · intro r hr hlt
        rw [hbuf] at hr
        have := mem_drop hst.numbered hr
        omega
  | replaying a replayed =>
    obtain ⟨ha, hu, k, n, hak, hkn, hpn, hn, hr, hend, hout⟩ := hok
    cases hold : ring.oldestId with
    | none =>
      have hrows : rows = [] := by
        rw [LedgerRing.oldestId, Option.map_eq_none_iff, List.head?_eq_none_iff] at hold
        exact not_not.mp fun hne => hst.kept hne hold
      subst hrows
      obtain rfl : n = 0 := Nat.le_zero.mp hn
      obtain rfl : k = 0 := Nat.le_zero.mp hkn
      have hstep : LedgerStream.advance ring ⟨pos, .replaying a replayed⟩ =
          (⟨pos, .unkept a replayed⟩, []) := by
        simp only [LedgerStream.advance, hold]
      rw [hstep]
      refine .quiet h hpos ⟨?_, Nat.le_zero.mp hak, hr, Nat.le_zero.mp hpn⟩
      rw [view_last, List.getLast?_eq_none_iff, List.eq_nil_iff_forall_not_mem]
      exact fun x hx => List.not_mem_nil (h.known x hx).2
    | some firstKept =>
      have hstep : LedgerStream.advance ring ⟨pos, .replaying a replayed⟩ =
          (⟨pos, .live (replayedId a replayed)⟩, resume firstKept a replayed) := by
        simp only [LedgerStream.advance, hold]
      rw [hstep, hr]
      refine .resume hst h hu ha ?_ hak hkn hn hend hpos hpn
      refine or_iff_not_imp_left.mpr fun hsome => ?_
      have hle := hm ?_ firstKept hold
      · rw [LedgerRing.oldestId, Option.map_eq_some_iff] at hold
        obtain ⟨first, hfirst, rfl⟩ := hold
        have hmore := hout first (List.mem_of_head? hfirst)
        rcases Nat.eq_or_lt_of_le hkn with rfl | hlt
        · have hnil : replayed = [] := by
            rw [hr, List.drop_eq_nil_iff, List.length_take]
            exact min_le_left _ _
          rw [hnil] at hle
          change first.id ≤ a + 1 at hle
          have := hend rfl
          omega
        · have hhead : replayed.head? = some rows[k] := by
            rw [hr, List.head?_drop, List.getElem?_take_of_lt hlt, List.getElem?_eq_getElem]
          rw [hhead] at hle
          change first.id ≤ rows[k].id at hle
          have := hst.numbered k rows[k] (List.getElem?_eq_getElem _)
          omega
      · obtain ⟨x, hx⟩ := Option.ne_none_iff_exists'.mp hsome
        obtain ⟨i, -, -, hi⟩ := hu x hx
        omega
  | unkept a replayed =>
    obtain ⟨hlast, rfl, rfl, rfl⟩ := hok
    exact .resume (k := 0) (n := 0) hst h (.of_none hlast)
      (by rw [View.lastId, hlast]; rfl) (.inl hlast) le_rfl le_rfl (Nat.zero_le _)
      (fun _ => le_rfl) hpos le_rfl
  | live lastId =>
    obtain ⟨hid, hu⟩ := hok
    change Upto life rows (view seen) (max lastId pos) at hu
    cases hrecv : ring.tx.recv pos with
    | pending =>
      have hstep : LedgerStream.advance ring ⟨pos, .live lastId⟩ = (⟨pos, .live lastId⟩, []) := by
        simp only [LedgerStream.advance, hrecv]
      rw [hstep]
      exact .quiet h hpos ⟨hid, hu⟩
    | value row =>
      have hsome := Broadcast.recv_value hrecv
      obtain ⟨hrow, hrid⟩ := hst.sent_id hsome
      have hlt := (List.getElem?_eq_some_iff.mp hsome).1
      by_cases hle : row.id ≤ lastId
      · have hstep : LedgerStream.advance ring ⟨pos, .live lastId⟩ =
            (⟨pos + 1, .live lastId⟩, []) := by
          simp only [LedgerStream.advance, hrecv, if_pos hle]
        rw [hstep]
        refine .quiet h hlt ⟨hid, ?_⟩
        change Upto life rows (view seen) (max lastId (pos + 1))
        rw [max_eq_left (by omega)] at hu ⊢
        exact hu
      · have hstep : LedgerStream.advance ring ⟨pos, .live lastId⟩ =
            (⟨pos + 1, .live row.id⟩, [.row row]) := by
          simp only [LedgerStream.advance, hrecv, if_neg hle]
        rw [hstep]
        rw [max_eq_right (by omega)] at hu
        obtain ⟨hs, hu'⟩ := h.row hst.numbered hu hrow
        refine ⟨hs, hlt, ?_, ?_⟩
        · change _ = (view (seen ++ [_])).lastId
          rw [view_snoc]
          rfl
        · rw [hrid, max_self]
          exact hu'
    | lagged missed =>
      obtain ⟨hmissed, hbound⟩ := Broadcast.recv_lagged hrecv
      have hstep : LedgerStream.advance ring ⟨pos, .live lastId⟩ =
          (⟨pos + missed, .live lastId⟩, [.notice lastId (.dropped missed)]) := by
        simp only [LedgerStream.advance, hrecv]
      rw [hstep]
      have hsome := List.getElem?_eq_getElem (l := ring.tx.sent) (i := pos) (by omega)
      have hafter := hm _ (Broadcast.mem_missed hrecv hsome)
      rw [(hst.sent_id hsome).2] at hafter
      rw [max_eq_right (by omega)] at hu
      refine ⟨h.notice hid, hbound, ?_, ?_⟩
      · change _ = (view (seen ++ [_])).lastId
        rw [view_snoc]
        exact hid
      · change Upto life rows _ (max lastId (pos + missed))
        rw [max_eq_right (by omega)]
        exact hu.notice

end

/-- Every step that meets the condition keeps the invariant. -/
theorem Sys.Inv.step {s : Sys} (h : s.Inv) (act : Act) (hm : s.Meets act) : (s.step act).Inv := by
  cases act with
  | record item now => exact h.record item now hm
  | push => exact h.push
  | connect => exact h.connect hm
  | receive => exact h.receive
  | disconnect => exact h.disconnect
  | restart => exact h.restart
  | advance =>
    change s.advance.Inv
    unfold Sys.advance
    split
    · exact h
    · next stream hs =>
      obtain ⟨hpos, hok⟩ := h.stream stream hs
      obtain ⟨hsound, hpos', hok'⟩ := LedgerStream.advanced h.stored (h.sound hs) hpos hok
        (hm stream hs)
      rw [Sys.events, List.append_assoc, ← List.map_append] at hsound hok'
      exact {
        numbered := h.numbered
        buf := h.buf
        kept := h.kept
        projector := h.projector
        gapless := hsound.gapless
        marked := hsound.marked
        known := fun x hx => ⟨(hsound.known x hx).1.le, fun _ => (hsound.known x hx).2⟩
        idle := fun hn => nomatch hn
        life := fun x hx _ => (hsound.known x hx).1
        stream := fun stream' hs' => by
          obtain rfl := Option.some.inj hs'
          exact ⟨hpos', hok'⟩ }

/-- In every run whose steps meet the condition the client has no silent gap. -/
theorem no_silent_gap {capacity slots : Nat} {s : Sys} (h : (daemon capacity slots).Runs Sys.Meets s) :
    NoSilentGap s.log s.seen :=
  (h.invariant (I := Sys.Inv) (.start capacity slots) fun _ act hinv hm => hinv.step act hm).seen.1

def sampleTime : DateTime := .epoch

/-- A row is recorded. -/
def sampleRecord : List Act :=
  [.record (.event (.postInteraction (.research []) .owner [] 0 0)) sampleTime, .push, .push]

/-- The row under an id. -/
def sampleRow (id : Nat) : LedgerRow :=
  ⟨id, sampleTime, .intent, [], none, .ok, some 0, none, [], none⟩

/-- A client has the first of four rows when its connection breaks; the ring keeps two. -/
def sampleRun : List Act :=
  sampleRecord ++ [.connect, .advance, .advance, .receive, .disconnect] ++
    sampleRecord ++ sampleRecord ++ sampleRecord ++
    [.connect, .advance, .advance, .advance, .receive, .receive, .receive]

/-- The second row has expired; the notice counts it. -/
theorem no_silent_gap_sample : ∃ s, (daemon 2 16).Runs Sys.Meets s ∧ NoSilentGap s.log s.seen ∧
    s.seen = [.opened, .row ⟨0, sampleRow 1⟩, .opened, .notice 1 (.expired 1),
      .row ⟨0, sampleRow 3⟩, .row ⟨0, sampleRow 4⟩] := by
  have hrun : ((daemon 2 16).follow (fun s act => decide (s.Meets act)) (Sys.start 2 16)
      sampleRun).map Sys.seen = some [.opened, .row ⟨0, sampleRow 1⟩, .opened,
        .notice 1 (.expired 1), .row ⟨0, sampleRow 3⟩, .row ⟨0, sampleRow 4⟩] := by
    decide +kernel
  obtain ⟨s, hs, hseen⟩ := Option.map_eq_some_iff.mp hrun
  have hruns : (daemon 2 16).Runs Sys.Meets s :=
    .follow (fun _ _ hc => of_decide_eq_true hc) .start hs
  exact ⟨s, hruns, no_silent_gap hruns, hseen⟩

/-- The daemon restarts after the client's first row, and records two. -/
def restartRun : List Act :=
  sampleRecord ++ [.connect, .advance, .advance, .receive, .restart] ++
    sampleRecord ++ sampleRecord ++ [.connect, .advance, .advance, .advance, .receive]

/-- The first row of the new life is never delivered, and nothing tells of it. -/
theorem restart_skips_silently : ¬∀ capacity slots s,
    (daemon capacity slots).Runs (fun _ _ => True) s → NoSilentGap s.log s.seen := by
  intro hclaim
  have hrun : ((daemon 500 512).follow (fun _ _ => true) (Sys.start 500 512) restartRun).map
      (fun s => (s.log, s.seen)) =
      some ([⟨0, sampleRow 1⟩, ⟨1, sampleRow 1⟩, ⟨1, sampleRow 2⟩],
        [.opened, .row ⟨0, sampleRow 1⟩, .opened, .row ⟨1, sampleRow 2⟩]) := by
    decide +kernel
  obtain ⟨s, hs, hend⟩ := Option.map_eq_some_iff.mp hrun
  have hgap := hclaim 500 512 s (.follow (fun _ _ _ => trivial) .start hs)
  obtain ⟨hlog, hseen⟩ := Prod.mk.inj hend
  rw [hlog, hseen] at hgap
  obtain ⟨before, between, after, hsplit, hcount⟩ := hgap.announced
    [.opened, .row ⟨0, sampleRow 1⟩, .opened] ⟨1, sampleRow 2⟩ [] rfl ⟨0, sampleRow 1⟩ rfl
  obtain rfl : between = [] := List.length_eq_zero_iff.mp hcount.symm
  match before with
  | [] => simp [sampleRow] at hsplit
  | [_] => simp [sampleRow] at hsplit
  | _ :: _ :: rest =>
    have := congrArg List.length hsplit
    simp only [List.length_cons, List.length_append, List.length_nil] at this
    omega

end PulseNull.EventLedger
