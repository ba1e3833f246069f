import PulseNull.Oneself.Tail

/-! The books of a store: what its rows account for, and what it still owes a gap row for. -/
namespace PulseNull.Oneself
open Text (ascii newline Complete)
variable {env : Env}

/-- The events a file carries. -/
def Env.fileEvents (env : Env) (buf : Bytes) : List ReceiptEvent :=
  (Text.lines buf).filterMap fun l => env.eventOf l.bytes

/-- What a row accounts for: a gap row its losses, an event row itself. -/
def ReceiptEvent.reported : ReceiptEvent → Nat
  | .gap dropped _ _ => dropped.val
  | .genesis _ | .recover .. => 0
  | .boot _ | .opened _ | .close _ | .shutdown _ => 1

/-- The event of the row the store last tried to write, when that row is whole in the file. -/
def Store.landed (env : Env) (s : Store) : Option ReceiptEvent := do
  let l ← (Text.lines s.file).getLast?
  let value ← env.fromStr l.bytes
  let row ← (Row.ofValue value).toOption
  let event ← (ReceiptEvent.ofValue row.e).toOption
  if row.seq = s.nextSeq ∧ event.isRecover = false then some event else none

/-! The rows since the open. -/

/-- What the rows after the first `n₀` account for. -/
def tally (n₀ : Nat) (rows : List Accepted) : Nat :=
  (((rows.map Accepted.event).drop n₀).map ReceiptEvent.reported).sum

theorem tally_snoc {n₀ : Nat} {rows : List Accepted} (h : n₀ ≤ rows.length) (a : Accepted) :
    tally n₀ (rows ++ [a]) = tally n₀ rows + a.event.reported := by
  rw [tally, List.map_append, List.drop_append_of_le_length (by simpa using h)]
  simp [tally]

theorem Ledger.fileEvents {buf : Bytes} {rows : List Accepted} (h : Ledger env buf rows) :
    env.fileEvents buf = rows.map Accepted.event := by
  induction h with
  | nil => rfl
  | row h _ hl _ hc _ ih =>
    rw [Env.fileEvents, Text.lines_append_line h.complete hl, List.filterMap_append,
      List.map_append, ← ih]
    simp [Env.fileEvents, checkRow_eventOf hc]
  | recovered h _ ht _ hj hl _ hc _ ih =>
    rw [Env.fileEvents, Text.lines_append_line (h.complete.append (Text.complete_line _)) hl,
      Text.lines_append_line h.complete ht, List.filterMap_append, List.filterMap_append,
      List.map_append, ← ih]
    simp [Env.fileEvents, checkRow_eventOf hc, eventOf_torn hj]

private theorem recover_reported {event : ReceiptEvent} (h : event.isRecover = true) :
    event.reported = 0 := by
  cases event <;> simp_all [ReceiptEvent.isRecover, ReceiptEvent.reported]

theorem appendable_reported {event : ReceiptEvent} (h : event.appendable = true) :
    event.reported = 1 := by
  cases event <;> simp_all [ReceiptEvent.appendable, ReceiptEvent.isGenesis,
    ReceiptEvent.isRecover, ReceiptEvent.isGap, ReceiptEvent.reported]

/-! The books of a store. -/

/-- The clocks of the gap to come. -/
def ClockOk (s : Store) : Prop :=
  (∀ ts ∈ s.gapFirst, tsOk ts = true) ∧ ∀ ts ∈ s.gapLast, tsOk ts = true

/-- The rows account for `total` together with what is still to be reported. -/
structure Books (env : Env) (n₀ : Nat) (s : Store) (base : Bytes) (rows : List Accepted)
    (tail : Bytes) (landed : Option Accepted) (total : Nat) : Prop where
  standing : Standing env s base rows
  file : s.file = base ++ tail
  tail : Tail env base.length s.nextSeq s.prev tail landed
  clock : ClockOk s
  since : n₀ ≤ rows.length
  sum : tally n₀ rows + s.dropped.val = total

/-- Nothing to report, and nothing after the rows. -/
structure Settled (s : Store) (tail : Bytes) : Prop where
  unpoisoned : s.poisoned = false
  none_dropped : s.dropped = 0
  no_tail : tail = []

/-- A gap row is due. -/
structure Due (s : Store) : Prop where
  poisoned : s.poisoned = true
  some_dropped : 0 < s.dropped.val
  clocks : ∃ first last, s.gapFirst = some first ∧ s.gapLast = some last

/-- The seq ran out: no append succeeds any more. -/
structure Exhausted (s : Store) : Prop where
  last : s.nextSeq.val + 1 = 2^64
  large : maxReceiptBytes < s.file.length

inductive Inv (env : Env) (n₀ : Nat) (s : Store) (total : Nat) : Prop where
  | settled {base : Bytes} {rows : List Accepted} {tail : Bytes} {landed : Option Accepted} :
      Books env n₀ s base rows tail landed total → Settled s tail → Inv env n₀ s total
  | due {base : Bytes} {rows : List Accepted} {tail : Bytes} {landed : Option Accepted} :
      Books env n₀ s base rows tail landed total → Due s → Inv env n₀ s total
  | exhausted : Exhausted s → Inv env n₀ s total

variable {n₀ total : Nat} {s : Store} {base tail : Bytes} {rows : List Accepted}
  {landed : Option Accepted}

theorem Standing.of_fields {t : Store} (h : Standing env s base rows)
    (hseq : t.nextSeq = s.nextSeq) (hprev : t.prev = s.prev) : Standing env t base rows :=
  ⟨h.ledger, h.started, hseq ▸ h.seq, hprev ▸ h.head⟩

/-- One more loss is one more to report. -/
theorem Books.noteFailure (h : Books env n₀ s base rows tail landed total) (ts : Stamp)
    (hsat : s.dropped.val + 1 < 2^64) :
    Books env n₀ (s.noteFailure ts.val) base rows tail landed (total + 1) ∧
      Due (s.noteFailure ts.val) ∧ (s.noteFailure ts.val).dropped.val = s.dropped.val + 1 := by
  have hd : (s.noteFailure ts.val).dropped.val = s.dropped.val + 1 :=
    U64.saturatingAdd_val hsat
  refine ⟨⟨h.standing.of_fields rfl rfl, h.file, h.tail, ⟨?_, ?_⟩, h.since, ?_⟩,
    ⟨rfl, by omega, _, _, rfl, rfl⟩, hd⟩
  · intro t ht
    simp only [Store.noteFailure, Option.mem_some_iff] at ht
    subst ht
    cases hg : s.gapFirst with
    | none => exact ts.property
    | some first => exact h.clock.1 first hg
  · intro t ht
    simp only [Store.noteFailure, Option.mem_some_iff] at ht
    exact ht ▸ ts.property
  · rw [hd]
    have := h.sum
    omega

theorem Exhausted.noteFailure (h : Exhausted s) (ts : Stamp) : Exhausted (s.noteFailure ts.val) :=
  ⟨h.last, h.large⟩

theorem Inv.noteFailure (h : Inv env n₀ s total) (ts : Stamp) (hsat : s.dropped.val + 1 < 2^64) :
    Inv env n₀ (s.noteFailure ts.val) (total + 1) ∧
      ((s.noteFailure ts.val).dropped.val ≤ s.dropped.val + 1) := by
  have hd : (s.noteFailure ts.val).dropped.val = s.dropped.val + 1 :=
    U64.saturatingAdd_val hsat
  refine ⟨?_, hd.le⟩
  cases h with
  | settled h _ | due h _ => exact .due (h.noteFailure ts hsat).1 (h.noteFailure ts hsat).2.1
  | exhausted h => exact .exhausted (h.noteFailure ts)

theorem Inv.lose (h : Inv env n₀ s total) (n : Nat) (ts : Stamp)
    (hsat : s.dropped.val + n < 2^64) : Inv env n₀ (s.lose n ts) (total + n) := by
  have key : Inv env n₀ (s.lose n ts) (total + n) ∧ (s.lose n ts).dropped.val ≤ s.dropped.val + n := by
    induction n with
    | zero => exact ⟨h, le_rfl⟩
    | succ n ih =>
      obtain ⟨hi, hd⟩ := ih (by omega)
      obtain ⟨hi', hd'⟩ := hi.noteFailure ts (by omega)
      exact ⟨hi', by
        change ((s.lose n ts).noteFailure ts.val).dropped.val ≤ _
        omega⟩
  exact key.1

/-! Writing a row after the rows. -/

/-- A row that took the last seq leaves the store exhausted. -/
theorem Standing.exhausted_of_last {file : Bytes} (h : Standing env s base rows)
    (hlast : s.nextSeq.checkedAdd 1 = none) (hlen : base.length ≤ file.length) (prev : Bytes) :
    Exhausted { s with file := file, prev := prev } := by
  have h1 := h.nextSeq_eq_length
  have h2 := h.ledger.seq_lt.2
  have h3 := U64.checkedAdd_eq_none.mp hlast
  have h4 := s.nextSeq.isLt
  refine ⟨by simp only; omega, ?_⟩
  have : maxReceiptBytes < 2^64 - 1 := by decide
  simp only
  omega

/-- The write of a row that encodes: a failure is one more loss, a success one more row. -/
theorem Books.writeEvent (h : Books env n₀ s base rows tail landed total) (htail : tail = [])
    (hsat : s.dropped.val + 1 < 2^64) {event : ReceiptEvent} {ts : Stamp} {line : Bytes}
    {a : Accepted} (hline : env.encodeLine s.nextSeq s.prev ts.val event = .ok line)
    (ha : Encoded env s.nextSeq s.prev line a) (hr : a.event.isRecover = false)
    (write : Outcome?) : (∃ e, (s.writeEvent env event ts write).2 = .error e ∧
      Inv env n₀ (s.writeEvent env event ts write).1 (total + 1)) ∨
    ∃ head t, s.writeEvent env event ts write = (t, .ok head) ∧
      Books env n₀ t (base ++ (line ++ [newline])) (rows ++ [a]) [] none
        (total + a.event.reported) ∧
      t.poisoned = s.poisoned ∧ t.dropped = s.dropped ∧ t.gapFirst = s.gapFirst ∧
      t.gapLast = s.gapLast := by
  subst htail
  have hfile : s.file = base := by simpa using h.file
  cases write with
  | some k =>
    obtain ⟨landed', ht', _⟩ := tail_of_failed_write base.length ha hr k
    have hb : Books env n₀ { s with file := s.file ++ (withNewline line).take k } base rows
        ((withNewline line).take k) landed' total :=
      ⟨h.standing.of_fields rfl rfl, by rw [hfile], ht', h.clock, h.since, h.sum⟩
    have hw : s.writeEvent env event ts (some k) =
        (({ s with file := s.file ++ (withNewline line).take k }.noteFailure ts.val),
          .error (.append ({ s with file := s.file ++ (withNewline line).take k }.noteFailure
            ts.val).dropped)) := by
      simp only [Store.writeEvent, hline, writeAllSync]
    refine .inl ⟨_, congrArg Prod.snd hw, ?_⟩
    rw [hw]
    exact .due (hb.noteFailure ts hsat).1 (hb.noteFailure ts hsat).2.1
  | none =>
    cases hnext : s.nextSeq.checkedAdd 1 with
    | none =>
      refine .inl ⟨.row, ?_, ?_⟩
      · simp only [Store.writeEvent, hline, writeAllSync, hnext]
      · simp only [Store.writeEvent, hline, writeAllSync, hnext]
        exact .exhausted (h.standing.exhausted_of_last hnext (by simp [hfile]) _)
    | some next =>
      refine .inr ⟨⟨s.nextSeq, env.sha256Hex line⟩, { s with
        file := s.file ++ withNewline line, prev := env.sha256Hex line, nextSeq := next }, ?_, ?_⟩
      · simp only [Store.writeEvent, hline, writeAllSync, hnext]
      · have hl := h.standing.ledger_line ha hr
        obtain ⟨hseq, hhash⟩ := checkRow_seq ha.check
        refine ⟨⟨⟨hl, by simp, ?_, ?_⟩, ?_, .clean, h.clock, ?_, ?_⟩, rfl, rfl, rfl, rfl⟩
        · rw [nextSeq_snoc, hseq, hnext]
        · rw [headOf_snoc, hhash]
        · simp [hfile, withNewline]
        · have := h.since
          simp only [List.length_append]
          omega
        · rw [tally_snoc h.since]
          have := h.sum
          simp only
          omega

/-! The gap row. -/

/-- The gap row of a store that owes one encodes, and reports what was dropped. -/
private theorem Books.gap (h : Books env n₀ s base rows tail landed total) (hd : Due s)
    (ts : Stamp) : ∃ event line a, s.gapEvent = .ok event ∧
      env.encodeLine s.nextSeq s.prev ts.val event = .ok line ∧
      Encoded env s.nextSeq s.prev line a ∧ a.event.isRecover = false ∧
      a.event.reported = s.dropped.val := by
  obtain ⟨first, last, hf, hl⟩ := hd.clocks
  have hfirst := h.clock.1 first hf
  have hlast := h.clock.2 last hl
  have hchosen : tsOk (if last < first then first else last) = true ∧
      first ≤ if last < first then first else last := by
    split
    · exact ⟨hfirst, List.not_lt.mp (List.lt_irrefl first)⟩
    · next hlt => exact ⟨hlast, List.not_lt.mp hlt⟩
  obtain ⟨line, hline⟩ := gap_encodes env s.dropped h.standing.nextSeq_ne_zero h.standing.head_digest
    ts.property hfirst hchosen.1 hchosen.2
  obtain ⟨a, ha, he⟩ := encodeLine_encoded hline
  have hev : a.event = .gap s.dropped first (if last < first then first else last) :=
    (Except.ok.inj he).symm
  refine ⟨_, line, a, ?_, hline, ha, ?_, ?_⟩
  · simp only [Store.gapEvent, hf, hl]
  · rw [hev]
    rfl
  · rw [hev]
    rfl

/-- A gap row that fails is one more loss, one that lands settles the books. -/
theorem Books.writeGap (h : Books env n₀ s base rows tail landed total) (htail : tail = [])
    (hd : Due s) (hsat : s.dropped.val + 1 < 2^64) (ts : Stamp) (write : Outcome?) :
    (∃ e, (s.writeGap env ts write).2 = .error e ∧
      Inv env n₀ (s.writeGap env ts write).1 (total + 1)) ∨
    ∃ t base' rows', s.writeGap env ts write = (t, .ok ()) ∧
      Books env n₀ t base' rows' [] none total ∧ Settled t [] := by
  obtain ⟨event, line, a, hev, hline, ha, hr, hrep⟩ := h.gap hd ts
  rcases h.writeEvent htail hsat hline ha hr write with
    ⟨e, he, hi⟩ | ⟨head, t, hw, hb, _, hdrop, _, _⟩
  · refine .inl ⟨e, ?_⟩
    have hw : s.writeEvent env event ts write = ((s.writeEvent env event ts write).1, .error e) :=
      Prod.ext rfl he
    rw [Store.writeGap, hev]
    simp only
    rw [hw]
    exact ⟨rfl, hi⟩
  · refine .inr ⟨{ t with poisoned := false, dropped := 0, gapFirst := none, gapLast := none }, _,
      _, ?_, ⟨hb.standing.of_fields rfl rfl, hb.file, hb.tail, ⟨by simp, by simp⟩, hb.since, ?_⟩,
      ⟨rfl, rfl, rfl⟩⟩
    · simp only [Store.writeGap, hev, hw]
    · have := hb.sum
      rw [hdrop, hrep] at this
      simp only [Fin.val_zero]
      omega

/-! A resync keeps the books. -/

/-- A tail that holds the row that was being written. -/
theorem Standing.landed_eq {a : Accepted} (h : Standing env s base rows)
    (hf : s.file = base ++ tail) (ht : Tail env base.length s.nextSeq s.prev tail (some a)) :
    s.landed env = some a.event := by
  have key {line : Bytes} {terminated : Bool} (ha : Encoded env s.nextSeq s.prev line a)
      (hr : a.event.isRecover = false)
      (hl : Text.lines s.file = Text.lines base ++ [⟨line, terminated⟩]) :
      s.landed env = some a.event := by
    obtain ⟨row, event, hrow, rfl⟩ := checkRow_eq_ok.mp ha.check
    simp [Store.landed, hl, hrow.value, Row.ofValue_toValue (fromStr_normal hrow.value).2.1,
      hrow.decoded, hrow.seq_eq, Except.toOption, hr]
  cases ht with
  | whole ha hr =>
    exact key ha hr (by rw [hf, Text.lines_append_torn h.ledger.complete ha.noNewline ha.ne_nil])
  | line ha hr =>
    exact key ha hr (by rw [hf, Text.lines_append_line h.ledger.complete ha.noNewline])

private theorem uncount_dropped (s : Store) (h : 0 < s.dropped.val) :
    s.uncount.dropped.val + 1 = s.dropped.val := by
  have hv : (s.dropped.saturatingSub 1).val = s.dropped.val - 1 := by
    simp [U64.saturatingSub]
  unfold Store.uncount
  dsimp only
  split
  · simp only [hv]
    omega
  · simp only [hv]
    omega

private theorem uncount_due (s : Store) (h : Due s) : Due s.uncount ∨ s.uncount.poisoned = false ∧
    s.uncount.dropped = 0 := by
  unfold Store.uncount
  dsimp only
  split
  · next hz => exact .inr ⟨rfl, hz⟩
  · next hz =>
    refine .inl ⟨h.poisoned, ?_, h.clocks⟩
    exact Nat.pos_of_ne_zero fun h0 => hz (Fin.ext h0)

private theorem uncount_clock (s : Store) (h : ClockOk s) : ClockOk s.uncount := by
  unfold Store.uncount
  dsimp only
  split
  · exact ⟨by simp, by simp⟩
  · exact h

/-- After a resync that succeeds the books stand on whole rows, with the gap row due or not. -/
theorem Books.resync (h : Books env n₀ s base rows tail landed total) (hd : Due s)
    (hsound : ∀ event, s.landed env = some event →
      Text.utf8Valid s.file = true ∧ event.reported = 1) (ts : Stamp) (write : Outcome?) :
    (∃ t tail' e, s.resync env ts write = (t, .error e) ∧
      Books env n₀ t base rows tail' landed total ∧ t.dropped = s.dropped) ∨
    ∃ t base' rows', s.resync env ts write = (t, .ok ()) ∧
      Books env n₀ t base' rows' [] none total ∧ t.dropped.val ≤ s.dropped.val ∧
      (Due t ∨ Settled t []) := by
  have hres := h.standing.resync h.file h.tail ts write
  generalize s.resync env ts write = out at hres
  cases hres with
  | failed ht =>
    exact .inl ⟨_, _, _, rfl,
      ⟨h.standing.of_fields rfl rfl, rfl, ht, h.clock, h.since, h.sum⟩, rfl⟩
  | @kept file rows' next _ hl hrows hn =>
    have hsince : n₀ ≤ rows'.length ∧ tally n₀ rows' = tally n₀ rows ∧ rows' ≠ [] := by
      rcases hrows with rfl | ⟨r, hr, rfl⟩
      · exact ⟨h.since, rfl, h.standing.started⟩
      · refine ⟨by simpa using Nat.le_succ_of_le h.since, ?_, by simp⟩
        rw [tally_snoc h.since, recover_reported hr, Nat.add_zero]
    refine .inr ⟨_, file, rows', rfl, ⟨⟨hl, hsince.2.2, hn, rfl⟩, by simp, .clean, h.clock,
      hsince.1, ?_⟩, le_rfl, .inl ⟨hd.poisoned, hd.some_dropped, hd.clocks⟩⟩
    rw [hsince.2.1]
    exact h.sum
  | @committed file a next t hla hl hn hfile ht =>
    subst hla
    obtain ⟨hu, hrep⟩ := hsound a.event (h.standing.landed_eq h.file h.tail)
    obtain rfl := ht hu
    have hdrop := uncount_dropped { s with file := file } hd.some_dropped
    refine .inr ⟨_, file, rows ++ [a], rfl, ⟨⟨hl, by simp, hn, rfl⟩, by simp, .clean, ?_, ?_, ?_⟩,
      ?_, ?_⟩
    · exact uncount_clock { s with file := file } h.clock
    · simpa using Nat.le_succ_of_le h.since
    · rw [tally_snoc h.since, hrep]
      have := h.sum
      simp only at hdrop ⊢
      omega
    · simp only at hdrop ⊢
      omega
    · rcases uncount_due { s with file := file }
        ⟨hd.poisoned, hd.some_dropped, hd.clocks⟩ with hdue | ⟨hp, hz⟩
      · exact .inl ⟨hdue.poisoned, hdue.some_dropped, hdue.clocks⟩
      · exact .inr ⟨hp, hz, rfl⟩

/-! One step. -/

theorem Exhausted.writeEvent (h : Exhausted s) (event : ReceiptEvent) (ts : Stamp)
    (write : Outcome?) : (∃ e, (s.writeEvent env event ts write).2 = .error e) ∧
      Exhausted (s.writeEvent env event ts write).1 := by
  have hnext : s.nextSeq.checkedAdd 1 = none := U64.checkedAdd_eq_none.mpr h.last.ge
  unfold Store.writeEvent
  split
  · exact ⟨⟨_, rfl⟩, h⟩
  · next line _ =>
    cases write with
    | some k =>
      refine ⟨⟨_, rfl⟩, h.last, ?_⟩
      have := h.large
      simp only [writeAllSync, Store.noteFailure, List.length_append]
      omega
    | none =>
      simp only [writeAllSync, hnext]
      refine ⟨⟨_, rfl⟩, h.last, ?_⟩
      have := h.large
      simp only [List.length_append]
      omega

theorem Exhausted.prepare (h : Exhausted s) (io : AppendIo) :
    Exhausted (s.prepare env io).1 := by
  have hres : s.resync env io.repairTs io.repairWrite = (s, .error (.tooLarge s.file.length)) := by
    rw [Store.resync, readAll, if_pos h.large]
  unfold Store.prepare
  split
  · rw [hres]
    exact h.noteFailure io.lostTs
  · exact h

/-- What a step starts from: the store's condition, for an append. -/
theorem Books.prepare (h : Books env n₀ s base rows tail landed total) (hd : Due s)
    (hsat : s.dropped.val + 1 < 2^64)
    (hsound : ∀ event, s.landed env = some event →
      Text.utf8Valid s.file = true ∧ event.reported = 1) (io : AppendIo) :
    (∃ e, (s.prepare env io).2 = .error e ∧ Inv env n₀ (s.prepare env io).1 (total + 1)) ∨
    ∃ t base' rows', s.prepare env io = (t, .ok ()) ∧
      Books env n₀ t base' rows' [] none total ∧ Settled t [] := by
  rcases h.resync hd hsound io.repairTs io.repairWrite with
    ⟨t, tail', e, hr, hb, hdrop⟩ | ⟨t, base', rows', hr, hb, hdrop, hdue | hset⟩
  · have hp : s.prepare env io = (t.noteFailure io.lostTs.val, .error e) := by
      simp only [Store.prepare, hd.poisoned, hr, if_true]
    have hn := hb.noteFailure io.lostTs (by rw [hdrop]; exact hsat)
    exact .inl ⟨e, by rw [hp], by rw [hp]; exact .due hn.1 hn.2.1⟩
  · have hp : s.prepare env io = t.writeGap env io.gapTs io.gapWrite := by
      simp only [Store.prepare, hd.poisoned, hr, hdue.poisoned, if_true]
    rw [hp]
    exact hb.writeGap rfl hdue (by omega) io.gapTs io.gapWrite
  · have hp : s.prepare env io = (t, .ok ()) := by
      simp only [Store.prepare, hd.poisoned, hr, hset.unpoisoned, if_true, Bool.false_eq_true,
        if_false]
    exact .inr ⟨t, base', rows', hp, hb, hset⟩

end PulseNull.Oneself
