import PulseNull.Oneself.Chain

/-! What a file that verifies is made of: accepted row lines, and torn lines each
followed by the recover row that names them. -/
namespace PulseNull.Oneself
open Text (ascii newline Complete)
variable {env : Env}

/-! A map value has one canonical text. -/

mutual
private theorem canonical_print : ∀ {v : Json}, v.Normal →
    canonical v = (Json.print v).elim (.error .float) .ok
  | .null, _ | .bool true, _ | .bool false, _ | .num _, _ | .str _, _ => rfl
  | .arr items, h => by
    rw [canonical, Json.print, canonicalItems_print h]
    cases Json.printItems items <;> rfl
  | .obj members, h => by
    rw [canonical, Json.print, canonicalMembers_print h.2]
    cases hp : Json.printMembers members with
    | none => rfl
    | some ps =>
      have hs : sortMembers ps = ps := by
        have hk := h.1
        rw [Json.SortedKeys, ← Json.printMembers_keys hp] at hk
        exact ((List.pairwise_map.mp hk).imp List.le_of_lt).insertionSort_eq
      simp [hs, bind, Except.bind, pure, Except.pure]
private theorem canonicalItems_print : ∀ {vs : List Json}, Json.NormalItems vs →
    canonicalItems vs = (Json.printItems vs).elim (.error .float) .ok
  | [], _ => rfl
  | v :: vs, h => by
    rw [canonicalItems, Json.printItems, canonical_print h.1, canonicalItems_print h.2]
    cases Json.print v <;> cases Json.printItems vs <;> rfl
private theorem canonicalMembers_print : ∀ {ms : List (Bytes × Json)}, Json.NormalMembers ms →
    canonicalMembers ms = (Json.printMembers ms).elim (.error .float) .ok
  | [], _ => rfl
  | (k, v) :: ms, h => by
    rw [canonicalMembers, Json.printMembers, canonical_print h.1, canonicalMembers_print h.2]
    cases Json.print v <;> cases Json.printMembers ms <;> rfl
end

theorem canonical_eq_ok {v : Json} (h : v.Normal) {t : Bytes} :
    canonical v = .ok t ↔ Json.print v = some t := by
  rw [canonical_print h]
  cases Json.print v <;> simp

/-! The value of a row. -/

/-- The members of a row in key order. -/
def Row.members (row : Row) : List (Bytes × Json) :=
  [(ascii "e", row.e), (ascii "prev", .str row.prev), (ascii "seq", u64 row.seq),
    (ascii "ts", .str row.ts), (ascii "v", .num (.pos ⟨row.v.val, row.v_lt⟩))]

theorem Row.toValue_eq (row : Row) : row.toValue = .obj row.members := rfl

private theorem rowKeys_sorted (row : Row) : Json.SortedKeys row.members := by
  have : ([ascii "e", ascii "prev", ascii "seq", ascii "ts", ascii "v"] : List Bytes).Pairwise
      (· < ·) := by decide
  exact this

theorem Row.toValue_normal {row : Row} (h : row.e.Normal) : row.toValue.Normal :=
  ⟨rowKeys_sorted row, h, trivial, trivial, trivial, trivial, trivial⟩

theorem Row.ofValue_toValue {row : Row} (h : row.e.Normal) : Row.ofValue row.toValue = .ok row := by
  have hv : Json.decodeU32 (.num (.pos ⟨row.v.val, row.v_lt⟩)) = .ok row.v :=
    Json.decodeU32_eq_ok.mpr rfl
  have hvis : Json.recordMembers
      [.of (ascii "v") Json.decodeU32, .of (ascii "seq") Json.decodeU64,
       .of (ascii "prev") Json.decodeStr, .of (ascii "ts") Json.decodeStr,
       .of (ascii "e") decodeValue] row.toValue = .ok row.members := by
    rw [Row.toValue_eq]
    simp +decide [Json.recordMembers, Row.members, Json.visit, Json.Field.of, ensure, hv, u64, decodeValue,
      Json.decodeU64, Json.decodeStr, Except.map, bind, Except.bind, pure, Except.pure]
  rw [Row.ofValue, hvis]
  simp +decide [Json.required, Json.lookup, Row.members, hv, u64, decodeValue, Json.decodeU64,
    Json.decodeStr, bind, Except.bind, pure, Except.pure, Json.normalize_of_normal h]

/-- A row object has the members of its row and no others. -/
theorem Row.toValue_ofValue {v : Json} {row : Row} (hn : v.Normal) (ho : isObject v = true)
    (h : Row.ofValue v = .ok row) : v = row.toValue := by
  obtain ⟨ms, rfl⟩ : ∃ ms, v = .obj ms := by
    cases v <;> simp [isObject] at ho ⊢
  simp only [Row.ofValue, Json.recordMembers, bind_eq_ok, Json.required_eq_ok, Json.decodeU32_eq_ok,
    Json.decodeU64_eq_ok, Json.decodeStr_eq_ok, decodeValue, pure, Except.pure,
    Except.ok.injEq] at h
  obtain ⟨_, ⟨_, hvis, rfl⟩, v, ⟨_, hv, rfl⟩, seq, ⟨_, hseq, rfl⟩, prev, ⟨_, hprev, rfl⟩,
    ts, ⟨_, hts, rfl⟩, e, ⟨e', he, rfl⟩, rfl⟩ := h
  have hem := Json.lookup_mem he
  have hne : e'.normalize = e' := Json.normalize_of_normal (Json.normalMembers_mem hn.2 hem)
  rw [Row.toValue_eq, Json.obj.injEq]
  simp only [hne]
  refine Json.sortedKeys_ext hn.1 (rowKeys_sorted ⟨v, seq, prev, ts, e'⟩) ?_ ?_
  · intro m hm
    have hk := Json.visit_known hvis m hm
    simp only [Row.members, List.map_cons, List.map_nil, Json.Field.of, List.mem_cons,
      List.not_mem_nil, or_false] at hk ⊢
    tauto
  · intro f hf
    simp only [Row.members, List.mem_cons, List.not_mem_nil, or_false] at hf
    rcases hf with rfl | rfl | rfl | rfl | rfl
    · exact hem
    · exact Json.lookup_mem hprev
    · exact Json.lookup_mem hseq
    · exact Json.lookup_mem hts
    · exact Json.lookup_mem hv

/-! An accepted line. -/

/-- `bytes` is the canonical text of `row`, which follows `(seq, prev)` and carries `event`. -/
structure IsRow (env : Env) (bytes : Bytes) (seq : U64) (prev : Bytes) (row : Row)
    (event : ReceiptEvent) : Prop where
  value : env.fromStr bytes = some row.toValue
  text : Json.print row.toValue = some bytes
  noSig : hasSig row.toValue = false
  version : row.v = 1
  seq_eq : row.seq = seq
  prev_eq : row.prev = prev
  digest : digestOk prev = true
  clock : tsOk row.ts = true
  decoded : ReceiptEvent.ofValue row.e = .ok event
  genesis : event.isGenesis ↔ seq = 0
  gap : gapOk event = true
  digests : digestsOk event = true

theorem fromStr_normal {bytes : Bytes} {v : Json} (h : env.fromStr bytes = some v) : v.Normal := by
  unfold Env.fromStr at h
  split at h
  · obtain ⟨w, _, rfl⟩ := Option.map_eq_some_iff.mp h
    exact Json.normalize_normal w
  · simp at h

private theorem fromStr_row_normal {bytes : Bytes} {row : Row}
    (h : env.fromStr bytes = some row.toValue) : row.e.Normal :=
  (fromStr_normal h).2.1

private theorem stored_eq_ok {v : Json} (hn : v.Normal) {t : Bytes} {u : Unit} :
    storedLineIsCanonical v t = .ok u ↔ Json.print v = some t := by
  rw [← canonical_eq_ok hn]
  unfold storedLineIsCanonical
  split
  · next h => rw [h, ensure_eq_ok, Except.ok.injEq]
  · next h => simp [h]

/-- A line is accepted exactly when it is the next row, and its hash is that of its bytes. -/
theorem checkRow_eq_ok {bytes prev : Bytes} {seq : U64} {a : Accepted} :
    env.checkRow bytes seq prev = .ok a ↔ ∃ row event, IsRow env bytes seq prev row event ∧
      a = ⟨seq, env.sha256Hex bytes, row.ts, event⟩ := by
  constructor
  · intro h
    simp only [Env.checkRow, bind_eq_ok, ensure_eq_ok, mapError_eq_ok, pure, Except.pure,
      Except.ok.injEq, exists_const] at h
    obtain ⟨v, hv, hobj, hsig, hfloat, row, hrow, hver, hseq, ⟨hprev, hdig⟩, hts, event, hev, hgen,
      hgap, hdigs, _, hcanon, hash, hhash, rfl⟩ := h
    have hv : env.fromStr bytes = some v := by
      cases hf : env.fromStr bytes <;> simp_all
    have hn := fromStr_normal hv
    obtain rfl := Row.toValue_ofValue hn hobj hrow
    have ht := (stored_eq_ok hn).mp hcanon
    rw [Env.rowHash, (canonical_eq_ok hn).mpr ht] at hhash
    simp only [bind, Except.bind, pure, Except.pure, Except.ok.injEq] at hhash
    exact ⟨row, event, ⟨hv, ht, hsig, hver, hseq, hprev, hprev ▸ hdig, hts, hev, hseq ▸ hgen, hgap,
      hdigs⟩, by rw [hseq, hhash]⟩
  · rintro ⟨row, event, h, rfl⟩
    have hn := fromStr_normal h.value
    simp only [Env.checkRow, bind_eq_ok, ensure_eq_ok, mapError_eq_ok, pure, Except.pure,
      Except.ok.injEq, exists_const]
    refine ⟨row.toValue, by rw [h.value]; rfl, rfl, h.noSig, Json.hasFloat_of_print h.text, row,
      Row.ofValue_toValue (fromStr_row_normal h.value), h.version, h.seq_eq,
      ⟨h.prev_eq, h.prev_eq ▸ h.digest⟩, h.clock, event, h.decoded, h.seq_eq ▸ h.genesis, h.gap,
      h.digests, (), (stored_eq_ok hn).mpr h.text, env.sha256Hex bytes, ?_, by rw [h.seq_eq]⟩
    rw [Env.rowHash, (canonical_eq_ok hn).mpr h.text]
    rfl

theorem acceptsLine_iff {bytes prev : Bytes} {seq : U64} :
    env.acceptsLine bytes seq prev = true ↔ ∃ a, env.checkRow bytes seq prev = .ok a := by
  unfold Env.acceptsLine
  split
  · next a h => simp [h]
  · next h => simp [h]

/-- A line is a row in one way, whatever it was checked against. -/
theorem IsRow.unique {bytes prev prev' : Bytes} {seq seq' : U64} {row row' : Row}
    {event event' : ReceiptEvent} (h : IsRow env bytes seq prev row event)
    (h' : IsRow env bytes seq' prev' row' event') :
    seq = seq' ∧ prev = prev' ∧ row = row' ∧ event = event' := by
  have hv : row.toValue = row'.toValue := Option.some.inj (h.value ▸ h'.value)
  have hr := Row.ofValue_toValue (fromStr_row_normal h.value)
  rw [hv, Row.ofValue_toValue (fromStr_row_normal h'.value), Except.ok.injEq] at hr
  subst hr
  refine ⟨h.seq_eq.symm.trans h'.seq_eq, h.prev_eq.symm.trans h'.prev_eq, rfl, ?_⟩
  exact Except.ok.inj (h.decoded.symm.trans h'.decoded)

theorem checkRow_unique {bytes prev prev' : Bytes} {seq seq' : U64} {a a' : Accepted}
    (h : env.checkRow bytes seq prev = .ok a) (h' : env.checkRow bytes seq' prev' = .ok a') :
    seq = seq' ∧ prev = prev' ∧ a = a' := by
  obtain ⟨row, event, hr, rfl⟩ := checkRow_eq_ok.mp h
  obtain ⟨row', event', hr', rfl⟩ := checkRow_eq_ok.mp h'
  obtain ⟨rfl, rfl, rfl, rfl⟩ := hr.unique hr'
  exact ⟨rfl, rfl, rfl⟩

theorem checkRow_seq {bytes prev : Bytes} {seq : U64} {a : Accepted}
    (h : env.checkRow bytes seq prev = .ok a) : a.seq = seq ∧ a.hash = env.sha256Hex bytes := by
  obtain ⟨row, event, _, rfl⟩ := checkRow_eq_ok.mp h
  exact ⟨rfl, rfl⟩

theorem checkRow_validJson {bytes prev : Bytes} {seq : U64} {a : Accepted}
    (h : env.checkRow bytes seq prev = .ok a) : env.validJsonValue bytes = true := by
  obtain ⟨row, event, hr, _⟩ := checkRow_eq_ok.mp h
  rw [Env.validJsonValue, hr.value]
  rfl

/-- The event a line carries, when the line reads as a row. -/
def Env.eventOf (env : Env) (bytes : Bytes) : Option ReceiptEvent := do
  let value ← env.fromStr bytes
  let row ← (Row.ofValue value).toOption
  (ReceiptEvent.ofValue row.e).toOption

theorem checkRow_eventOf {bytes prev : Bytes} {seq : U64} {a : Accepted}
    (h : env.checkRow bytes seq prev = .ok a) : env.eventOf bytes = some a.event := by
  obtain ⟨row, event, hr, rfl⟩ := checkRow_eq_ok.mp h
  simp [Env.eventOf, hr.value, Row.ofValue_toValue (fromStr_row_normal hr.value), hr.decoded,
    Except.toOption]

theorem eventOf_torn {bytes : Bytes} (h : env.validJsonValue bytes = false) :
    env.eventOf bytes = none := by
  have : env.fromStr bytes = none := by simpa [Env.validJsonValue] using h
  simp [Env.eventOf, this]

/-! The rows of a file. -/

def nextSeq (rows : List Accepted) : Option U64 :=
  match rows.getLast? with
  | none => some 0
  | some a => a.seq.checkedAdd 1

def headOf (rows : List Accepted) : Bytes := (rows.getLast?.map Accepted.hash).getD genesisPrev

@[simp] theorem nextSeq_snoc (rows : List Accepted) (a : Accepted) :
    nextSeq (rows ++ [a]) = a.seq.checkedAdd 1 := by simp [nextSeq]

@[simp] theorem headOf_snoc (rows : List Accepted) (a : Accepted) :
    headOf (rows ++ [a]) = a.hash := by simp [headOf]

/-- The bytes `torn` at `offset` are what `a` recovers. -/
def Names (env : Env) (a : Accepted) (offset : Nat) (torn : Bytes) : Prop :=
  ∃ off len : U64, a.event = .recover off len (env.sha256Hex torn) ∧ off.val = offset ∧
    len.val = torn.length

/-- A buffer that is whole rows, oldest first. -/
inductive Ledger (env : Env) : Bytes → List Accepted → Prop where
  | nil : Ledger env [] []
  | row {buf line : Bytes} {rows : List Accepted} {seq : U64} {a : Accepted} :
      Ledger env buf rows → nextSeq rows = some seq → newline ∉ line →
      line.length ≤ maxLineBytes → env.checkRow line seq (headOf rows) = .ok a →
      a.event.isRecover = false → Ledger env (buf ++ (line ++ [newline])) (rows ++ [a])
  | recovered {buf torn line : Bytes} {rows : List Accepted} {seq : U64} {a : Accepted} :
      Ledger env buf rows → nextSeq rows = some seq → newline ∉ torn →
      torn.length ≤ maxLineBytes → env.validJsonValue torn = false → newline ∉ line →
      line.length ≤ maxLineBytes → env.checkRow line seq (headOf rows) = .ok a →
      Names env a buf.length torn →
      Ledger env (buf ++ (torn ++ [newline]) ++ (line ++ [newline])) (rows ++ [a])

theorem Ledger.complete {buf : Bytes} {rows : List Accepted} (h : Ledger env buf rows) :
    Complete buf := by
  induction h with
  | nil => exact Text.complete_nil
  | row _ _ _ _ _ _ ih => exact ih.append (Text.complete_line _)
  | recovered _ _ _ _ _ _ _ _ _ ih =>
    exact (ih.append (Text.complete_line _)).append (Text.complete_line _)

/-! The walk and the rows. -/

/-- Where the walk stands after accepting `rows`. -/
structure Walk.At (w : Walk) (rows : List Accepted) : Prop where
  expectedSeq : w.expectedSeq = nextSeq rows
  expectedPrev : w.expectedPrev = headOf rows
  count : w.index.report.rows = rows.length
  seq : w.index.report.seq = rows.getLast?.map Accepted.seq
  head : w.index.report.head = headOf rows
  noBreak : w.index.report.firstBreak = none

theorem Walk.start_at : Walk.start.At [] := ⟨rfl, rfl, rfl, rfl, rfl, rfl⟩

private theorem keepRow_report (index : ChainIndex) (a : Accepted) :
    (index.keepRow a).report = index.report := by
  unfold ChainIndex.keepRow
  cases a.event <;> rfl

theorem Walk.At.accept {w : Walk} {rows : List Accepted} (h : w.At rows) (keep : Bool)
    (a : Accepted) : (w.accept keep a).At (rows ++ [a]) := by
  have hr : (if keep then w.index.keepRow a else w.index).report = w.index.report := by
    cases keep
    · rfl
    · exact keepRow_report _ _
  refine ⟨by simp [Walk.accept], by simp [Walk.accept], ?_, by simp [Walk.accept],
    by simp [Walk.accept], ?_⟩
  · simp [Walk.accept, hr, h.count]
  · simp [Walk.accept, hr, h.noBreak]

theorem Walk.At.warn {w : Walk} {rows : List Accepted} (h : w.At rows) (line : Nat)
    (reason : Reason) : (w.warn line reason).At rows :=
  ⟨h.expectedSeq, h.expectedPrev, h.count, h.seq, h.head, h.noBreak⟩

theorem matchingRecover_eq_some {next torn : Phys} {seq : U64} {prev : Bytes} {a : Accepted} :
    env.matchingRecover next torn seq prev = some a ↔
      next.hasNewline = true ∧ next.bytes.length ≤ maxLineBytes ∧
        env.checkRow next.bytes seq prev = .ok a ∧ Names env a torn.offset torn.bytes := by
  unfold Env.matchingRecover
  split
  · next h =>
    simp only [reduceCtorEq, Bool.or_eq_true, Bool.not_eq_true', decide_eq_true_eq] at h ⊢
    rw [false_iff]
    rintro ⟨hnl, hlen, _⟩
    rcases h with h | h
    · simp [hnl] at h
    · omega
  next h =>
  simp only [Bool.or_eq_true, Bool.not_eq_true', decide_eq_true_eq, not_or, Bool.not_eq_false,
    not_lt] at h
  cases hc : env.checkRow next.bytes seq prev with
  | error r => simp
  | ok b =>
    simp only [h.1, h.2, true_and, Except.ok.injEq]
    have key : (∃ off len sha, b.event = .recover off len sha ∧ off.val = torn.offset ∧
        len.val = torn.bytes.length ∧ sha = env.sha256Hex torn.bytes) ↔
        Names env b torn.offset torn.bytes := by
      constructor
      · rintro ⟨off, len, _, he, ho, hl, rfl⟩
        exact ⟨off, len, he, ho, hl⟩
      · rintro ⟨off, len, he, ho, hl⟩
        exact ⟨off, len, _, he, ho, hl, rfl⟩
    cases hb : b.event with
    | recover off len sha =>
      simp only [hb, ReceiptEvent.recover.injEq] at key
      by_cases hm : off.val = torn.offset ∧ len.val = torn.bytes.length ∧
          sha = env.sha256Hex torn.bytes
      · simp only [hm, and_self, if_true, Option.some.injEq]
        exact ⟨fun h => ⟨h, h ▸ key.mp ⟨off, len, sha, ⟨rfl, rfl, rfl⟩, hm⟩⟩, And.left⟩
      · simp only [hm, if_false, reduceCtorEq, false_iff, not_and]
        rintro rfl hn
        obtain ⟨_, _, _, ⟨rfl, rfl, rfl⟩, h⟩ := key.mpr hn
        exact hm h
    | _ =>
      simp only [reduceCtorEq, false_iff, not_and]
      rintro rfl ⟨_, _, he, _⟩
      simp [hb] at he

theorem verdict_row {w : Walk} {rows : List Accepted} (hw : w.At rows) {line : Phys}
    {next : Option Phys} {a : Accepted} : env.verdict w line next = .row a ↔
      ∃ seq, nextSeq rows = some seq ∧ line.hasNewline = true ∧ line.bytes.length ≤ maxLineBytes ∧
        env.checkRow line.bytes seq (headOf rows) = .ok a ∧ a.event.isRecover = false := by
  unfold Env.verdict
  rw [hw.expectedSeq, hw.expectedPrev]
  split
  · next h =>
    simp only [reduceCtorEq, false_iff, not_exists, not_and]
    intro _ _ _ hle
    omega
  next hlen =>
  cases nextSeq rows with
  | none => simp
  | some seq =>
    simp only [Option.some.injEq, exists_eq_left']
    split
    · next ht =>
      have hn : ¬ (line.hasNewline = true ∧ ∃ a, env.checkRow line.bytes seq (headOf rows) = .ok a) := by
        rintro ⟨hnl, a, ha⟩
        simp [Env.tornPayload, hnl, checkRow_validJson ha] at ht
      constructor
      · intro h
        split at h <;> simp at h
      · rintro ⟨hnl, _, hc, _⟩
        exact absurd ⟨hnl, a, hc⟩ hn
    · next ht =>
      have hnl : line.hasNewline = true := by
        by_contra hf
        simp [Env.tornPayload, hf] at ht
      cases hc : env.checkRow line.bytes seq (headOf rows) with
      | error r => simp
      | ok b =>
        cases hb : b.event.isRecover with
        | true =>
          simp only [hb, if_true, reduceCtorEq, Except.ok.injEq, false_iff, not_and]
          rintro _ _ rfl
          simp [hb]
        | false =>
          simp only [hb, Bool.false_eq_true, if_false, Verdict.row.injEq, Except.ok.injEq]
          exact ⟨fun h => ⟨hnl, by omega, h, h ▸ hb⟩, fun h => h.2.2.1⟩

theorem verdict_recovered {w : Walk} {rows : List Accepted} (hw : w.At rows) {line : Phys}
    {next : Option Phys} {a : Accepted} : env.verdict w line next = .recovered a ↔
      ∃ seq n, nextSeq rows = some seq ∧ next = some n ∧ line.bytes.length ≤ maxLineBytes ∧
        env.tornPayload line = true ∧ n.hasNewline = true ∧ n.bytes.length ≤ maxLineBytes ∧
        env.checkRow n.bytes seq (headOf rows) = .ok a ∧ Names env a line.offset line.bytes := by
  unfold Env.verdict
  rw [hw.expectedSeq, hw.expectedPrev]
  split
  · next h =>
    simp only [reduceCtorEq, false_iff]
    rintro ⟨_, _, _, _, hle, _⟩
    omega
  next hlen =>
  cases nextSeq rows with
  | none => simp
  | some seq =>
    simp only [Option.some.injEq, exists_and_left, exists_eq_left']
    split
    · next ht =>
      cases next with
      | none => simp
      | some n =>
        simp only [Option.bind_some, Option.some.injEq, exists_eq_left', ht, true_and,
          ← matchingRecover_eq_some]
        cases hm : env.matchingRecover n line seq (headOf rows) with
        | none => simp
        | some b => simp only [Verdict.recovered.injEq, Option.some.injEq]; exact ⟨fun h => ⟨by omega, h⟩, And.right⟩
    · next ht =>
      simp only [ht, Bool.false_eq_true, false_and, and_false, exists_false, iff_false]
      intro h
      split at h
      · split at h <;> simp at h
      · simp at h

/-- A row does not look ahead. -/
theorem walkLines_row {keep : Bool} {w : Walk} {line : Phys} {rest : List Phys} {a : Accepted}
    (h : env.verdict w line rest.head? = .row a) :
    env.walkLines keep w (line :: rest) = env.walkLines keep (w.accept keep a) rest := by
  cases rest with
  | nil => simp only [Env.walkLines, show env.verdict w line none = .row a from h]
  | cons next rest =>
    conv_lhs => rw [Env.walkLines]
    simp only [show env.verdict w line (some next) = .row a from h]

theorem walkLines_recovered {keep : Bool} {w : Walk} {line next : Phys} {rest : List Phys}
    {a : Accepted} (h : env.verdict w line (some next) = .recovered a) :
    env.walkLines keep w (line :: next :: rest) =
      env.walkLines keep ((w.warn line.number .tornLine).accept keep a) rest := by
  conv_lhs => rw [Env.walkLines]
  simp only [h]

theorem walkLines_broken {keep : Bool} {w : Walk} {line : Phys} {rest : List Phys} {r : Reason}
    (h : env.verdict w line rest.head? = .broken r) :
    env.walkLines keep w (line :: rest) = w.breakAt line.number r := by
  cases rest with
  | nil => simp only [Env.walkLines, show env.verdict w line none = .broken r from h]
  | cons next rest =>
    rw [Env.walkLines]
    simp only [show env.verdict w line (some next) = .broken r from h]

/-- What the index keeps of a row. -/
def Accepted.indexed (a : Accepted) : IndexedRow := ⟨a.seq, a.hash, a.ts⟩

private theorem keepRow_rows (index : ChainIndex) (a : Accepted) :
    (index.keepRow a).rows = index.rows ++ [a.indexed] := by
  unfold ChainIndex.keepRow
  cases a.event <;> rfl

/-- What a walk has kept of `rows`. -/
def kept (keep : Bool) (rows : List Accepted) : List IndexedRow :=
  if keep then rows.map Accepted.indexed else []

private theorem accept_kept {keep : Bool} {w : Walk} {rows : List Accepted}
    (h : w.index.rows = kept keep rows) (a : Accepted) :
    (w.accept keep a).index.rows = kept keep (rows ++ [a]) := by
  cases keep
  · exact h
  · simp only [Walk.accept, if_true, keepRow_rows, h, kept, List.map_append, List.map_cons,
      List.map_nil]

/-- Walking past the rows of a ledger, whatever follows them. -/
theorem Ledger.walk_past {buf : Bytes} {rows : List Accepted} (h : Ledger env buf rows)
    (keep : Bool) : ∃ w : Walk, w.At rows ∧ w.index.rows = kept keep rows ∧ ∃ number, ∀ rest,
      env.walkLines keep .start (splitLines (buf ++ rest)) =
        env.walkLines keep w (physFrom number buf.length (Text.lines rest)) := by
  induction h with
  | nil =>
    refine ⟨.start, Walk.start_at, ?_, 1, fun rest => rfl⟩
    cases keep <;> rfl
  | @row buf line rows seq a _ hseq hline hlen hcheck hrec ih =>
    obtain ⟨w, hw, hk, number, ih⟩ := ih
    refine ⟨w.accept keep a, hw.accept keep a, accept_kept hk a, number + 1, fun rest => ?_⟩
    rw [List.append_assoc, ih, List.append_assoc, List.singleton_append, Text.lines_line hline,
      physFrom]
    rw [walkLines_row ((verdict_row hw).mpr ⟨seq, hseq, rfl, hlen, hcheck, hrec⟩)]
    simp [Text.Line.text]
  | @recovered buf torn line rows seq a _ hseq htorn htlen hjson hline hlen hcheck hnames ih =>
    obtain ⟨w, hw, hk, number, ih⟩ := ih
    have hk' : (w.warn number .tornLine).index.rows = kept keep rows := hk
    refine ⟨(w.warn number .tornLine).accept keep a, (hw.warn _ _).accept keep a, accept_kept hk' a,
      number + 2, fun rest => ?_⟩
    have hl : buf ++ (torn ++ [newline]) ++ (line ++ [newline]) ++ rest =
        buf ++ (torn ++ newline :: (line ++ newline :: rest)) := by simp
    rw [hl, ih, Text.lines_line htorn, physFrom, Text.lines_line hline, physFrom]
    rw [walkLines_recovered ((verdict_recovered hw).mpr ⟨seq, _, hseq, rfl, htlen, ?_, rfl, hlen,
      hcheck, hnames⟩)]
    · have ho : buf.length + (torn ++ [newline]).length + (line ++ [newline]).length =
          (buf ++ (torn ++ [newline]) ++ (line ++ [newline])).length := by
        simp only [List.length_append]
      rw [← ho]
      rfl
    · simp [Env.tornPayload, hjson]

theorem splitLines_eq_nil {buf : Bytes} : splitLines buf = [] ↔ buf = [] := by
  constructor
  · intro h
    rcases Text.first_line buf with hn | ⟨l, rest, hl, rfl⟩
    · by_contra hne
      simp [splitLines, Text.lines_unterminated hn hne, physFrom] at h
    · simp [splitLines, Text.lines_line hl, physFrom] at h
  · rintro rfl
    rfl

private theorem unterminated_broken (env : Env) {w : Walk} {rows : List Accepted} (hw : w.At rows)
    (line : Phys) (hnl : line.hasNewline = false) : ∃ r, env.verdict w line none = .broken r := by
  cases hv : env.verdict w line none with
  | broken r => exact ⟨r, rfl⟩
  | row a =>
    obtain ⟨_, _, h, _⟩ := (verdict_row hw).mp hv
    simp [hnl] at h
  | recovered a =>
    obtain ⟨_, _, _, h, _⟩ := (verdict_recovered hw).mp hv
    simp at h

/-- A walk that ends without a break read whole rows only. -/
private theorem ledger_of_walkLines {keep : Bool} {pre : Bytes} {rows : List Accepted}
    (h : Ledger env pre rows) {w : Walk} (hw : w.At rows) {number : Nat} {rest : Bytes}
    (hb : (env.walkLines keep w (physFrom number pre.length (Text.lines rest))).report.firstBreak =
      none) : ∃ rows', Ledger env (pre ++ rest) rows' := by
  induction hn : rest.length using Nat.strong_induction_on generalizing pre rows w number rest with
  | _ n ih =>
    subst hn
    rcases Text.first_line rest with hnl | ⟨l, rest', hl, rfl⟩
    · by_cases he : rest = []
      · exact ⟨rows, by rwa [he, List.append_nil]⟩
      · rw [Text.lines_unterminated hnl he, physFrom, physFrom] at hb
        obtain ⟨r, hr⟩ := unterminated_broken env hw
          ⟨number, pre.length, rest, false⟩ rfl
        rw [walkLines_broken (by simpa using hr)] at hb
        simp [Walk.breakAt] at hb
    · rw [Text.lines_line hl, physFrom] at hb
      cases hv : env.verdict w ⟨number, pre.length, l, true⟩
          (physFrom (number + 1) (pre.length + (⟨l, true⟩ : Text.Line).text.length)
            (Text.lines rest')).head? with
      | broken r =>
        rw [walkLines_broken hv] at hb
        simp [Walk.breakAt] at hb
      | row a =>
        obtain ⟨seq, hseq, _, hlen, hcheck, hrec⟩ := (verdict_row hw).mp hv
        rw [walkLines_row hv] at hb
        have hp : pre.length + (⟨l, true⟩ : Text.Line).text.length =
            (pre ++ (l ++ [newline])).length := by simp [Text.Line.text]
        rw [hp] at hb
        obtain ⟨rows', hl'⟩ := ih rest'.length (by simp; omega) (.row h hseq hl hlen hcheck hrec)
          (hw.accept keep a) hb rfl
        exact ⟨rows', by simpa using hl'⟩
      | recovered a =>
        obtain ⟨seq, next, hseq, hnext, hlen, htorn, hnnl, hnlen, hcheck, hnames⟩ :=
          (verdict_recovered hw).mp hv
        -- the recover row is a whole line, so it starts what is left
        rcases Text.first_line rest' with hnl | ⟨m, rest'', hm, rfl⟩
        · by_cases he : rest' = []
          · simp [he, physFrom] at hnext
          · rw [Text.lines_unterminated hnl he, physFrom, List.head?_cons, Option.some.injEq] at hnext
            simp [← hnext] at hnnl
        · rw [Text.lines_line hm, physFrom, List.head?_cons, Option.some.injEq] at hnext
          rw [Text.lines_line hm, physFrom, List.head?_cons, hnext] at hv
          rw [Text.lines_line hm, physFrom, hnext, walkLines_recovered hv] at hb
          subst hnext
          have hp : pre.length + (⟨l, true⟩ : Text.Line).text.length +
              (⟨m, true⟩ : Text.Line).text.length =
              (pre ++ (l ++ [newline]) ++ (m ++ [newline])).length := by
            simp only [Text.Line.text, if_true, List.length_append]
          rw [hp] at hb
          have hjson : env.validJsonValue l = false := by simpa [Env.tornPayload] using htorn
          obtain ⟨rows', hl'⟩ := ih rest''.length (by simp; omega)
            (.recovered h hseq hl hlen hjson hm hnlen hcheck hnames)
            ((hw.warn number .tornLine).accept keep a) hb rfl
          exact ⟨rows', by simpa using hl'⟩

/-- A file verifies exactly when it is a ledger. -/
theorem verifyLines_noBreak {buf : Bytes} :
    (env.verifyLines buf).firstBreak = none ↔ ∃ rows, Ledger env buf rows := by
  unfold Env.verifyLines Env.walk
  split
  · next h =>
    rw [splitLines_eq_nil.mp h]
    exact ⟨fun _ => ⟨[], .nil⟩, fun _ => rfl⟩
  · constructor
    · intro h
      simpa using ledger_of_walkLines .nil Walk.start_at h
    · rintro ⟨rows, hl⟩
      obtain ⟨w, hw, _, number, hp⟩ := hl.walk_past false
      have := hp []
      rw [List.append_nil, Text.lines_nil, physFrom] at this
      rw [this]
      simpa [Env.walkLines] using hw.noBreak

/-- The report of a ledger is about its rows. -/
theorem Ledger.report {buf : Bytes} {rows : List Accepted} (h : Ledger env buf rows) :
    (env.verifyLines buf).rows = rows.length ∧
      (env.verifyLines buf).seq = rows.getLast?.map Accepted.seq ∧
      (env.verifyLines buf).head = headOf rows ∧ (env.verifyLines buf).firstBreak = none := by
  unfold Env.verifyLines Env.walk
  split
  · next he =>
    cases h with
    | nil => exact ⟨rfl, rfl, rfl, rfl⟩
    | row => simp [splitLines_eq_nil] at he
    | recovered => simp [splitLines_eq_nil] at he
  · obtain ⟨w, hw, _, number, hp⟩ := h.walk_past false
    have := hp []
    rw [List.append_nil, Text.lines_nil, physFrom] at this
    rw [this]
    simp only [Env.walkLines]
    exact ⟨hw.count, hw.seq, hw.head, hw.noBreak⟩

/-- The index of a ledger keeps its rows. -/
theorem Ledger.indexBytes_rows {buf : Bytes} {rows : List Accepted} (h : Ledger env buf rows) :
    (env.indexBytes buf).rows = rows.map Accepted.indexed := by
  unfold Env.indexBytes Env.walk
  split
  · next he =>
    cases h with
    | nil => rfl
    | row => simp [splitLines_eq_nil] at he
    | recovered => simp [splitLines_eq_nil] at he
  · obtain ⟨w, hw, hk, number, hp⟩ := h.walk_past true
    have := hp []
    rw [List.append_nil, Text.lines_nil, physFrom] at this
    rw [this]
    simpa only [Env.walkLines, kept, if_true] using hk

theorem Ledger.rows_ne_nil {buf : Bytes} {rows : List Accepted} (h : Ledger env buf rows)
    (hne : buf ≠ []) : rows ≠ [] := by
  cases h with
  | nil => exact absurd rfl hne
  | row => simp
  | recovered => simp

/-- The last line of a nonempty ledger is a row. -/
theorem Ledger.last_line {pre line : Bytes} {rows : List Accepted}
    (h : Ledger env (pre ++ (line ++ [newline])) rows) (hp : Complete pre) (hl : newline ∉ line) :
    ∃ a ∈ rows.getLast?, env.eventOf line = some a.event := by
  generalize hbuf : pre ++ (line ++ [newline]) = buf at h
  cases h with
  | nil => simp at hbuf
  | row h _ hn _ hc _ =>
    obtain ⟨-, rfl⟩ := Text.last_line_unique hp h.complete hl hn hbuf
    exact ⟨_, by simp, checkRow_eventOf hc⟩
  | recovered h _ ht _ _ hn _ hc _ =>
    obtain ⟨-, rfl⟩ := Text.last_line_unique hp (h.complete.append (Text.complete_line _)) hl hn hbuf
    exact ⟨_, by simp, checkRow_eventOf hc⟩

/-- Rows are numbered from zero, and each takes at least one byte. -/
theorem Ledger.seq_lt {buf : Bytes} {rows : List Accepted} (h : Ledger env buf rows) :
    (∀ a ∈ rows.getLast?, a.seq.val + 1 = rows.length) ∧ rows.length ≤ buf.length := by
  have next {rows : List Accepted} {seq : U64} (hn : nextSeq rows = some seq)
      (ih : ∀ a ∈ rows.getLast?, a.seq.val + 1 = rows.length) : seq.val = rows.length := by
    unfold nextSeq at hn
    cases hr : rows.getLast? with
    | none =>
      simp only [hr, Option.some.injEq] at hn
      rw [List.getLast?_eq_none_iff.mp hr, ← hn]
      rfl
    | some a =>
      simp only [hr, U64.checkedAdd] at hn
      split at hn
      · rw [← ih a hr, ← Option.some.inj hn]
      · simp at hn
  induction h with
  | nil => simp
  | row _ hn _ _ hc _ ih =>
    have := next hn ih.1
    have h1 := (checkRow_seq hc).1
    simp only [List.getLast?_append, List.getLast?_singleton, Option.some_or, Option.mem_some_iff,
      forall_eq', List.length_append, List.length_cons, List.length_nil, h1]
    omega
  | recovered _ hn _ _ _ _ _ hc _ ih =>
    have := next hn ih.1
    have h1 := (checkRow_seq hc).1
    simp only [List.getLast?_append, List.getLast?_singleton, Option.some_or, Option.mem_some_iff,
      forall_eq', List.length_append, List.length_cons, List.length_nil, h1]
    omega

/-! A short file: a genesis row, the torn line `x`, and its recover row. -/

def sampleGenesis : Row :=
  ⟨1, 0, genesisPrev, ascii "2026-10-25T03:00:00.000Z", (ReceiptEvent.genesis (ascii "echo")).toValue⟩

def sampleTorn : Bytes := ascii "x"

def sampleRecover : Row :=
  ⟨1, 1, ascii "8fa0147ad6e4235d2938de010cd334e48fbd6891ec413d73e66bbd57a6ea33c8",
    ascii "2026-10-25T03:00:00.001Z",
    (ReceiptEvent.recover 160 1
      (ascii "2d711642b726b04401627ca9fbac32f5c8530fb1903cc4db02258717921a4881")).toValue⟩

def Row.line (row : Row) : Bytes := (Json.print row.toValue).getD []

/-- SHA-256 on the three lines. -/
def sampleSha (bytes : Bytes) : { digest : Bytes // digest.length = 32 } :=
  if bytes = sampleGenesis.line then
    ⟨[143, 160, 20, 122, 214, 228, 35, 93, 41, 56, 222, 1, 12, 211, 52, 228,
      143, 189, 104, 145, 236, 65, 61, 115, 230, 107, 189, 87, 166, 234, 51, 200], rfl⟩
  else if bytes = sampleTorn then
    ⟨[45, 113, 22, 66, 183, 38, 176, 68, 1, 98, 124, 169, 251, 172, 50, 245,
      200, 83, 15, 177, 144, 60, 196, 219, 2, 37, 135, 23, 146, 26, 72, 129], rfl⟩
  else if bytes = sampleRecover.line then
    ⟨[209, 28, 203, 254, 52, 247, 215, 216, 74, 171, 119, 123, 249, 34, 23, 58,
      135, 67, 156, 49, 150, 120, 253, 115, 190, 57, 179, 42, 15, 254, 154, 160], rfl⟩
  else ⟨List.replicate 32 1, rfl⟩

def sampleEnv : Env := ⟨sampleSha, fun _ => true⟩

def sampleFile : Bytes :=
  sampleGenesis.line ++ [newline] ++ (sampleTorn ++ [newline]) ++ (sampleRecover.line ++ [newline])

end PulseNull.Oneself
