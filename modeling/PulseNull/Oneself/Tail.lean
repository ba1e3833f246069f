import PulseNull.Oneself.Reopen
import PulseNull.Oneself.Encode

/-! The tails a failed write can leave after the rows of a file, and what a resync makes of
each of them. -/
namespace PulseNull.Oneself
open Text (ascii newline Complete)
variable {env : Env}

/-- A piece of a line that is not JSON. -/
structure Torn (env : Env) (p : Bytes) : Prop where
  nonempty : p ≠ []
  noNewline : newline ∉ p
  fits : p.length ≤ maxLineBytes
  notJson : env.validJsonValue p = false

/-- A whole line that is not JSON. -/
structure TornLine (env : Env) (p : Bytes) : Prop where
  noNewline : newline ∉ p
  fits : p.length ≤ maxLineBytes
  notJson : env.validJsonValue p = false

theorem Torn.line {p : Bytes} (h : Torn env p) : TornLine env p := ⟨h.noNewline, h.fits, h.notJson⟩

/-- What a failed write left after `offset` bytes of rows, the next row being `(seq, prev)`.
The last index is the row that landed whole, if one did. -/
inductive Tail (env : Env) (offset : Nat) (seq : U64) (prev : Bytes) :
    Bytes → Option Accepted → Prop where
  | clean : Tail env offset seq prev [] none
  | torn {p : Bytes} : Torn env p → Tail env offset seq prev p none
  | whole {line : Bytes} {a : Accepted} : Encoded env seq prev line a →
      a.event.isRecover = false → Tail env offset seq prev line (some a)
  | line {line : Bytes} {a : Accepted} : Encoded env seq prev line a →
      a.event.isRecover = false → Tail env offset seq prev (line ++ [newline]) (some a)
  | tornLine {p : Bytes} : Torn env p → Tail env offset seq prev (p ++ [newline]) none
  | recovering {p q : Bytes} : Torn env p → Torn env q →
      Tail env offset seq prev (p ++ [newline] ++ q) none
  | recovered {p line : Bytes} {a : Accepted} : Torn env p → Encoded env seq prev line a →
      Names env a offset p → Tail env offset seq prev (p ++ [newline] ++ line) none
  | closed {p line : Bytes} {a : Accepted} : Torn env p → Encoded env seq prev line a →
      Names env a offset p →
      Tail env offset seq prev (p ++ [newline] ++ (line ++ [newline])) none

theorem Encoded.ne_nil {seq : U64} {prev line : Bytes} {a : Accepted}
    (h : Encoded env seq prev line a) : line ≠ [] := checkRow_ne_nil h.check

theorem Encoded.prefix_torn {seq : U64} {prev line p s : Bytes} {a : Accepted}
    (h : Encoded env seq prev line a) (hl : line = p ++ s) (hp : p ≠ []) (hs : s ≠ []) :
    Torn env p := by
  refine ⟨hp, fun hm => h.noNewline (hl ▸ List.mem_append_left _ hm), ?_,
    Oneself.prefix_torn h.check hl hs⟩
  have := h.fits
  rw [hl, List.length_append] at this
  omega

/-- The first `k` bytes of a terminated line: nothing, a torn piece, the line, or all of it. -/
theorem Encoded.take_cases {seq : U64} {prev line : Bytes} {a : Accepted}
    (h : Encoded env seq prev line a) (k : Nat) :
    (withNewline line).take k = [] ∨ Torn env ((withNewline line).take k) ∨
      (withNewline line).take k = line ∨ (withNewline line).take k = line ++ [newline] := by
  rcases Nat.lt_trichotomy k line.length with hk | hk | hk
  · rw [withNewline, List.take_append_of_le_length (by omega)]
    by_cases h0 : line.take k = []
    · exact .inl h0
    · refine .inr (.inl (h.prefix_torn (List.take_append_drop k line).symm h0 ?_))
      intro he
      have := congrArg List.length he
      simp only [List.length_drop, List.length_nil] at this
      omega
  · refine .inr (.inr (.inl ?_))
    rw [withNewline, hk, List.take_left]
  · refine .inr (.inr (.inr ?_))
    rw [withNewline, List.take_of_length_le (by simp; omega)]

/-- A failed write of a row leaves one of the tails. -/
theorem tail_of_failed_write (offset : Nat) {seq : U64} {prev line : Bytes} {a : Accepted}
    (h : Encoded env seq prev line a) (hr : a.event.isRecover = false) (k : Nat) :
    ∃ landed, Tail env offset seq prev ((withNewline line).take k) landed ∧
      ∀ b ∈ landed, b = a := by
  rcases h.take_cases k with hk | hk | hk | hk
  · exact ⟨none, by rw [hk]; exact .clean, by simp⟩
  · exact ⟨none, .torn hk, by simp⟩
  · exact ⟨some a, by rw [hk]; exact .whole h hr, by simp⟩
  · exact ⟨some a, by rw [hk]; exact .line h hr, by simp⟩

/-! How each tail is classified. -/

theorem acceptsLine_torn {p : Bytes} (h : env.validJsonValue p = false) (seq : U64)
    (prev : Bytes) : env.acceptsLine p seq prev = false := by
  by_contra hf
  obtain ⟨a, ha⟩ := acceptsLine_iff.mp (by simpa using hf)
  simp [checkRow_validJson ha] at h

theorem toU64_eq {n : Nat} (h : n < 2^64) : toU64 n = .ok ⟨n, h⟩ := dif_pos h

/-- Where a store stands: its file starts with the rows it knows. -/
structure Standing (env : Env) (s : Store) (base : Bytes) (rows : List Accepted) : Prop where
  ledger : Ledger env base rows
  started : rows ≠ []
  seq : nextSeq rows = some s.nextSeq
  head : headOf rows = s.prev

theorem Standing.base_ne {s : Store} {base : Bytes} {rows : List Accepted}
    (h : Standing env s base rows) : base ≠ [] := by
  rintro rfl
  exact h.started (List.eq_nil_of_length_eq_zero (Nat.le_zero.mp h.ledger.seq_lt.2))

private theorem newline_mem {base : Bytes} {rows : List Accepted} (h : Ledger env base rows)
    (hne : base ≠ []) (tail : Bytes) : newline ∈ base ++ tail := by
  rcases h.complete with rfl | ⟨init, rfl⟩
  · exact absurd rfl hne
  · simp

/-- A tail without its newline that would verify with it. -/
private theorem classify_unterminated {base tail : Bytes} {rows rows' : List Accepted}
    (h : Ledger env base rows) (hne : base ≠ []) (hlast : (base ++ tail).getLast? ≠ some newline)
    (hl : Ledger env (base ++ tail ++ [newline]) rows') :
    env.classify (base ++ tail) = .ok .missingNewline := by
  have hm := newline_mem h hne tail
  rw [Env.classify, if_neg, if_pos ⟨hlast, hl.report.2.2.2⟩]
  rintro (he | ⟨hn, _⟩)
  · exact hne (List.append_eq_nil_iff.mp he).1
  · exact hn hm

/-- An unterminated torn piece after `pre`. -/
private theorem classify_torn_piece {pre p : Bytes} (hp : Complete pre) (hpre : newline ∈ pre)
    (ht : Torn env p) : env.classify (pre ++ p) =
      match (env.verifyLines pre).firstBreak with
      | some note => .ok (.broken note)
      | none => do
        let seq ← (env.verifyLines pre).nextSeq
        if (env.verifyLines pre).rows = 0 then return .broken ⟨1, .genesis⟩
        else return .torn (← toU64 pre.length) p true seq (env.verifyLines pre).head := by
  have hlast : (pre ++ p).getLast? ≠ some newline := by
    rw [List.getLast?_append_of_ne_nil _ ht.nonempty]
    exact fun h => ht.noNewline (List.mem_of_getLast? h)
  obtain ⟨note, hbreak⟩ := torn_tail_breaks hp ht.noNewline ht.notJson
  rw [Env.classify, if_neg, if_neg, splitLast_torn hp ht.noNewline ht.nonempty]
  · simp only [acceptsLine_torn ht.notJson, ht.notJson, Bool.false_eq_true, if_false,
      if_neg (Nat.not_lt.mpr ht.fits), Bool.not_false]
    all_goals rfl
  · rintro ⟨_, hb⟩
    rw [List.append_assoc, hbreak] at hb
    simp at hb
  · rintro (he | ⟨hn, _⟩)
    · exact ht.nonempty (List.append_eq_nil_iff.mp he).2
    · exact hn (List.mem_append_left _ hpre)

theorem Standing.classify_torn {s : Store} {base p : Bytes} {rows : List Accepted}
    (h : Standing env s base rows) (ht : Torn env p) (hlen : base.length ≤ maxReceiptBytes) :
    ∃ off : U64, off.val = base.length ∧
      env.classify (base ++ p) = .ok (.torn off p true s.nextSeq s.prev) := by
  have hb : base.length < 2^64 := Nat.lt_of_le_of_lt hlen (by decide)
  have hpre : newline ∈ base := by simpa using newline_mem h.ledger h.base_ne []
  refine ⟨⟨base.length, hb⟩, rfl, ?_⟩
  have hr := h.ledger.report
  rw [classify_torn_piece h.ledger.complete hpre ht, hr.2.2.2]
  simp [h.ledger.report_nextSeq, h.seq, hr.1, h.started, toU64_eq hb, hr.2.2.1, h.head, bind,
    Except.bind, pure, Except.pure]

theorem Standing.classify_tornLine {s : Store} {base p : Bytes} {rows : List Accepted}
    (h : Standing env s base rows) (ht : TornLine env p) (hb : base.length < 2^64) :
    ∃ off : U64, off.val = base.length ∧
      env.classify (base ++ (p ++ [newline])) = .ok (.torn off p false s.nextSeq s.prev) := by
  refine ⟨⟨base.length, hb⟩, rfl, ?_⟩
  have hr := h.ledger.report
  rw [classify_line h.ledger.complete ht.noNewline, hr.2.2.2]
  simp [h.ledger.report_nextSeq, h.seq, hr.1, h.started, toU64_eq hb, hr.2.2.1, h.head, bind,
    Except.bind, pure, Except.pure, acceptsLine_torn ht.notJson, ht.notJson,
    if_neg (Nat.not_lt.mpr ht.fits)]

theorem Standing.classify_recovering {s : Store} {base p q : Bytes} {rows : List Accepted}
    (h : Standing env s base rows) (ht : TornLine env p) (hq : Torn env q) :
    ∃ note, env.classify (base ++ (p ++ [newline] ++ q)) = .ok (.broken note) := by
  obtain ⟨note, hn⟩ := torn_tail_breaks h.ledger.complete ht.noNewline ht.notJson
  refine ⟨note, ?_⟩
  rw [← List.append_assoc, classify_torn_piece
    (h.ledger.complete.append (Text.complete_line p)) (by simp) hq, hn]

/-- A row after the rows. -/
theorem Standing.ledger_line {s : Store} {base line : Bytes} {rows : List Accepted} {a : Accepted}
    (h : Standing env s base rows) (ha : Encoded env s.nextSeq s.prev line a)
    (hr : a.event.isRecover = false) : Ledger env (base ++ (line ++ [newline])) (rows ++ [a]) :=
  .row h.ledger h.seq ha.noNewline ha.fits (h.head ▸ ha.check) hr

/-- A torn line and its recover row after the rows. -/
theorem Standing.ledger_recovered {s : Store} {base p line : Bytes} {rows : List Accepted}
    {a : Accepted} (h : Standing env s base rows) (ht : TornLine env p)
    (ha : Encoded env s.nextSeq s.prev line a) (hn : Names env a base.length p) :
    Ledger env (base ++ (p ++ [newline]) ++ (line ++ [newline])) (rows ++ [a]) :=
  .recovered h.ledger h.seq ht.noNewline ht.fits ht.notJson ha.noNewline ha.fits
    (h.head ▸ ha.check) hn

private theorem last_ne_newline {base line : Bytes} (hne : line ≠ []) (hl : newline ∉ line) :
    (base ++ line).getLast? ≠ some newline := by
  rw [List.getLast?_append_of_ne_nil _ hne]
  exact fun h => hl (List.mem_of_getLast? h)

theorem Standing.classify_whole {s : Store} {base line : Bytes} {rows : List Accepted}
    {a : Accepted} (h : Standing env s base rows) (ha : Encoded env s.nextSeq s.prev line a)
    (hr : a.event.isRecover = false) : env.classify (base ++ line) = .ok .missingNewline :=
  classify_unterminated h.ledger h.base_ne (last_ne_newline ha.ne_nil ha.noNewline)
    (by simpa using h.ledger_line ha hr)

theorem Standing.classify_closed_row {s : Store} {base line : Bytes} {rows : List Accepted}
    {a : Accepted} (h : Standing env s base rows) (ha : Encoded env s.nextSeq s.prev line a) :
    env.classify (base ++ (line ++ [newline])) = .ok .ready :=
  classify_row h.ledger h.seq ha.noNewline (h.head ▸ ha.check)

theorem Standing.classify_recovered {s : Store} {base p line : Bytes} {rows : List Accepted}
    {a : Accepted} (h : Standing env s base rows) (ht : TornLine env p)
    (ha : Encoded env s.nextSeq s.prev line a) (hn : Names env a base.length p) :
    env.classify (base ++ (p ++ [newline] ++ line)) = .ok .missingNewline := by
  refine classify_unterminated h.ledger h.base_ne ?_ (by simpa using h.ledger_recovered ht ha hn)
  rw [← List.append_assoc]
  exact last_ne_newline ha.ne_nil ha.noNewline

/-- The last row of a ledger and its line. -/
theorem Ledger.exists_last {buf : Bytes} {rows : List Accepted} (h : Ledger env buf rows)
    (hne : rows ≠ []) : ∃ pre line seq prev a, Complete pre ∧ newline ∉ line ∧
      buf = pre ++ (line ++ [newline]) ∧ env.checkRow line seq prev = .ok a ∧
      nextSeq rows = seq.checkedAdd 1 ∧ headOf rows = env.sha256Hex line := by
  cases h with
  | nil => exact absurd rfl hne
  | row h _ hl _ hc _ =>
    exact ⟨_, _, _, _, _, h.complete, hl, rfl, hc, by rw [nextSeq_snoc, (checkRow_seq hc).1],
      by rw [headOf_snoc, (checkRow_seq hc).2]⟩
  | recovered h _ ht _ _ hl _ hc _ =>
    exact ⟨_, _, _, _, _, h.complete.append (Text.complete_line _), hl, rfl, hc,
      by rw [nextSeq_snoc, (checkRow_seq hc).1], by rw [headOf_snoc, (checkRow_seq hc).2]⟩

theorem Standing.nextSeq_eq_length {s : Store} {base : Bytes} {rows : List Accepted}
    (h : Standing env s base rows) : s.nextSeq.val = rows.length := by
  have hs := h.seq
  unfold nextSeq at hs
  cases hr : rows.getLast? with
  | none => exact absurd (List.getLast?_eq_none_iff.mp hr) h.started
  | some a =>
    simp only [hr, U64.checkedAdd_eq_some] at hs
    rw [hs, h.ledger.seq_lt.1 a hr]

theorem Standing.nextSeq_ne_zero {s : Store} {base : Bytes} {rows : List Accepted}
    (h : Standing env s base rows) : s.nextSeq ≠ 0 := by
  have hn := h.nextSeq_eq_length
  have hpos := List.length_pos_of_ne_nil h.started
  intro h0
  rw [h0, Fin.val_zero] at hn
  omega

theorem Standing.head_digest {s : Store} {base : Bytes} {rows : List Accepted}
    (h : Standing env s base rows) : digestOk s.prev = true := by
  obtain ⟨pre, line, seq, prev, a, _, _, _, _, _, hh⟩ := h.ledger.exists_last h.started
  rw [← h.head, hh]
  exact sha256Hex_digestOk env line

/-- Nothing after the rows: the attempt did not land. -/
theorem Standing.not_committed {s : Store} {base : Bytes} {rows : List Accepted}
    (h : Standing env s base rows) : env.committedAttempt base s.nextSeq = false := by
  obtain ⟨pre, line, seq, prev, a, hp, hl, rfl, hc, hn, _⟩ := h.ledger.exists_last h.started
  rw [committedAttempt_row _ hp hl hc]
  have hne : seq ≠ s.nextSeq := by
    rintro rfl
    rw [h.seq, U64.checkedAdd] at hn
    split at hn
    · have := congrArg Fin.val (Option.some.inj hn)
      simp at this
    · simp at hn
  simp [hne]

/-! A resync. -/

/-- Reading back a file that is whole rows. -/
theorem reposition_ledger (s : Store) {rows : List Accepted} (h : Ledger env s.file rows)
    (hlen : s.file.length ≤ maxReceiptBytes) : ∃ next, nextSeq rows = some next ∧
      s.reposition env =
        ({ s.settle env s.file with nextSeq := next, prev := headOf rows }, .ok ()) := by
  obtain ⟨next, hn⟩ := h.nextSeq_eq_some hlen
  refine ⟨next, hn, ?_⟩
  have hread : readAll s.file = .ok s.file := by
    rw [readAll, if_neg (by omega)]
  simp only [Store.reposition, hread, h.report.2.2.2, h.report_nextSeq, hn, Option.elim_some,
    h.report.2.2.1]

/-- What a resync ends in: an error and some tail; the rows, with or without a new recover row;
or the rows and the row that had landed. -/
inductive Resynced (env : Env) (s : Store) (base : Bytes) (rows : List Accepted)
    (landed : Option Accepted) : Store × Except StoreError Unit → Prop where
  | failed {tail : Bytes} {e : StoreError} :
      Tail env base.length s.nextSeq s.prev tail landed →
      Resynced env s base rows landed ({ s with file := base ++ tail }, .error e)
  | kept {file : Bytes} {rows' : List Accepted} {next : U64} : landed = none →
      Ledger env file rows' → (rows' = rows ∨ ∃ r, r.event.isRecover = true ∧ rows' = rows ++ [r]) →
      nextSeq rows' = some next →
      Resynced env s base rows landed
        ({ s with file := file, nextSeq := next, prev := headOf rows' }, .ok ())
  | committed {file : Bytes} {a : Accepted} {next : U64} {t : Store} : landed = some a →
      Ledger env file (rows ++ [a]) → nextSeq (rows ++ [a]) = some next → t.file = file →
      (Text.utf8Valid s.file = true → t = { s with file := file }.uncount) →
      Resynced env s base rows landed
        ({ t with nextSeq := next, prev := headOf (rows ++ [a]) }, .ok ())

variable {s : Store} {base : Bytes} {rows : List Accepted}

private theorem resync_failed {landed : Option Accepted} {tail : Bytes} {e : StoreError}
    (hf : s.file = base ++ tail) (ht : Tail env base.length s.nextSeq s.prev tail landed) :
    Resynced env s base rows landed (s, .error e) := by
  have : Resynced env s base rows landed ({ s with file := base ++ tail }, .error e) := .failed ht
  rwa [← hf] at this

/-- After a repair that ends in a recover row. -/
private theorem resync_recovered {p line : Bytes} {a : Accepted} {t : Store}
    (h : Standing env s base rows) (ht : Torn env p) (ha : Encoded env s.nextSeq s.prev line a)
    (hn : Names env a base.length p)
    (htf : t = { s with file := base ++ (p ++ [newline]) ++ (line ++ [newline]) })
    (hlen : t.file.length ≤ maxReceiptBytes) :
    Resynced env s base rows none (t.reposition env) := by
  subst htf
  have hl := h.ledger_recovered ht.line ha hn
  obtain ⟨next, hnext, hrep⟩ := reposition_ledger { s with file := _ } hl hlen
  have hrec : a.event.isRecover = true := by
    obtain ⟨off, len, he, _⟩ := hn
    rw [he]
    rfl
  have hc : env.committedAttempt (base ++ (p ++ [newline]) ++ (line ++ [newline])) s.nextSeq =
      false := by
    rw [committedAttempt_row _ (h.ledger.complete.append (Text.complete_line _)) ha.noNewline
      ha.check]
    simp [hrec]
  rw [hrep]
  simp only [Store.settle, hc, Bool.false_eq_true, if_false]
  exact .kept rfl hl (.inr ⟨a, hrec, rfl⟩) hnext

/-- After a repair, or none, that ends in the row that was being written. -/
private theorem resync_committed {line : Bytes} {a : Accepted} {t : Store}
    (h : Standing env s base rows) (ha : Encoded env s.nextSeq s.prev line a)
    (hr : a.event.isRecover = false) (htf : t = { s with file := base ++ (line ++ [newline]) })
    (hutf : Text.utf8Valid s.file = true → Text.utf8Valid t.file = true)
    (hlen : t.file.length ≤ maxReceiptBytes) :
    Resynced env s base rows (some a) (t.reposition env) := by
  subst htf
  have hl := h.ledger_line ha hr
  obtain ⟨next, hnext, hrep⟩ := reposition_ledger { s with file := _ } hl hlen
  have hc := committedAttempt_row s.nextSeq h.ledger.complete ha.noNewline ha.check
  rw [hrep]
  refine .committed rfl hl hnext (settle_file _ _) ?_
  intro hu
  rw [Store.settle, hc, hutf hu]
  simp [hr]

section repair
variable {ts : Stamp} {write : Outcome?} {c : Class}

private theorem read_ok (hlen : s.file.length ≤ maxReceiptBytes) : readAll s.file = .ok s.file := by
  rw [readAll, if_neg (by omega)]

private theorem resync_broken {note : VerifyNote} (hlen : s.file.length ≤ maxReceiptBytes)
    (hc : env.classify s.file = .ok (.broken note)) :
    s.resync env ts write = (s, .error (.broken note)) := by
  simp only [Store.resync, read_ok hlen, hc, Env.repairClass, Env.repairPlan]

private theorem resync_ready (hlen : s.file.length ≤ maxReceiptBytes)
    (hc : env.classify s.file = .ok .ready) : s.resync env ts write = s.reposition env := by
  simp only [Store.resync, read_ok hlen, hc, Env.repairClass, Env.repairPlan]

/-- A repair is refused, or fails after a prefix of its record, or the file is read back. -/
private theorem resync_write {P : Store × Except StoreError Unit → Prop}
    (hlen : s.file.length ≤ maxReceiptBytes) (hc : env.classify s.file = .ok c)
    (hplan : (∃ e, env.repairPlan s.file c ts = .error e) ∨
      ∃ record, (env.repairPlan s.file c ts = .ok (some record, .newline) ∨
        env.repairPlan s.file c ts = .ok (some record, .recovered)) ∧
        (s.file ++ record).length ≤ maxReceiptBytes ∧
        (∀ k, P ({ s with file := s.file ++ record.take k }, .error .io)) ∧
        P ({ s with file := s.file ++ record }.reposition env))
    (hrefused : ∀ e, P (s, .error e)) : P (s.resync env ts write) := by
  simp only [Store.resync, read_ok hlen, hc]
  rcases hplan with ⟨e, he⟩ | ⟨record, hp, _, hfail, hok⟩
  · simp only [Env.repairClass, he]
    exact hrefused e
  · cases write with
    | none =>
      rcases hp with hp | hp <;> simp only [Env.repairClass, hp, writeAllSync] <;> exact hok
    | some k =>
      rcases hp with hp | hp <;> simp only [Env.repairClass, hp, writeAllSync] <;> exact hfail k

end repair

private theorem newline_plan (env : Env) (ts : Stamp) (file : Bytes) :
    (∃ e, env.repairPlan file .missingNewline ts = .error e) ∨
      env.repairPlan file .missingNewline ts = .ok (some [newline], .newline) ∧
        (file ++ [newline]).length ≤ maxReceiptBytes := by
  simp only [Env.repairPlan, ensureRepairFits, ensure]
  split
  · next h => exact .inr ⟨rfl, by simpa using h⟩
  · exact .inl ⟨_, rfl⟩

/-- A torn tail's plan is refused or writes a recover row that names it. -/
theorem torn_plan (env : Env) (ts : Stamp) (file p prev : Bytes) (off seq : U64) (needs : Bool) :
    (∃ e, env.repairPlan file (.torn off p needs seq prev) ts = .error e) ∨
      ∃ line a, Encoded env seq prev line a ∧ Names env a off.val p ∧
        env.repairPlan file (.torn off p needs seq prev) ts =
          .ok (some (if needs then newline :: withNewline line else withNewline line), .recovered) ∧
        (file ++ if needs then newline :: withNewline line else withNewline line).length ≤
          maxReceiptBytes := by
  cases hlen : toU64 p.length with
  | error e => exact .inl ⟨e, by simp [Env.repairPlan, hlen, bind, Except.bind]⟩
  | ok len =>
    cases hline : env.encodeLine seq prev ts.val (.recover off len (env.sha256Hex p)) with
    | error e => exact .inl ⟨e, by simp [Env.repairPlan, hlen, hline, bind, Except.bind]⟩
    | ok line =>
      obtain ⟨a, ha, hev⟩ := encodeLine_encoded hline
      have hname : a.event = .recover off len (env.sha256Hex p) := (Except.ok.inj hev).symm
      have hl : len.val = p.length := by
        unfold toU64 at hlen
        split at hlen
        · exact congrArg Fin.val (Except.ok.inj hlen).symm
        · simp at hlen
      simp only [Env.repairPlan, hlen, hline, bind, Except.bind, ensureRepairFits, ensure, pure,
        Except.pure]
      by_cases hfit : file.length +
          (if needs then newline :: withNewline line else withNewline line).length ≤ maxReceiptBytes
      · rw [if_pos hfit]
        exact .inr ⟨line, a, ha, ⟨off, len, hname, rfl, hl⟩, rfl, by rwa [List.length_append]⟩
      · rw [if_neg hfit]
        exact .inl ⟨_, rfl⟩

/-- What is in the file after a failed write of a recover row. -/
private theorem tail_of_failed_recover {p line : Bytes} {a : Accepted} (hp : Torn env p)
    (ha : Encoded env s.nextSeq s.prev line a) (hn : Names env a base.length p) (k : Nat) :
    Tail env base.length s.nextSeq s.prev (p ++ [newline] ++ (withNewline line).take k) none := by
  rcases ha.take_cases k with hk | hk | hk | hk
  · rw [hk, List.append_nil]
    exact .tornLine hp
  · exact .recovering hp hk
  · rw [hk]
    exact .recovered hp ha hn
  · rw [hk]
    exact .closed hp ha hn

/-- A resync ends in one of three ways, whatever the last failed write left behind. -/
theorem Standing.resync {tail : Bytes} {landed : Option Accepted} (h : Standing env s base rows)
    (hf : s.file = base ++ tail) (ht : Tail env base.length s.nextSeq s.prev tail landed)
    (ts : Stamp) (write : Outcome?) : Resynced env s base rows landed (s.resync env ts write) := by
  by_cases hlen : s.file.length ≤ maxReceiptBytes
  case neg =>
    have : s.resync env ts write = (s, .error (.tooLarge s.file.length)) := by
      rw [Store.resync, readAll, if_pos (by omega)]
    rw [this]
    exact resync_failed hf ht
  have hbase : base.length ≤ maxReceiptBytes := by
    rw [hf, List.length_append] at hlen
    omega
  have hrefused : ∀ e, Resynced env s base rows landed (s, .error e) := fun e => resync_failed hf ht
  have same {file : Bytes} (hfile : s.file = file) : s = { s with file := file } := by rw [← hfile]
  cases ht with
  | clean =>
    rw [List.append_nil] at hf
    subst hf
    rcases h.ledger.classify_cases h.base_ne with hc | ⟨note, hc⟩
    · rw [resync_ready hlen hc]
      obtain ⟨next, hnext, hrep⟩ := reposition_ledger s h.ledger hlen
      rw [hrep, Store.settle, h.not_committed]
      exact .kept rfl h.ledger (.inl rfl) hnext
    · rw [resync_broken hlen hc]
      exact hrefused _
  | torn hp =>
    obtain ⟨off, hoff, hc⟩ := h.classify_torn hp hbase
    refine resync_write hlen (hf ▸ hc) ?_ hrefused
    rcases torn_plan env ts s.file tail s.prev off s.nextSeq true with he | hplan
    · exact .inl he
    obtain ⟨line, a, ha, hn, hplan, hfit⟩ := hplan
    rw [hoff] at hn
    simp only [if_true] at hplan hfit
    refine .inr ⟨_, .inr hplan, hfit, fun k => ?_, ?_⟩
    · rw [hf, List.append_assoc]
      cases k with
      | zero => exact .failed (by simpa using Tail.torn hp)
      | succ k =>
        refine .failed ?_
        simpa using tail_of_failed_recover hp ha hn k
    · refine resync_recovered h hp ha hn ?_ (by simpa using hfit)
      simp [hf, withNewline]
  | @whole _ a ha hr =>
    have hc := h.classify_whole ha hr
    refine resync_write hlen (hf ▸ hc) ?_ hrefused
    rcases newline_plan env ts s.file with he | ⟨hplan, hfit⟩
    · exact .inl he
    refine .inr ⟨_, .inl hplan, hfit, fun k => ?_, ?_⟩
    · rw [hf, List.append_assoc]
      cases k with
      | zero => exact .failed (by simpa using Tail.whole ha hr)
      | succ k => exact .failed (by simpa using Tail.line ha hr)
    · refine resync_committed h ha hr (by simp [hf]) ?_ (by simpa using hfit)
      intro hu
      exact Text.utf8Valid_append hu (by decide)
  | @line line a ha hr =>
    rw [resync_ready hlen (hf ▸ h.classify_closed_row ha)]
    exact resync_committed h ha hr (same hf) id hlen
  | @tornLine p hp =>
    obtain ⟨off, hoff, hc⟩ := h.classify_tornLine hp.line (Nat.lt_of_le_of_lt hbase (by decide))
    refine resync_write hlen (hf ▸ hc) ?_ hrefused
    rcases torn_plan env ts s.file p s.prev off s.nextSeq false with he | hplan
    · exact .inl he
    obtain ⟨line, a, ha, hn, hplan, hfit⟩ := hplan
    rw [hoff] at hn
    simp only [Bool.false_eq_true, if_false] at hplan hfit
    refine .inr ⟨_, .inr hplan, hfit, fun k => ?_, ?_⟩
    · rw [hf, List.append_assoc]
      exact .failed (tail_of_failed_recover hp ha hn k)
    · refine resync_recovered h hp ha hn ?_ (by simpa using hfit)
      simp [hf, withNewline]
  | @recovering p q hp hq =>
    obtain ⟨note, hc⟩ := h.classify_recovering hp.line hq
    rw [resync_broken hlen (hf ▸ hc)]
    exact hrefused _
  | @recovered p line a hp ha hn =>
    have hc := h.classify_recovered hp.line ha hn
    refine resync_write hlen (hf ▸ hc) ?_ hrefused
    rcases newline_plan env ts s.file with he | ⟨hplan, hfit⟩
    · exact .inl he
    refine .inr ⟨_, .inl hplan, hfit, fun k => ?_, ?_⟩
    · rw [hf, List.append_assoc]
      cases k with
      | zero => exact .failed (by simpa using Tail.recovered hp ha hn)
      | succ k => exact .failed (by simpa using Tail.closed hp ha hn)
    · exact resync_recovered h hp ha hn (by simp [hf]) (by simpa using hfit)
  | @closed p line a hp ha hn =>
    obtain ⟨note, hc⟩ := Oneself.classify_recovered h.ledger.complete hp.noNewline hp.notJson ha.noNewline
    rw [List.append_assoc, List.append_assoc] at hc
    rw [resync_broken hlen (by rw [hf]; simpa using hc)]
    exact hrefused _

end PulseNull.Oneself
