import PulseNull.Oneself.Store

/-! Which verified files the store opens as they are. `verify` reads a torn line and its
recover row as a pair; `classify` splits the pair when it is the tail. -/
namespace PulseNull.Oneself
open Text (ascii newline Complete)
variable {env : Env}

theorem splitLast_line {pre line : Bytes} (hp : Complete pre) (hl : newline ∉ line) :
    splitLast (pre ++ (line ++ [newline])) = (pre, line, true) := by
  rw [splitLast, Text.lines_append_line hp hl]
  simp [Text.Line.text]

theorem splitLast_torn {pre line : Bytes} (hp : Complete pre) (hl : newline ∉ line)
    (hne : line ≠ []) : splitLast (pre ++ line) = (pre, line, false) := by
  rw [splitLast, Text.lines_append_torn hp hl hne]
  simp [Text.Line.text]

/-- The report of a ledger knows the next seq exactly when the rows do. -/
theorem Ledger.report_nextSeq {buf : Bytes} {rows : List Accepted} (h : Ledger env buf rows) :
    (env.verifyLines buf).nextSeq = (nextSeq rows).elim (.error .row) .ok := by
  rw [VerifyReport.nextSeq, h.report.2.1, nextSeq]
  cases rows.getLast? <;> rfl

theorem Ledger.nextSeq_eq_some {buf : Bytes} {rows : List Accepted} (h : Ledger env buf rows)
    (hlen : buf.length ≤ maxReceiptBytes) : ∃ seq, nextSeq rows = some seq := by
  have hs := h.seq_lt
  unfold nextSeq
  cases hr : rows.getLast? with
  | none => exact ⟨0, rfl⟩
  | some a =>
    have := hs.1 a hr
    have hb : a.seq.val + 1 < 2^64 := by
      have : maxReceiptBytes < 2^64 := by decide
      omega
    exact ⟨⟨a.seq.val + 1, hb⟩, dif_pos hb⟩

/-- Whether the last line of a file is a recover row. -/
def Env.endsInRecover (env : Env) (buf : Bytes) : Bool :=
  ((Text.lines buf).getLast?.bind fun l => env.eventOf l.bytes).any ReceiptEvent.isRecover

theorem endsInRecover_line {pre line : Bytes} (hp : Complete pre) (hl : newline ∉ line) :
    env.endsInRecover (pre ++ (line ++ [newline])) =
      (env.eventOf line).any ReceiptEvent.isRecover := by
  rw [Env.endsInRecover, Text.lines_append_line hp hl]
  simp

theorem classify_line {pre line : Bytes} (hp : Complete pre) (hl : newline ∉ line) :
    env.classify (pre ++ (line ++ [newline])) =
      match (env.verifyLines pre).firstBreak with
      | some note => .ok (.broken note)
      | none => do
        let seq ← (env.verifyLines pre).nextSeq
        if env.acceptsLine line seq (env.verifyLines pre).head then return .ready
        else if (env.verifyLines pre).rows = 0 then return .broken ⟨1, .genesis⟩
        else if env.validJsonValue line then
          return .broken ⟨(env.verifyLines pre).rows + 1, .notARow⟩
        else if maxLineBytes < line.length then return .broken ⟨pre.count newline + 1, .oversize⟩
        else return .torn (← toU64 pre.length) line false seq (env.verifyLines pre).head := by
  rw [Env.classify, if_neg (by simp), if_neg (by simp), splitLast_line hp hl]
  rfl

/-- A tail that is a row is ready. -/
theorem classify_row {pre line : Bytes} {rows : List Accepted} {seq : U64} {a : Accepted}
    (h : Ledger env pre rows) (hn : nextSeq rows = some seq) (hl : newline ∉ line)
    (hc : env.checkRow line seq (headOf rows) = .ok a) :
    env.classify (pre ++ (line ++ [newline])) = .ok .ready := by
  have hr := h.report
  rw [classify_line h.complete hl, hr.2.2.2]
  simp only [h.report_nextSeq, hn, hr.2.2.1]
  have : env.acceptsLine line seq (headOf rows) = true := acceptsLine_iff.mpr ⟨a, hc⟩
  simp [this, bind, Except.bind, pure, Except.pure]

/-- A file does not verify up to a torn line. -/
theorem torn_tail_breaks {pre torn : Bytes} (hp : Complete pre) (ht : newline ∉ torn)
    (hj : env.validJsonValue torn = false) :
    ∃ note, (env.verifyLines (pre ++ (torn ++ [newline]))).firstBreak = some note := by
  cases hb : (env.verifyLines (pre ++ (torn ++ [newline]))).firstBreak with
  | some note => exact ⟨note, rfl⟩
  | none =>
    obtain ⟨rows, h⟩ := verifyLines_noBreak.mp hb
    obtain ⟨a, _, he⟩ := h.last_line hp ht
    rw [eventOf_torn hj] at he
    simp at he

/-- A tail that is a torn line and its recover row is broken: the prefix is cut between them. -/
theorem classify_recovered {pre torn line : Bytes} (hp : Complete pre) (ht : newline ∉ torn)
    (hj : env.validJsonValue torn = false) (hl : newline ∉ line) :
    ∃ note, env.classify (pre ++ (torn ++ [newline]) ++ (line ++ [newline])) =
      .ok (.broken note) := by
  obtain ⟨note, hn⟩ := torn_tail_breaks hp ht hj
  refine ⟨note, ?_⟩
  rw [classify_line (hp.append (Text.complete_line _)) hl, hn]

/-- A ledger is ready or, when it ends in a recover row, broken. -/
theorem Ledger.classify_cases {buf : Bytes} {rows : List Accepted} (h : Ledger env buf rows)
    (hne : buf ≠ []) :
    env.classify buf = .ok .ready ∨ ∃ note, env.classify buf = .ok (.broken note) := by
  cases h with
  | nil => exact absurd rfl hne
  | row h hn hl _ hc _ => exact .inl (classify_row h hn hl hc)
  | recovered h _ ht _ hj hl _ _ _ => exact .inr (classify_recovered h.complete ht hj hl)

/-- `classify` is ready on a verified file exactly when it does not end in a recover row. -/
theorem classify_ready_iff {buf : Bytes} {rows : List Accepted} (h : Ledger env buf rows)
    (hne : buf ≠ []) : env.classify buf = .ok .ready ↔ env.endsInRecover buf = false := by
  cases h with
  | nil => exact absurd rfl hne
  | row h hn hl _ hc hr =>
    rw [endsInRecover_line h.complete hl, checkRow_eventOf hc]
    simp [classify_row h hn hl hc, hr]
  | recovered h _ ht _ hj hl _ hc hnames =>
    obtain ⟨note, hcl⟩ := classify_recovered h.complete ht hj hl
    obtain ⟨off, len, he, _⟩ := hnames
    rw [hcl, endsInRecover_line (h.complete.append (Text.complete_line _)) hl, checkRow_eventOf hc]
    simp [he, ReceiptEvent.isRecover]

/-- Opening `buf` gives a store and writes nothing, whoever opens it. -/
def OpensUnchanged (env : Env) (pulse buf : Bytes) : Prop :=
  ∀ req : OpenRequest, req.pulse = pulse → req.lockHeld = false →
    (req.stopIfUnprotected = true → req.protection.isProtected = true) →
    ∃ store opened, env.openOnce req buf = (buf, .ok (.ready store opened))

/-- Resyncing a store over `buf` succeeds and writes nothing. -/
def ResyncsUnchanged (env : Env) (buf : Bytes) : Prop :=
  ∀ (s : Store) (ts : Stamp) (write : Outcome?), s.file = buf →
    ∃ s' : Store, s.resync env ts write = (s', .ok ()) ∧ s'.file = buf

private theorem opens_unchanged {pulse buf : Bytes} {rows : List Accepted}
    (h : Ledger env buf rows) (hlen : buf.length ≤ maxReceiptBytes)
    (hg : env.genesisPulse (firstPhysicalLine buf) = some pulse)
    (hc : env.classify buf = .ok .ready) : OpensUnchanged env pulse buf := by
  intro req hp hlock hprot
  obtain ⟨seq, hseq⟩ := h.nextSeq_eq_some hlen
  have hread : readAll buf = .ok buf := by
    rw [readAll, if_neg (by omega)]
  have hgen : env.checkGenesis req buf = .ok () := by
    unfold Env.checkGenesis
    split
    · rfl
    · simp [hg, hp, ensure]
  have hstop : (req.stopIfUnprotected && !req.protection.isProtected) = false := by
    cases hs : req.stopIfUnprotected
    · rfl
    · simp [hprot hs]
  simp only [Env.openOnce, hstop, hlock, Bool.false_eq_true, if_false, hread, hgen, hc, bind,
    Except.bind, Env.repairClass, Env.repairPlan, Env.openRepaired, h.report.2.2.2,
    h.report_nextSeq, hseq, Option.elim_some, pure, Except.pure]
  exact ⟨_, _, rfl⟩

@[simp] theorem uncount_file (s : Store) : s.uncount.file = s.file := by
  unfold Store.uncount
  dsimp only
  split <;> rfl

@[simp] theorem settle_file (s : Store) (bytes : Bytes) : (s.settle env bytes).file = s.file := by
  unfold Store.settle
  split
  · exact uncount_file s
  · rfl

private theorem resyncs_unchanged {buf : Bytes} {rows : List Accepted} (h : Ledger env buf rows)
    (hlen : buf.length ≤ maxReceiptBytes) (hc : env.classify buf = .ok .ready) :
    ResyncsUnchanged env buf := by
  rintro s ts write rfl
  obtain ⟨seq, hseq⟩ := h.nextSeq_eq_some hlen
  have hread : readAll s.file = .ok s.file := by
    rw [readAll, if_neg (by omega)]
  simp only [Store.resync, hread, hc, Env.repairClass, Env.repairPlan, Store.reposition,
    h.report.2.2.2, h.report_nextSeq, hseq, Option.elim_some]
  exact ⟨_, rfl, settle_file _ _⟩

/-- A verified file of this pulse is ready, and opens and resyncs unchanged when it is within
the size cap, exactly when its last line is not a recover row. -/
theorem verified_file_ready_iff (env : Env) (buf pulse : Bytes) (hne : buf ≠ [])
    (hg : env.genesisPulse (firstPhysicalLine buf) = some pulse)
    (hv : (env.verifyLines buf).firstBreak = none) :
    (env.classify buf = .ok .ready ∧ (buf.length ≤ maxReceiptBytes →
      OpensUnchanged env pulse buf ∧ ResyncsUnchanged env buf)) ↔
        env.endsInRecover buf = false := by
  obtain ⟨rows, h⟩ := verifyLines_noBreak.mp hv
  rw [← classify_ready_iff h hne]
  refine ⟨And.left, fun hc => ⟨hc, fun hlen => ⟨?_, ?_⟩⟩⟩
  · exact opens_unchanged h hlen hg hc
  · exact resyncs_unchanged h hlen hc

/-! The short file: opening its first row and a torn `x` repairs it, and the repaired file
is verified, ends in a recover row, and is refused. -/

def sampleRequest : OpenRequest where
  path := ascii "receipts.jsonl"
  pulse := ascii "echo"
  fromSystemd := false
  stopIfUnprotected := false
  protection := ⟨false, false, false, false, false⟩
  lockHeld := false
  ts := ⟨ascii "2026-10-25T03:00:00.001Z", by decide⟩
  write := none

theorem repaired_file_not_ready :
    (sampleEnv.openOnce sampleRequest
        (sampleGenesis.line ++ [newline] ++ sampleTorn)).1 = sampleFile ∧
      sampleFile.getLast? = some newline ∧
      sampleEnv.genesisPulse (firstPhysicalLine sampleFile) = some (ascii "echo") ∧
      (sampleEnv.verifyLines sampleFile).firstBreak = none ∧
      sampleEnv.classify sampleFile = .ok (.broken ⟨2, .tornLine⟩) := by
  refine ⟨?_, ?_, ?_, ?_, ?_⟩ <;> decide +kernel

theorem verified_file_ready_iff_sample :
    (sampleEnv.classify sampleFile = .ok .ready ∧ (sampleFile.length ≤ maxReceiptBytes →
      OpensUnchanged sampleEnv (ascii "echo") sampleFile ∧ ResyncsUnchanged sampleEnv sampleFile)) ↔
        sampleEnv.endsInRecover sampleFile = false :=
  verified_file_ready_iff sampleEnv sampleFile (ascii "echo") (by decide +kernel)
    (by decide +kernel) (by decide +kernel)

end PulseNull.Oneself
