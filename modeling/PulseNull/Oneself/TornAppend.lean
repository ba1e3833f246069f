import PulseNull.Oneself.Tail

/-! Opening a file whose last append was cut short: the rows stay, and the cut line is closed
or named by one recover row. -/
namespace PulseNull.Oneself
open Text (ascii newline Complete)
variable {env : Env} {s : Store} {base : Bytes} {rows : List Accepted}

/-- A store that knows just its file and where the next row goes. -/
def Store.at (file : Bytes) (seq : U64) (prev : Bytes) : Store :=
  ⟨file, seq, prev, false, 0, none, none⟩

/-- The file after a cut, and the row that closes it. -/
structure Repaired (env : Env) (file : Bytes) (rows : List Accepted) (ts : Stamp) (record : Bytes)
    (a : Accepted) : Prop where
  ledger : Ledger env (file ++ record) (rows ++ [a])
  plan : ∃ c, env.classify file = .ok c ∧
    ((file ++ record).length ≤ maxReceiptBytes → ∃ kind, (kind = .newline ∨ kind = .recovered) ∧
      env.repairPlan file c ts = .ok (some record, kind)) ∧
    (maxReceiptBytes < (file ++ record).length →
      env.repairPlan file c ts = .error (.tooLarge (file ++ record).length))

/-! The repair of each cut. -/

private theorem repairFits_cases (file record : Bytes) :
    ((file ++ record).length ≤ maxReceiptBytes → ensureRepairFits file record.length = .ok ()) ∧
      (maxReceiptBytes < (file ++ record).length →
        ensureRepairFits file record.length = .error (.tooLarge (file ++ record).length)) := by
  rw [List.length_append]
  exact ⟨fun h => if_pos h, fun h => if_neg (Nat.not_le.mpr h)⟩

/-- A line cut before its newline is closed. -/
theorem Standing.repair_whole {line : Bytes} {a : Accepted} (h : Standing env s base rows)
    (ha : Encoded env s.nextSeq s.prev line a) (hr : a.event.isRecover = false) (ts : Stamp) :
    Repaired env (base ++ line) rows ts [newline] a := by
  obtain ⟨hfit, hover⟩ := repairFits_cases (base ++ line) [newline]
  rw [List.length_singleton] at hfit hover
  refine ⟨?_, .missingNewline, h.classify_whole ha hr, fun hle => ⟨.newline, .inl rfl, ?_⟩,
    fun hlt => ?_⟩
  · rw [List.append_assoc]
    exact h.ledger_line ha hr
  · simp only [Env.repairPlan, hfit hle, bind, Except.bind, pure, Except.pure]
  · simp only [Env.repairPlan, hover hlt, bind, Except.bind]

/-- A line cut inside is named by a recover row. -/
theorem Standing.repair_torn {p : Bytes} (h : Standing env s base rows) (ht : Torn env p)
    (hbase : base.length ≤ maxReceiptBytes) (ts : Stamp) : ∃ record a,
      Names env a base.length p ∧ Repaired env (base ++ p) rows ts record a := by
  obtain ⟨off, hoff, hclass⟩ := h.classify_torn ht hbase
  have hlen : p.length < 2^64 := Nat.lt_of_le_of_lt ht.fits (by decide)
  obtain ⟨line, hline⟩ := recover_encodes env off ⟨p.length, hlen⟩ h.nextSeq_ne_zero h.head_digest
    ts.property (sha256Hex_digestOk env p)
  obtain ⟨a, ha, hev⟩ := encodeLine_encoded hline
  have hname : a.event = .recover off ⟨p.length, hlen⟩ (env.sha256Hex p) := (Except.ok.inj hev).symm
  have hn : Names env a base.length p := ⟨off, _, hname, hoff, rfl⟩
  obtain ⟨hfit, hover⟩ := repairFits_cases (base ++ p) (newline :: withNewline line)
  refine ⟨newline :: withNewline line, a, hn, ?_, _, hclass,
    fun hle => ⟨.recovered, .inr rfl, ?_⟩, fun hlt => ?_⟩
  · have hl := h.ledger_recovered ht.line ha hn
    simpa [withNewline] using hl
  · simp only [Env.repairPlan, toU64_eq hlen, hline, if_true, hfit hle, bind, Except.bind, pure,
      Except.pure]
  · simp only [Env.repairPlan, toU64_eq hlen, hline, if_true, hover hlt, bind, Except.bind]

/-! Opening. -/

private theorem firstPhysicalLine_append {base : Bytes} (h : newline ∈ base) (tail : Bytes) :
    firstPhysicalLine (base ++ tail) = firstPhysicalLine base := by
  rw [firstPhysicalLine, firstPhysicalLine, List.takeWhile_append, if_neg]
  intro hlen
  have hall := (List.takeWhile_prefix _).eq_of_length hlen
  rw [List.takeWhile_eq_self_iff] at hall
  simpa using hall newline h

/-- Nothing else holds the file, and the probe does not stop the open. -/
def OpenRequest.proceeds (req : OpenRequest) : Prop :=
  req.lockHeld = false ∧ (req.stopIfUnprotected = true → req.protection.isProtected = true)

private theorem proceeds_stop {req : OpenRequest} (h : req.proceeds) :
    (req.stopIfUnprotected && !req.protection.isProtected) = false := by
  cases hs : req.stopIfUnprotected
  · rfl
  · simp [h.2 hs]

private theorem readAll_fits {file : Bytes} (h : file.length ≤ maxReceiptBytes) :
    readAll file = .ok file := by
  rw [readAll, if_neg (by omega)]

/-- An open repairs the tail into whole rows, or refuses when they would not fit. -/
theorem Repaired.openOnce {req : OpenRequest} {file record : Bytes} {a : Accepted}
    (h : Repaired env file rows req.ts record a) (hreq : req.proceeds) (hw : req.write = none)
    (hg : env.checkGenesis req file = .ok ()) (hfile : file.length ≤ maxReceiptBytes) :
    ((file ++ record).length ≤ maxReceiptBytes → ∃ store opened,
      env.openOnce req file = (file ++ record, .ok (.ready store opened)) ∧
        a.seq.checkedAdd 1 = some store.nextSeq ∧ store.prev = a.hash) ∧
    (maxReceiptBytes < (file ++ record).length →
      env.openOnce req file = (file, .error (.tooLarge (file ++ record).length))) := by
  obtain ⟨c, hc, hplan, hover⟩ := h.plan
  have hl := h.ledger
  refine ⟨fun hfit => ?_, fun hlt => ?_⟩
  · obtain ⟨next, hnext⟩ := hl.nextSeq_eq_some hfit
    obtain ⟨kind, hkind, hplan⟩ := hplan hfit
    have hrepair : env.repairClass file c req.ts req.write = (file ++ record, .ok kind) := by
      simp only [Env.repairClass, hplan, hw, writeAllSync]
    rw [nextSeq_snoc] at hnext
    have hhead := hl.report.2.2.1
    rw [headOf_snoc] at hhead
    rcases hkind with rfl | rfl
    all_goals
      simp only [Env.openOnce, proceeds_stop hreq, hreq.1, Bool.false_eq_true, if_false,
        readAll_fits hfile, hg, hc, bind, Except.bind, hrepair, Env.openRepaired,
        readAll_fits hfit, hl.report.2.2.2, hl.report_nextSeq, nextSeq_snoc, hnext,
        Option.elim_some, pure, Except.pure]
      exact ⟨_, _, rfl, rfl, hhead⟩
  · have hrepair : env.repairClass file c req.ts req.write =
        (file, .error (.tooLarge (file ++ record).length)) := by
      simp only [Env.repairClass, hover hlt]
    simp only [Env.openOnce, proceeds_stop hreq, hreq.1, Bool.false_eq_true, if_false,
      readAll_fits hfile, hg, hc, bind, Except.bind, hrepair]

/-- A cut of the next row of `file` is repaired by `record`: the bytes stay, and the accepted rows
are those of `file` and one more, the row itself when only its newline was cut off, else a recover
row that names the cut. -/
structure CutRecovered (env : Env) (req : OpenRequest) (file line p record : Bytes) (a : Accepted) :
    Prop where
  verified : (env.verifyLines (file ++ p ++ record)).firstBreak = none
  rows : (env.indexBytes (file ++ p ++ record)).rows = (env.indexBytes file).rows ++ [a.indexed]
  whole : p = line → ∃ seq, env.checkRow line seq (env.verifyLines file).head = .ok a
  torn : p ≠ line → Names env a file.length p
  opens : (file ++ p ++ record).length ≤ maxReceiptBytes → ∃ store opened last,
    env.openOnce req (file ++ p) = (file ++ p ++ record, .ok (.ready store opened)) ∧
      (env.verifyLines (file ++ p ++ record)).seq = some last ∧
      store.nextSeq.val = last.val + 1 ∧ store.prev = (env.verifyLines (file ++ p ++ record)).head
  refused : maxReceiptBytes < (file ++ p ++ record).length →
    env.openOnce req (file ++ p) = (file ++ p, .error (.tooLarge (file ++ p ++ record).length))

/-- Opening a verified file and any cut of its next row recovers the cut. A recover row is the
next row of no whole rows, so it is left out where it is cut just before its newline. -/
theorem torn_append_recovered (env : Env) (req : OpenRequest) (file line p ts : Bytes) (seq : U64)
    (event : ReceiptEvent) (hv : (env.verifyLines file).firstBreak = none)
    (hg : env.genesisPulse (firstPhysicalLine file) = some req.pulse)
    (hseq : (env.verifyLines file).nextSeq = .ok seq)
    (hline : env.encodeLine seq (env.verifyLines file).head ts event = .ok line)
    (hne : p ≠ []) (hp : p <+: withNewline line) (hproper : p ≠ withNewline line)
    (hrec : event.isRecover = true → p ≠ line) (hreq : req.proceeds) (hw : req.write = none)
    (hfile : (file ++ p).length ≤ maxReceiptBytes) :
    ∃ record a, CutRecovered env req file line p record a := by
  obtain ⟨rows, hl⟩ := verifyLines_noBreak.mp hv
  have hfne : file ≠ [] := by
    rintro rfl
    simp [firstPhysicalLine, Env.genesisPulse] at hg
  have hgen : env.checkGenesis req (file ++ p) = .ok () := by
    have hm : newline ∈ file := by
      rcases hl.complete with he | ⟨init, rfl⟩
      · exact absurd he hfne
      · simp
    rw [Env.checkGenesis, if_neg (by simp [hne]), firstPhysicalLine_append hm, hg]
    simp [ensure]
  -- the store that would write the row stands on the file
  have hstand : Standing env (.at (file ++ p) seq (env.verifyLines file).head) file rows := by
    refine ⟨hl, hl.rows_ne_nil hfne, ?_, hl.report.2.2.1.symm⟩
    rw [hl.report_nextSeq] at hseq
    cases hn : nextSeq rows with
    | none => simp [hn] at hseq
    | some n => rw [hn] at hseq; exact congrArg some (Except.ok.inj hseq)
  obtain ⟨b, hb, hk⟩ := encodeLine_kind hline
  have finish {record : Bytes} {a : Accepted} (h : Repaired env (file ++ p) rows req.ts record a)
      (hwhole : p = line → ∃ seq, env.checkRow line seq (env.verifyLines file).head = .ok a)
      (htorn : p ≠ line → Names env a file.length p) :
      CutRecovered env req file line p record a := by
    obtain ⟨_, hrseq, hrhead, hbreak⟩ := h.ledger.report
    obtain ⟨hopen, hover⟩ := h.openOnce hreq hw hgen hfile
    refine ⟨hbreak, ?_, hwhole, htorn, fun hfit => ?_, hover⟩
    · rw [h.ledger.indexBytes_rows, hl.indexBytes_rows, List.map_append, List.map_cons, List.map_nil]
    · obtain ⟨store, opened, ho, hnext, hprev⟩ := hopen hfit
      refine ⟨store, opened, a.seq, ho, ?_, U64.checkedAdd_eq_some.mp hnext, ?_⟩
      · rw [hrseq, List.getLast?_concat, Option.map_some]
      · rw [hrhead, headOf_snoc, hprev]
  by_cases hpl : p = line
  · subst hpl
    have hr : b.event.isRecover = false := by
      by_contra hf
      rw [Bool.not_eq_false, isRecover_iff, hk, ← isRecover_iff] at hf
      exact hrec hf rfl
    exact ⟨_, b, finish (hstand.repair_whole hb hr req.ts) (fun _ => ⟨seq, hb.check⟩)
      (fun h => absurd rfl h)⟩
  · have ht : Torn env p := by
      rcases List.prefix_concat_iff.mp hp with he | ⟨rest, hrest⟩
      · exact absurd he hproper
      · refine hb.prefix_torn hrest.symm hne ?_
        rintro rfl
        exact hpl (by simpa using hrest)
    have hbase : file.length ≤ maxReceiptBytes := by
      rw [List.length_append] at hfile
      omega
    obtain ⟨record, a, hn, hrep⟩ := hstand.repair_torn ht hbase req.ts
    exact ⟨record, a, finish hrep (fun h => absurd h hpl) (fun _ => hn)⟩

def sampleShutdown : Row :=
  ⟨1, 1, sampleRecover.prev, sampleRecover.ts, (ReceiptEvent.shutdown (ascii "sigterm")).toValue⟩

theorem torn_append_recovered_sample : ∃ record a, CutRecovered sampleEnv sampleRequest
    (sampleGenesis.line ++ [newline]) sampleShutdown.line (sampleShutdown.line.take 40) record a :=
  torn_append_recovered sampleEnv sampleRequest (sampleGenesis.line ++ [newline])
    sampleShutdown.line (sampleShutdown.line.take 40) sampleRecover.ts 1
    (.shutdown (ascii "sigterm")) (by decide +kernel) (by decide +kernel) (by decide +kernel)
    (by decide +kernel) (by decide +kernel)
    ((List.take_prefix _ _).trans (List.prefix_append _ _)) (by decide +kernel) (by decide)
    ⟨rfl, by decide⟩ rfl (by decide +kernel)

/-! A recover row follows a torn line only: one that is cut before its newline is closed and
then refused. -/

theorem cut_recover_row_refused :
    (sampleEnv.verifyLines (sampleGenesis.line ++ [newline])).firstBreak = none ∧
      sampleEnv.genesisPulse (firstPhysicalLine (sampleGenesis.line ++ [newline])) =
        some sampleRequest.pulse ∧
      sampleEnv.encodeLine 1 (sampleEnv.verifyLines (sampleGenesis.line ++ [newline])).head
        sampleRecover.ts (.recover 160 1 (sampleEnv.sha256Hex sampleTorn)) =
          .ok sampleRecover.line ∧
      (sampleEnv.openOnce sampleRequest
        (sampleGenesis.line ++ [newline] ++ sampleRecover.line)).2 =
          .error (.broken ⟨2, .recover⟩) := by
  refine ⟨?_, ?_, ?_, ?_⟩ <;> decide +kernel

end PulseNull.Oneself
