import PulseNull.Oneself.Books

/-! Loss accounting: after an append that succeeds, the event rows of the run and what its
gap rows report add up to what was appended and lost. -/
namespace PulseNull.Oneself
open Text (ascii newline)
variable {env : Env}

/-- What `file` accounts for beyond the rows it had as `opened`. -/
def Env.accounted (env : Env) (opened file : Bytes) : Nat :=
  (((env.fileEvents file).drop (env.fileEvents opened).length).map ReceiptEvent.reported).sum

/-- A call on an opened store. -/
inductive Op where
  | append (event : ReceiptEvent) (io : AppendIo)
  | lose (n : U64) (ts : Stamp)

def Op.count : Op → Nat
  | .append .. => 1
  | .lose n _ => n.val

def Op.apply (env : Env) (s : Store) : Op → Store
  | .append event io => (s.append env event io).1
  | .lose n ts => s.lose n.val ts

def runOps (env : Env) (s : Store) (ops : List Op) : Store :=
  ops.foldl (fun s op => op.apply env s) s

def attempts (ops : List Op) : Nat := (ops.map Op.count).sum

/-- `encode_line` accepts the event where it is written. -/
def Op.encodable (env : Env) (s : Store) : Op → Bool
  | .append event io => event.appendable &&
      match s.prepare env io with
      | (s, .ok ()) => (env.encodeLine s.nextSeq s.prev io.eventTs.val event).isOk
      | (_, .error _) => true
  | .lose .. => true

/-- The counter does not saturate, and a landed row of a poisoned store accounts for one event
and is in a UTF-8 file. -/
def Op.sound (env : Env) (s : Store) (op : Op) : Bool :=
  decide (s.dropped.val + op.count < 2^64) &&
    match op with
    | .append .. => !s.poisoned ||
        (s.landed env).all fun event => Text.utf8Valid s.file && decide (event.reported = 1)
    | .lose .. => true

/-- `p` holds before each step of a run. -/
def eachStep (env : Env) (p : Store → Op → Bool) : Store → List Op → Bool
  | _, [] => true
  | s, op :: ops => p s op && eachStep env p (op.apply env s) ops

variable {n₀ total : Nat} {s : Store}

private theorem encodable_append {event : ReceiptEvent} {io : AppendIo} :
    Op.encodable env s (.append event io) = true ↔ event.appendable = true ∧
      ∀ t, s.prepare env io = (t, .ok ()) →
        ∃ line, env.encodeLine t.nextSeq t.prev io.eventTs.val event = .ok line := by
  simp only [Op.encodable, Bool.and_eq_true, and_congr_right_iff]
  intro _
  cases hp : s.prepare env io with
  | mk t out =>
    cases out with
    | error e => simp
    | ok _ =>
      cases hl : env.encodeLine t.nextSeq t.prev io.eventTs.val event with
      | error e => simp [hl, Except.isOk, Except.toBool]
      | ok line => simp [hl, Except.isOk, Except.toBool]

private theorem sound_append {event : ReceiptEvent} {io : AppendIo} :
    Op.sound env s (.append event io) = true ↔ s.dropped.val + 1 < 2^64 ∧
      (s.poisoned = true → ∀ event, s.landed env = some event →
        Text.utf8Valid s.file = true ∧ event.reported = 1) := by
  rw [Op.sound, Bool.and_eq_true, decide_eq_true_eq]
  refine and_congr_right fun _ => ?_
  cases s.poisoned <;> simp [Option.all_eq_true]

/-! One step. -/

/-- An append is one more attempt; when it succeeds, the rows account for all of them. -/
theorem Inv.append (h : Inv env n₀ s total) {event : ReceiptEvent} {io : AppendIo}
    (henc : Op.encodable env s (.append event io) = true)
    (hsound : Op.sound env s (.append event io) = true) :
    Inv env n₀ (s.append env event io).1 (total + 1) ∧
      ∀ head, (s.append env event io).2 = .ok head → ∃ rows,
        Ledger env (s.append env event io).1.file rows ∧ n₀ ≤ rows.length ∧
          tally n₀ rows = total + 1 := by
  obtain ⟨happ, henc⟩ := encodable_append.mp henc
  obtain ⟨hsat, hsound⟩ := sound_append.mp hsound
  -- the event is written from settled books
  have settled {t : Store} {base : Bytes} {rows : List Accepted}
      (hp : s.prepare env io = (t, .ok ())) (hb : Books env n₀ t base rows [] none total)
      (hset : Settled t []) : Inv env n₀ (s.append env event io).1 (total + 1) ∧
        ∀ head, (s.append env event io).2 = .ok head → ∃ rows,
          Ledger env (s.append env event io).1.file rows ∧ n₀ ≤ rows.length ∧
            tally n₀ rows = total + 1 := by
    have heq : s.append env event io = t.writeEvent env event io.eventTs io.eventWrite := by
      simp only [Store.append, happ, hp, if_true]
    obtain ⟨line, hline⟩ := henc t hp
    obtain ⟨a, ha, hk⟩ := encodeLine_kind hline
    have hev : a.event.appendable = true := by
      rw [appendable_iff, hk, ← appendable_iff]
      exact happ
    have hr : a.event.isRecover = false := by
      simp only [ReceiptEvent.appendable, Bool.and_eq_true, Bool.not_eq_true'] at hev
      exact hev.1.2
    have hz : t.dropped.val = 0 := congrArg Fin.val hset.none_dropped
    rw [heq]
    rcases hb.writeEvent rfl (by omega) hline ha hr io.eventWrite with
      ⟨e, he, hi⟩ | ⟨head, u, hw, hu, hpois, hdrop, _, _⟩
    · refine ⟨hi, fun head hh => ?_⟩
      rw [he] at hh
      simp at hh
    · rw [appendable_reported hev] at hu
      rw [hw]
      refine ⟨.settled hu ⟨hpois.trans hset.unpoisoned, hdrop.trans hset.none_dropped, rfl⟩,
        fun _ _ => ⟨_, ?_, hu.since, ?_⟩⟩
      · rw [hu.file, List.append_nil]
        exact hu.standing.ledger
      · have := hu.sum
        rw [hdrop] at this
        omega
  have failed {e : StoreError} (he : (s.prepare env io).2 = .error e) :
      s.append env event io = ((s.prepare env io).1, .error e) := by
    have hp : s.prepare env io = ((s.prepare env io).1, .error e) := Prod.ext rfl he
    simp only [Store.append, happ, if_true]
    rw [hp]
  cases h with
  | @settled base rows tail landed hb hset =>
    have hp : s.prepare env io = (s, .ok ()) := by
      simp only [Store.prepare, hset.unpoisoned, Bool.false_eq_true, if_false]
    have htail := hset.no_tail
    subst htail
    have hb' : Books env n₀ s base rows [] none total :=
      ⟨hb.standing, hb.file, .clean, hb.clock, hb.since, hb.sum⟩
    exact settled hp hb' hset
  | due hb hd =>
    rcases hb.prepare hd hsat (hsound hd.poisoned) io with ⟨e, he, hi⟩ | ⟨t, base', rows', hp, hb, hs⟩
    · rw [failed he]
      exact ⟨hi, fun _ hh => by simp at hh⟩
    · exact settled hp hb hs
  | exhausted hx =>
    cases hp : s.prepare env io with
    | mk t out =>
      have ht : Exhausted t := by
        have ht : Exhausted (s.prepare env io).1 := hx.prepare io
        rwa [hp] at ht
      cases out with
      | error e =>
        rw [failed (by rw [hp])]
        refine ⟨.exhausted (by rwa [hp]), fun _ hh => by simp at hh⟩
      | ok _ =>
        have heq : s.append env event io = t.writeEvent env event io.eventTs io.eventWrite := by
          simp only [Store.append, happ, hp, if_true]
        obtain ⟨⟨e, he⟩, hx'⟩ : (∃ e, (t.writeEvent env event io.eventTs io.eventWrite).2 = .error e) ∧
            Exhausted (t.writeEvent env event io.eventTs io.eventWrite).1 :=
          ht.writeEvent event io.eventTs io.eventWrite
        rw [heq]
        refine ⟨.exhausted hx', fun _ hh => ?_⟩
        rw [he] at hh
        simp at hh

theorem Inv.step (h : Inv env n₀ s total) {op : Op} (henc : op.encodable env s = true)
    (hsound : op.sound env s = true) : Inv env n₀ (op.apply env s) (total + op.count) := by
  cases op with
  | append event io => exact (h.append henc hsound).1
  | lose n ts =>
    simp only [Op.sound, Bool.and_true, decide_eq_true_eq] at hsound
    exact h.lose n.val ts hsound

theorem Inv.run {ops : List Op} (h : Inv env n₀ s total)
    (henc : eachStep env (Op.encodable env) s ops = true)
    (hsound : eachStep env (Op.sound env) s ops = true) :
    Inv env n₀ (runOps env s ops) (total + attempts ops) := by
  induction ops generalizing s total with
  | nil => exact h
  | cons op ops ih =>
    simp only [eachStep, Bool.and_eq_true] at henc hsound
    have := ih (h.step henc.1 hsound.1) henc.2 hsound.2
    rwa [Nat.add_assoc] at this

theorem eachStep_concat {p : Store → Op → Bool} {ops : List Op} {op : Op} :
    eachStep env p s (ops ++ [op]) = true ↔
      eachStep env p s ops = true ∧ p (runOps env s ops) op = true := by
  induction ops generalizing s with
  | nil => simp [eachStep, runOps]
  | cons o ops ih =>
    simp only [List.cons_append, eachStep, Bool.and_eq_true, ih, and_assoc]
    rfl

/-! Opening. -/

private theorem openRepaired_ready {req : OpenRequest} {file : Bytes} {b1 b2 b3 : Bool}
    {store : Store} {opened : Opened} (hne : file ≠ [])
    (h : env.openRepaired req file b1 b2 b3 = .ok (.ready store opened)) :
    ∃ rows, Books env rows.length store store.file rows [] none 0 ∧ Settled store [] := by
  simp only [Env.openRepaired, readAll] at h
  split at h
  · simp [bind, Except.bind] at h
  simp only [bind, Except.bind] at h
  split at h
  · simp at h
  next hb =>
    obtain ⟨rows, hl⟩ := verifyLines_noBreak.mp hb
    rw [hl.report_nextSeq] at h
    cases hn : nextSeq rows with
    | none => simp [hn] at h
    | some next =>
      simp only [hn, Option.elim_some, pure, Except.pure, Except.ok.injEq,
        OpenChoice.ready.injEq] at h
      obtain ⟨rfl, _⟩ := h
      refine ⟨rows, ⟨⟨hl, hl.rows_ne_nil hne, hn, hl.report.2.2.1.symm⟩, by simp, .clean, ⟨by simp, by simp⟩,
        le_rfl, ?_⟩, rfl, rfl, rfl⟩
      rw [tally, List.drop_of_length_le (by simp)]
      rfl

/-- A repair leaves the file's bytes where they are. -/
theorem repairClass_prefix (file : Bytes) (c : Class) (ts : Stamp) (write : Outcome?) :
    file <+: (env.repairClass file c ts write).1 := by
  unfold Env.repairClass
  split
  · exact List.prefix_refl _
  · exact List.prefix_refl _
  · cases write <;> exact List.prefix_append _ _

/-- An opened store has whole rows and nothing to report. -/
theorem openOnce_books {req : OpenRequest} {file file' : Bytes} {store : Store} {opened : Opened}
    (h : env.openOnce req file = (file', .ok (.ready store opened))) :
    ∃ rows, Books env rows.length store store.file rows [] none 0 ∧ Settled store [] := by
  unfold Env.openOnce at h
  split at h
  · simp at h
  split at h
  · simp at h
  split at h
  · simp at h
  next c hc =>
    have hclass : env.classify file = .ok c := by
      simp only [bind_eq_ok] at hc
      obtain ⟨bytes, hread, _, _, hc⟩ := hc
      unfold readAll at hread
      split at hread
      · simp at hread
      · rwa [← Except.ok.inj hread] at hc
    have hempty : file = [] → c = .noRow := by
      rintro rfl
      simp only [Env.classify, true_or, if_true] at hclass
      exact (Except.ok.inj hclass).symm
    have nonempty {f : Bytes} {kind : RepairKind}
        (hrep : env.repairClass file c req.ts req.write = (f, .ok kind)) (hk : kind ≠ .noRow) :
        f ≠ [] := by
      rintro rfl
      have hpre : file <+: (env.repairClass file c req.ts req.write).1 :=
        repairClass_prefix file c req.ts req.write
      rw [hrep, List.prefix_nil] at hpre
      rw [hempty hpre] at hrep
      simp only [Env.repairClass, Env.repairPlan, Prod.mk.injEq, Except.ok.injEq] at hrep
      exact hk hrep.2.symm
    split at h
    · simp at h
    case h_2 f hrep | h_3 f hrep | h_4 f hrep =>
      exact openRepaired_ready (nonempty hrep (by simp)) (Prod.mk.inj h).2
    · simp at h
    case h_6 f hrep =>
      split at h
      · simp at h
      split at h
      · simp at h
      · split at h
        · simp at h
        · next line _ _ g hw =>
          refine openRepaired_ready ?_ (Prod.mk.inj h).2
          intro hg
          subst hg
          cases hwr : req.write <;> simp [hwr, writeAllSync, withNewline] at hw

/-- Every append that succeeds leaves a file whose rows since the open account for every event
of the run: as its own row, or in the gap row that reports it. -/
theorem losses_accounted (env : Env) (req : OpenRequest) (file file' : Bytes) (store : Store)
    (opened : Opened) (ops : List Op) (event : ReceiptEvent) (io : AppendIo) (s' : Store)
    (head : Head) (hopen : env.openOnce req file = (file', .ok (.ready store opened)))
    (henc : eachStep env (Op.encodable env) store (ops ++ [.append event io]) = true)
    (hsound : eachStep env (Op.sound env) store (ops ++ [.append event io]) = true)
    (happend : (runOps env store ops).append env event io = (s', .ok head)) :
    env.accounted store.file s'.file = attempts (ops ++ [.append event io]) := by
  obtain ⟨rows, hb, hset⟩ := openOnce_books hopen
  obtain ⟨henc, henc'⟩ := eachStep_concat.mp henc
  obtain ⟨hsound, hsound'⟩ := eachStep_concat.mp hsound
  have hrun := (Inv.settled hb hset).run henc hsound
  obtain ⟨rows', hl, _, hsum⟩ := (hrun.append henc' hsound').2 head (by rw [happend])
  rw [happend] at hl
  rw [Env.accounted, hl.fileEvents, hb.standing.ledger.fileEvents, List.length_map]
  rw [tally, Nat.zero_add] at hsum
  rw [hsum]
  simp [attempts, Op.count]

/-! Two losses, and an append whose gap row fails with all of its bytes in the file. The next
append takes one loss off for the row that landed, and its own gap row reports two again. -/

def lossStamp : Stamp := sampleRequest.ts

def lossShutdown : ReceiptEvent := .shutdown (ascii "sigterm")

def lossRow (seq : U64) (prev : Bytes) (event : ReceiptEvent) : Row :=
  ⟨1, seq, prev, lossStamp.val, event.toValue⟩

def lossGap : ReceiptEvent := .gap 2 lossStamp.val lossStamp.val

def lossHeads : List Bytes :=
  [ascii "8fa0147ad6e4235d2938de010cd334e48fbd6891ec413d73e66bbd57a6ea33c8",
    ascii "c60f7ce38db7ffee34f23e52b97a4445e923ed96f6b3dc41540db46cda8dd5da",
    ascii "f94e319be780f1b41516ee2f52ec2f1395b13f8f15999140d8af01a7ff99975f"]

/-- SHA-256 on the rows the two runs write. -/
def lossSha (bytes : Bytes) : { digest : Bytes // digest.length = 32 } :=
  if bytes = (lossRow 1 (lossHeads.getD 0 []) lossGap).line then
    ⟨[198, 15, 124, 227, 141, 183, 255, 238, 52, 242, 62, 82, 185, 122, 68, 69,
      233, 35, 237, 150, 246, 179, 220, 65, 84, 13, 180, 108, 218, 141, 213, 218], rfl⟩
  else if bytes = (lossRow 2 (lossHeads.getD 1 []) lossGap).line then
    ⟨[249, 78, 49, 155, 231, 128, 241, 180, 21, 22, 238, 47, 82, 236, 47, 19,
      149, 177, 63, 143, 21, 153, 145, 64, 216, 175, 1, 167, 255, 153, 151, 95], rfl⟩
  else if bytes = (lossRow 3 (lossHeads.getD 2 []) lossShutdown).line then
    ⟨[159, 222, 153, 175, 151, 158, 45, 19, 91, 31, 162, 197, 229, 130, 219, 130,
      80, 149, 199, 49, 245, 222, 254, 119, 152, 129, 200, 109, 88, 75, 217, 253], rfl⟩
  else if bytes = (lossRow 2 (lossHeads.getD 1 []) lossShutdown).line then
    ⟨[124, 121, 57, 148, 203, 195, 214, 229, 209, 120, 73, 48, 187, 83, 9, 126,
      223, 145, 113, 93, 9, 166, 209, 98, 36, 238, 76, 11, 182, 10, 101, 238], rfl⟩
  else sampleSha bytes

def lossEnv : Env := ⟨lossSha, fun _ => true⟩

def lossFile : Bytes := sampleGenesis.line ++ [newline]

def lossStore : Store := ⟨lossFile, 1, lossHeads.getD 0 [], false, 0, none, none⟩

def lossOpened : Opened :=
  ⟨false, false, false, [], sampleRequest.protection, lossEnv.verifyLines lossFile⟩

def lossAppend (gapWrite : Outcome?) : AppendIo :=
  ⟨lossStamp, none, lossStamp, lossStamp, gapWrite, lossStamp, none⟩

def lossRun : List Op := [.lose 2 lossStamp, .append lossShutdown (lossAppend (some 300))]

theorem landed_gap_reported_again :
    lossEnv.openOnce sampleRequest lossFile = (lossFile, .ok (.ready lossStore lossOpened)) ∧
      eachStep lossEnv (Op.encodable lossEnv) lossStore
        (lossRun ++ [.append lossShutdown (lossAppend none)]) = true ∧
      ((runOps lossEnv lossStore lossRun).append lossEnv lossShutdown (lossAppend none)).2 =
        .ok ⟨3, lossEnv.sha256Hex (lossRow 3 (lossHeads.getD 2 []) lossShutdown).line⟩ ∧
      lossEnv.accounted lossStore.file
        ((runOps lossEnv lossStore lossRun).append lossEnv lossShutdown (lossAppend none)).1.file =
          5 ∧
      attempts (lossRun ++ [.append lossShutdown (lossAppend none)]) = 4 := by
  refine ⟨?_, ?_, ?_, ?_, ?_⟩ <;> decide +kernel

def lossEnd : Store :=
  { file := lossFile ++ withNewline (lossRow 1 (lossHeads.getD 0 []) lossGap).line ++
      withNewline (lossRow 2 (lossHeads.getD 1 []) lossShutdown).line
    nextSeq := 3
    prev := lossEnv.sha256Hex (lossRow 2 (lossHeads.getD 1 []) lossShutdown).line
    poisoned := false
    dropped := 0
    gapFirst := none
    gapLast := none }

theorem losses_accounted_sample :
    lossEnv.accounted lossStore.file lossEnd.file =
      attempts ([.lose 2 lossStamp] ++ [.append lossShutdown (lossAppend none)]) :=
  losses_accounted lossEnv sampleRequest lossFile lossFile lossStore lossOpened
    [.lose 2 lossStamp] lossShutdown (lossAppend none) lossEnd ⟨2, lossEnd.prev⟩
    (by decide +kernel) (by decide +kernel) (by decide +kernel) (by decide +kernel)

end PulseNull.Oneself
