import PulseNull.Oneself.Account

/-! The receipt file only grows, and an append that succeeds returns the last row of a file
that verifies, whatever the disk did before. -/
namespace PulseNull.Oneself
open Text (newline)
variable {env : Env} {s : Store} {base : Bytes} {rows : List Accepted}

/-! No call changes a byte that is there. -/

theorem writeEvent_isPrefix (event : ReceiptEvent) (ts : Stamp) (write : Outcome?) :
    s.file <+: (s.writeEvent env event ts write).1.file := by
  unfold Store.writeEvent
  split
  · exact List.prefix_refl _
  · next line _ =>
    cases write with
    | some k => exact List.prefix_append _ _
    | none =>
      simp only [writeAllSync]
      split <;> exact List.prefix_append _ _

theorem writeGap_isPrefix (ts : Stamp) (write : Outcome?) :
    s.file <+: (s.writeGap env ts write).1.file := by
  unfold Store.writeGap
  split
  · exact List.prefix_refl _
  · next event _ =>
    have h : s.file <+: (s.writeEvent env event ts write).1.file := writeEvent_isPrefix event ts write
    split
    · next t e he => rwa [he] at h
    · next t head he => rwa [he] at h

theorem reposition_file (s : Store) : (s.reposition env).1.file = s.file := by
  unfold Store.reposition
  split
  · rfl
  dsimp only
  split
  · rfl
  split <;> exact settle_file _ _

theorem resync_prefix (ts : Stamp) (write : Outcome?) :
    s.file <+: (s.resync env ts write).1.file := by
  unfold Store.resync
  split
  · exact List.prefix_refl _
  split
  · exact List.prefix_refl _
  next c _ =>
    have h : s.file <+: (env.repairClass s.file c ts write).1 := repairClass_prefix s.file c ts write
    split
    all_goals
      next he =>
        rw [he] at h
        first
        | exact h
        | rwa [reposition_file]

theorem prepare_prefix (io : AppendIo) : s.file <+: (s.prepare env io).1.file := by
  unfold Store.prepare
  split
  · have h : s.file <+: (s.resync env io.repairTs io.repairWrite).1.file :=
      resync_prefix io.repairTs io.repairWrite
    split
    · next t e he => rwa [he] at h
    · next t he =>
      rw [he] at h
      split
      · exact h.trans (writeGap_isPrefix io.gapTs io.gapWrite)
      · exact h
  · exact List.prefix_refl _

theorem append_isPrefix (event : ReceiptEvent) (io : AppendIo) :
    s.file <+: (s.append env event io).1.file := by
  unfold Store.append
  split
  · have h : s.file <+: (s.prepare env io).1.file := prepare_prefix io
    split
    · next t e he => rwa [he] at h
    · next t he =>
      rw [he] at h
      exact h.trans (writeEvent_isPrefix event io.eventTs io.eventWrite)
  · exact List.prefix_refl _

@[simp] theorem lose_file (s : Store) (n : Nat) (ts : Stamp) : (s.lose n ts).file = s.file := by
  induction n with
  | zero => rfl
  | succ n ih => exact ih

theorem Op.apply_prefix (op : Op) : s.file <+: (op.apply env s).file := by
  cases op with
  | append event io => exact append_isPrefix event io
  | lose n ts => simp [Op.apply]

/-! What the store knows of its file. -/

/-- The file is the rows the store stands on and, when it is poisoned, what a failed write left
after them; or the seq ran out. -/
inductive Known (env : Env) (s : Store) : Prop where
  | rows {base tail : Bytes} {rows : List Accepted} {landed : Option Accepted} :
      Standing env s base rows → s.file = base ++ tail →
      Tail env base.length s.nextSeq s.prev tail landed → (s.poisoned = false → tail = []) →
      Known env s
  | exhausted : Exhausted s → Known env s

theorem Standing.known (h : Standing env s s.file rows) : Known env s :=
  .rows h (by simp) .clean fun _ => rfl

theorem Known.noteFailure (h : Known env s) (ts : Bytes) : Known env (s.noteFailure ts) := by
  cases h with
  | rows h hf ht _ => exact .rows (h.of_fields rfl rfl) hf ht fun hp => by simp [Store.noteFailure] at hp
  | exhausted h => exact .exhausted ⟨h.last, h.large⟩

theorem Known.lose (h : Known env s) (n : Nat) (ts : Stamp) : Known env (s.lose n ts) := by
  induction n with
  | zero => exact h
  | succ n ih => exact ih.noteFailure ts.val

/-- The last row is `head`. -/
def EndsAt (rows : List Accepted) (head : Head) : Prop :=
  rows.getLast?.map Accepted.seq = some head.seq ∧ headOf rows = head.hash

/-- A write after whole rows: the store knows its file, and on success stands on one more row. -/
theorem Standing.writeEvent (h : Standing env s s.file rows) {event : ReceiptEvent}
    (hr : event.isRecover = false) (ts : Stamp) (write : Outcome?) :
    Known env (s.writeEvent env event ts write).1 ∧
      ∀ t head, s.writeEvent env event ts write = (t, .ok head) →
        ∃ rows', Standing env t t.file rows' ∧ EndsAt rows' head := by
  cases hline : env.encodeLine s.nextSeq s.prev ts.val event with
  | error e =>
    simp only [Store.writeEvent, hline]
    exact ⟨h.known, by simp⟩
  | ok line =>
    obtain ⟨a, ha, hk⟩ := encodeLine_kind hline
    have hr' : a.event.isRecover = false := by
      rw [Bool.eq_false_iff, ne_eq, isRecover_iff, hk, ← isRecover_iff, hr]
      simp
    cases write with
    | some k =>
      obtain ⟨landed, ht, _⟩ := tail_of_failed_write s.file.length ha hr' k
      simp only [Store.writeEvent, hline, writeAllSync]
      refine ⟨?_, by simp⟩
      exact .rows (h.of_fields rfl rfl) rfl ht fun hp => by simp [Store.noteFailure] at hp
    | none =>
      cases hnext : s.nextSeq.checkedAdd 1 with
      | none =>
        simp only [Store.writeEvent, hline, writeAllSync, hnext]
        exact ⟨.exhausted (h.exhausted_of_last hnext (by simp) _), by simp⟩
      | some next =>
        obtain ⟨hseq, hhash⟩ := checkRow_seq ha.check
        have ht : Standing env { s with
            file := s.file ++ withNewline line, prev := env.sha256Hex line, nextSeq := next }
            (s.file ++ withNewline line) (rows ++ [a]) :=
          ⟨h.ledger_line ha hr', by simp, by rw [nextSeq_snoc, hseq, hnext],
            by rw [headOf_snoc, hhash]⟩
        simp only [Store.writeEvent, hline, writeAllSync, hnext]
        refine ⟨ht.known, ?_⟩
        rintro t head heq
        obtain ⟨rfl, hout⟩ := Prod.mk.inj heq
        obtain rfl := Except.ok.inj hout
        exact ⟨_, ht, by simp [hseq], by rw [headOf_snoc, hhash]⟩

theorem Standing.writeGap (h : Standing env s s.file rows) (ts : Stamp) (write : Outcome?) :
    Known env (s.writeGap env ts write).1 ∧ ∀ t, s.writeGap env ts write = (t, .ok ()) →
      ∃ rows', Standing env t t.file rows' := by
  unfold Store.writeGap Store.gapEvent
  cases s.gapFirst with
  | none => exact ⟨h.known, by simp⟩
  | some first =>
  cases s.gapLast with
  | none => exact ⟨h.known, by simp⟩
  | some last =>
  dsimp only
  have hgap : (ReceiptEvent.gap s.dropped first (if last < first then first else last)).isRecover =
      false := rfl
  obtain ⟨hk, hok⟩ := h.writeEvent hgap ts write
  generalize s.writeEvent env _ ts write = out at hk hok
  obtain ⟨t, e | head⟩ := out
  · exact ⟨hk, by simp⟩
  · obtain ⟨rows', ht, _⟩ := hok t head rfl
    have ht' : Standing env
        { t with poisoned := false, dropped := 0, gapFirst := none, gapLast := none }
        t.file rows' := ht.of_fields rfl rfl
    refine ⟨ht'.known, ?_⟩
    rintro u heq
    obtain rfl := (Prod.mk.inj heq).1
    exact ⟨rows', ht'⟩

theorem Known.resync (h : Known env s) (hp : s.poisoned = true) (ts : Stamp) (write : Outcome?) :
    Known env (s.resync env ts write).1 ∧ ∀ t, s.resync env ts write = (t, .ok ()) →
      ∃ rows', Standing env t t.file rows' := by
  cases h with
  | exhausted h =>
    have hres : s.resync env ts write = (s, .error (.tooLarge s.file.length)) := by
      rw [Store.resync, readAll, if_pos h.large]
    rw [hres]
    exact ⟨.exhausted h, by simp⟩
  | rows h hf ht _ =>
    have hres := h.resync hf ht ts write
    generalize s.resync env ts write = out at hres
    cases hres with
    | failed ht => exact ⟨.rows (h.of_fields rfl rfl) rfl ht fun hp' => by simp [hp] at hp', by simp⟩
    | @kept file rows' next _ hl hrows hn =>
      have hne : rows' ≠ [] := by
        rcases hrows with rfl | ⟨r, _, rfl⟩
        · exact h.started
        · simp
      have ht : Standing env { s with file := file, nextSeq := next, prev := headOf rows' } file rows' :=
        ⟨hl, hne, hn, rfl⟩
      refine ⟨ht.known, ?_⟩
      rintro t heq
      obtain rfl := (Prod.mk.inj heq).1
      exact ⟨rows', ht⟩
    | @committed file a next t _ hl hn hfile _ =>
      subst hfile
      have ht' : Standing env { t with nextSeq := next, prev := headOf _ } t.file _ :=
        ⟨hl, by simp, hn, rfl⟩
      refine ⟨ht'.known, ?_⟩
      rintro u heq
      obtain rfl := (Prod.mk.inj heq).1
      exact ⟨_, ht'⟩

/-- What an append writes its event after: the file is whole rows, or the seq ran out. -/
theorem Known.prepare (h : Known env s) (io : AppendIo) :
    Known env (s.prepare env io).1 ∧ ∀ t, s.prepare env io = (t, .ok ()) →
      (∃ rows', Standing env t t.file rows') ∨ Exhausted t := by
  unfold Store.prepare
  split
  · next hp =>
    obtain ⟨hk, hok⟩ := h.resync hp io.repairTs io.repairWrite
    generalize s.resync env io.repairTs io.repairWrite = out at hk hok
    obtain ⟨t, e | _⟩ := out
    · exact ⟨hk.noteFailure _, by simp⟩
    · obtain ⟨rows', ht⟩ := hok t rfl
      dsimp only
      split
      · obtain ⟨hk', hok'⟩ := ht.writeGap io.gapTs io.gapWrite
        exact ⟨hk', fun u hu => .inl (hok' u hu)⟩
      · refine ⟨ht.known, ?_⟩
        rintro u heq
        obtain rfl := (Prod.mk.inj heq).1
        exact .inl ⟨rows', ht⟩
  · next hp =>
    refine ⟨h, ?_⟩
    rintro t heq
    obtain rfl := (Prod.mk.inj heq).1
    cases h with
    | exhausted h => exact .inr h
    | rows h hf _ htail =>
      rw [htail (by simpa using hp), List.append_nil] at hf
      exact .inl ⟨_, hf ▸ h⟩

theorem Known.append (h : Known env s) (event : ReceiptEvent) (io : AppendIo) :
    Known env (s.append env event io).1 ∧ ∀ t head, s.append env event io = (t, .ok head) →
      ∃ rows', Ledger env t.file rows' ∧ EndsAt rows' head := by
  unfold Store.append
  split
  case isFalse => exact ⟨h, by simp⟩
  next happ =>
    have hr : event.isRecover = false := by
      simp only [ReceiptEvent.appendable, Bool.and_eq_true, Bool.not_eq_true'] at happ
      exact happ.1.2
    obtain ⟨hk, hok⟩ := h.prepare io
    generalize s.prepare env io = out at hk hok
    obtain ⟨t, e | _⟩ := out
    · exact ⟨hk, by simp⟩
    dsimp only
    rcases hok t rfl with ⟨rows', ht⟩ | hx
    · obtain ⟨hk', hok'⟩ := ht.writeEvent hr io.eventTs io.eventWrite
      refine ⟨hk', fun u head hu => ?_⟩
      obtain ⟨rows'', hu', hend⟩ := hok' u head hu
      exact ⟨rows'', hu'.ledger, hend⟩
    · have hfail : (∃ e, (t.writeEvent env event io.eventTs io.eventWrite).2 = .error e) ∧
          Exhausted (t.writeEvent env event io.eventTs io.eventWrite).1 :=
        hx.writeEvent event io.eventTs io.eventWrite
      obtain ⟨⟨e, he⟩, hx'⟩ := hfail
      refine ⟨.exhausted hx', fun u head hu => ?_⟩
      rw [hu] at he
      simp at he

theorem Known.step (h : Known env s) (op : Op) : Known env (op.apply env s) := by
  cases op with
  | append event io => exact (h.append event io).1
  | lose n ts => exact h.lose n.val ts

theorem Known.run (h : Known env s) (ops : List Op) : Known env (runOps env s ops) := by
  induction ops generalizing s with
  | nil => exact h
  | cons op ops ih => exact ih (h.step op)

/-- After any run from an open, a call keeps every byte of the file in place, and an append that
returns `head` leaves a file that verifies and ends in `head`. -/
theorem append_only_refinement (env : Env) (req : OpenRequest) (file file' : Bytes)
    (store : Store) (opened : Opened) (ops : List Op)
    (hopen : env.openOnce req file = (file', .ok (.ready store opened))) :
    (∀ op : Op, (runOps env store ops).file <+: (op.apply env (runOps env store ops)).file) ∧
      ∀ event io s' head, (runOps env store ops).append env event io = (s', .ok head) →
        (env.verifyLines s'.file).firstBreak = none ∧
          (env.verifyLines s'.file).seq = some head.seq ∧
          (env.verifyLines s'.file).head = head.hash := by
  refine ⟨fun op => op.apply_prefix, fun event io s' head happend => ?_⟩
  obtain ⟨rows, hb, hset⟩ := openOnce_books hopen
  have hknown : Known env store := .rows hb.standing hb.file hb.tail fun _ => rfl
  obtain ⟨rows', hl, hseq, hhead⟩ := ((hknown.run ops).append event io).2 s' head happend
  obtain ⟨_, hs, hh, hbreak⟩ := hl.report
  exact ⟨hbreak, hs.trans hseq, hh.trans hhead⟩

def lossEndHead : Head := ⟨2, lossEnd.prev⟩

/-- Two losses and an append: the gap row and the event are the last two rows. -/
theorem append_only_refinement_sample :
    (lossEnv.verifyLines lossEnd.file).firstBreak = none ∧
      (lossEnv.verifyLines lossEnd.file).seq = some lossEndHead.seq ∧
      (lossEnv.verifyLines lossEnd.file).head = lossEndHead.hash :=
  (append_only_refinement lossEnv sampleRequest lossFile lossFile lossStore lossOpened
    [.lose 2 lossStamp] (by decide +kernel)).2 lossShutdown (lossAppend none) lossEnd lossEndHead
    (by decide +kernel)

end PulseNull.Oneself
