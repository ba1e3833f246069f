import PulseNull.Oneself.AppendOnly

/-! What becomes of an event that an append refuses: the store is poisoned and owes a gap row, unless
the row could not be encoded or the seq ran out. -/
namespace PulseNull.Oneself
open Text (ascii newline)
variable {env : Env} {s t : Store}

/-- Appends that were all refused. -/
inductive Store.Refusals (env : Env) (s : Store) : Store → Prop where
  | refl : s.Refusals env s
  | append {t t' : Store} {event : ReceiptEvent} {io : AppendIo} {e : StoreError} :
      s.Refusals env t → t.append env event io = (t', .error e) → s.Refusals env t'

/-- A gap row for at least one event was written after `base`. -/
def Env.GapAfter (env : Env) (base file : Bytes) : Prop :=
  ∃ before rest line seq prev ts dropped first last, base <+: before ∧
    file = before ++ withNewline line ++ rest ∧ 1 ≤ dropped.val ∧
    env.encodeLine seq prev ts (.gap dropped first last) = .ok line

/-- The row that was being written was found at the end of the file. -/
def Env.LandedAfter (env : Env) (base file : Bytes) : Prop :=
  ∃ found seq, base <+: found ∧ found <+: file ∧ env.committedAttempt found seq = true

/-- When an append succeeds again the loss is in a gap row, or the row turned out to have landed. -/
def Store.ReportsLoss (env : Env) (s : Store) : Prop :=
  ∀ t event io t' head, s.Refusals env t → t.append env event io = (t', .ok head) →
    env.GapAfter s.file t'.file ∨ env.LandedAfter s.file t'.file

/-- What a refusal is to leave behind. -/
def Store.Accounts (env : Env) (s : Store) (event : ReceiptEvent) (io : AppendIo) : Prop :=
  ∀ t e, s.append env event io = (t, .error e) →
    t.poisoned = true ∧ t.dropped.val = s.dropped.val + 1 ∧ t.ReportsLoss env

/-- The row is no longer than a line may be, the verifier accepts it, and a seq follows it; a failed
write can be counted. -/
def Store.Encodes (env : Env) (s : Store) (event : ReceiptEvent) (io : AppendIo) : Prop :=
  (∃ text, Json.print (eventRow s.nextSeq s.prev io.eventTs.val event).toValue = some text ∧
    text.length ≤ maxLineBytes ∧ env.acceptsLine text s.nextSeq s.prev = true) ∧
    if io.eventWrite = none then s.nextSeq.val + 1 < 2^64 else s.dropped.val + 1 < 2^64

theorem Env.GapAfter.grow {base file file' : Bytes} (h : env.GapAfter base file) (hf : file <+: file') :
    env.GapAfter base file' := by
  obtain ⟨before, rest, line, seq, prev, ts, dropped, first, last, hbase, rfl, hd, henc⟩ := h
  obtain ⟨more, rfl⟩ := hf
  exact ⟨before, rest ++ more, line, seq, prev, ts, dropped, first, last, hbase, by simp, hd, henc⟩

theorem Env.LandedAfter.grow {base file file' : Bytes} (h : env.LandedAfter base file)
    (hf : file <+: file') : env.LandedAfter base file' := by
  obtain ⟨found, seq, hbase, hfound, hc⟩ := h
  exact ⟨found, seq, hbase, hfound.trans hf, hc⟩

/-- The loss is still to be reported. -/
structure Store.Owes (s : Store) : Prop where
  poisoned : s.poisoned = true
  dropped : 1 ≤ s.dropped.val
  gapFirst : s.gapFirst.isSome = true
  gapLast : s.gapLast.isSome = true

theorem Store.noteFailure_owes (s : Store) (ts : Bytes) : (s.noteFailure ts).Owes where
  poisoned := rfl
  dropped := by
    simp only [Store.noteFailure, U64.saturatingAdd]
    split
    · exact Nat.le_add_left 1 _
    · decide
  gapFirst := rfl
  gapLast := rfl

/-- A loss after `base` is owed, reported, or none. -/
def Env.Covered (env : Env) (base : Bytes) (s : Store) : Prop :=
  s.Owes ∨ env.GapAfter base s.file ∨ env.LandedAfter base s.file

/-- A write that fails leaves a debt; one that could not be encoded leaves the store. -/
theorem writeEvent_error {event : ReceiptEvent} {ts : Stamp} {write : Outcome?} {e : StoreError}
    (h : s.writeEvent env event ts write = (t, .error e)) :
    t = s ∨ t.Owes ∨ t.poisoned = s.poisoned ∧ t.dropped = s.dropped ∧ t.gapFirst = s.gapFirst ∧
      t.gapLast = s.gapLast := by
  unfold Store.writeEvent at h
  split at h
  · exact .inl (Prod.mk.inj h).1.symm
  · cases write with
    | some k =>
      obtain rfl := (Prod.mk.inj h).1
      exact .inr (.inl (Store.noteFailure_owes _ _))
    | none =>
      simp only [writeAllSync] at h
      split at h
      · obtain rfl := (Prod.mk.inj h).1
        exact .inr (.inr ⟨rfl, rfl, rfl, rfl⟩)
      · cases (Prod.mk.inj h).2

theorem Store.Owes.writeEvent {event : ReceiptEvent} {ts : Stamp} {write : Outcome?} {e : StoreError}
    (h : s.Owes) (he : s.writeEvent env event ts write = (t, .error e)) : t.Owes := by
  rcases writeEvent_error he with rfl | ht | ⟨hp, hd, hf, hl⟩
  · exact h
  · exact ht
  · exact ⟨hp ▸ h.poisoned, hd ▸ h.dropped, hf ▸ h.gapFirst, hl ▸ h.gapLast⟩

/-- A store that owes writes a gap row that counts the loss, or still owes. -/
theorem Store.Owes.writeGap {ts : Stamp} {write : Outcome?} {out : Except StoreError Unit} {base : Bytes}
    (h : s.Owes) (hb : base <+: s.file) (hw : s.writeGap env ts write = (t, out)) :
    (∃ e, out = .error e) ∧ t.Owes ∨ env.GapAfter base t.file := by
  obtain ⟨first, hf⟩ := Option.isSome_iff_exists.mp h.gapFirst
  obtain ⟨last, hl⟩ := Option.isSome_iff_exists.mp h.gapLast
  simp only [Store.writeGap, Store.gapEvent, hf, hl] at hw
  generalize hout : s.writeEvent env (.gap s.dropped first (if last < first then first else last)) ts
    write = written at hw
  obtain ⟨u, e | head⟩ := written
  · obtain ⟨rfl, rfl⟩ := Prod.mk.inj hw
    exact .inl ⟨⟨e, rfl⟩, h.writeEvent hout⟩
  · obtain ⟨rfl, -⟩ := Prod.mk.inj hw
    right
    unfold Store.writeEvent at hout
    split at hout
    · cases (Prod.mk.inj hout).2
    · next line hline =>
      cases write with
      | some k => cases (Prod.mk.inj hout).2
      | none =>
        simp only [writeAllSync] at hout
        split at hout
        · cases (Prod.mk.inj hout).2
        · obtain rfl := (Prod.mk.inj hout).1
          exact ⟨s.file, [], line, _, _, _, _, _, _, hb, (List.append_nil _).symm, h.dropped, hline⟩

/-- The file after the repair of a resync is read back; when the store is not poisoned any more the
row that was being written is at its end. -/
theorem Store.Owes.reposition {base : Bytes} {out : Except StoreError Unit} (h : s.Owes)
    (hb : base <+: s.file) (hr : s.reposition env = (t, out)) :
    t.Owes ∨ env.LandedAfter base t.file := by
  have hsettle : ∀ bytes, bytes = s.file →
      (s.settle env bytes).Owes ∨ env.LandedAfter base s.file := by
    rintro _ rfl
    unfold Store.settle
    split
    · next hc => exact .inr ⟨_, _, hb, List.prefix_rfl, hc⟩
    · exact .inl h
  unfold Store.reposition readAll at hr
  split at hr
  · obtain rfl := (Prod.mk.inj hr).1
    exact .inl h
  · next bytes hbytes =>
    have hbytes : bytes = s.file := by
      split at hbytes
      · exact nomatch hbytes
      · exact (Except.ok.inj hbytes).symm
    dsimp only at hr
    have hfile : (s.settle env bytes).file = s.file := settle_file _ _
    split at hr
    · obtain rfl := (Prod.mk.inj hr).1
      exact .inl h
    · split at hr <;>
      · obtain rfl := (Prod.mk.inj hr).1
        rcases hsettle bytes hbytes with ho | hl
        · exact .inl ⟨ho.poisoned, ho.dropped, ho.gapFirst, ho.gapLast⟩
        · exact .inr (by simpa only [hfile] using hl)

theorem Store.Owes.resync {base : Bytes} {ts : Stamp} {write : Outcome?} {out : Except StoreError Unit}
    (h : s.Owes) (hb : base <+: s.file) (hr : s.resync env ts write = (t, out)) :
    t.Owes ∨ env.LandedAfter base t.file := by
  unfold Store.resync at hr
  split at hr
  · obtain rfl := (Prod.mk.inj hr).1
    exact .inl h
  split at hr
  · obtain rfl := (Prod.mk.inj hr).1
    exact .inl h
  next c _ =>
    have hfile : ∀ file, { s with file := file }.Owes := fun file =>
      ⟨h.poisoned, h.dropped, h.gapFirst, h.gapLast⟩
    have hgrow : s.file <+: (env.repairClass s.file c ts write).1 := repairClass_prefix s.file c ts write
    split at hr
    · obtain rfl := (Prod.mk.inj hr).1
      exact .inl (hfile _)
    · obtain rfl := (Prod.mk.inj hr).1
      exact .inl (hfile _)
    · obtain rfl := (Prod.mk.inj hr).1
      exact .inl (hfile _)
    all_goals
      next file he =>
        rw [he] at hgrow
        exact (hfile file).reposition (hb.trans hgrow) hr

/-- Before the event a store that owes reports the loss, finds the row landed, or fails and owes. -/
theorem Store.Owes.prepare {base : Bytes} {io : AppendIo} {out : Except StoreError Unit} (h : s.Owes)
    (hb : base <+: s.file) (hp : s.prepare env io = (t, out)) :
    (∃ e, out = .error e) ∧ t.Owes ∨ env.GapAfter base t.file ∨ env.LandedAfter base t.file := by
  unfold Store.prepare at hp
  rw [if_pos h.poisoned] at hp
  generalize hr : s.resync env io.repairTs io.repairWrite = synced at hp
  have hstarts : s.file <+: synced.1.file := hr ▸ resync_prefix io.repairTs io.repairWrite
  obtain ⟨u, e | _⟩ := synced
  · obtain ⟨rfl, rfl⟩ := Prod.mk.inj hp
    exact .inl ⟨⟨e, rfl⟩, Store.noteFailure_owes _ _⟩
  dsimp only at hp
  rcases h.resync hb hr with hu | hl
  · rw [if_pos hu.poisoned] at hp
    rcases hu.writeGap (hb.trans hstarts) hp with ht | ht
    · exact .inl ht
    · exact .inr (.inl ht)
  · right
    right
    refine hl.grow ?_
    split at hp
    · have hgap := @writeGap_isPrefix env u io.gapTs io.gapWrite
      rwa [hp] at hgap
    · exact (Prod.mk.inj hp).1 ▸ List.prefix_rfl

/-- Whatever an append does, the loss is covered; one that succeeds does not leave it owed. -/
theorem Env.Covered.append {base : Bytes} {event : ReceiptEvent} {io : AppendIo}
    {out : Except StoreError Head} (h : env.Covered base s) (hb : base <+: s.file)
    (ha : s.append env event io = (t, out)) :
    env.Covered base t ∧ ((∃ head, out = .ok head) →
      env.GapAfter base t.file ∨ env.LandedAfter base t.file) := by
  have hgrow : s.file <+: t.file := by
    have := @append_isPrefix env s event io
    rwa [ha] at this
  rcases h with ho | hg | hl
  · unfold Store.append at ha
    split at ha
    · generalize hp : s.prepare env io = prepared at ha
      have hcase := ho.prepare hb hp
      obtain ⟨u, e | _⟩ := prepared
      · obtain ⟨rfl, rfl⟩ := Prod.mk.inj ha
        exact ⟨hcase.imp And.right id, fun ⟨_, hh⟩ => nomatch hh⟩
      · have hfinal : u.file <+: t.file := by
          have := @writeEvent_isPrefix env u event io.eventTs io.eventWrite
          dsimp only at ha
          rwa [ha] at this
        rcases hcase with ⟨⟨_, hc⟩, -⟩ | hg | hl
        · exact nomatch hc
        · have hg := hg.grow hfinal
          exact ⟨.inr (.inl hg), fun _ => .inl hg⟩
        · have hl := hl.grow hfinal
          exact ⟨.inr (.inr hl), fun _ => .inr hl⟩
    · obtain ⟨rfl, rfl⟩ := Prod.mk.inj ha
      exact ⟨.inl ho, fun ⟨_, hh⟩ => nomatch hh⟩
  · have hg : env.GapAfter base t.file := Env.GapAfter.grow hg hgrow
    exact ⟨.inr (.inl hg), fun _ => .inl hg⟩
  · have hl : env.LandedAfter base t.file := Env.LandedAfter.grow hl hgrow
    exact ⟨.inr (.inr hl), fun _ => .inr hl⟩

theorem Store.Owes.reportsLoss (h : s.Owes) : s.ReportsLoss env := by
  intro t event io t' head hr ha
  have hinv : env.Covered s.file t ∧ s.file <+: t.file := by
    clear ha
    induction hr with
    | refl => exact ⟨.inl h, List.prefix_rfl⟩
    | @append t t' event io e _ ha ih =>
      have hgrow := @append_isPrefix env t event io
      rw [ha] at hgrow
      exact ⟨(ih.1.append ih.2 ha).1, ih.2.trans hgrow⟩
  exact (hinv.1.append hinv.2 ha).2 ⟨head, rfl⟩

/-- A failed write with nothing landed. -/
def refusedIo : AppendIo := ⟨lossStamp, none, lossStamp, lossStamp, none, lossStamp, some 0⟩

/-- A stream of a peer whose name the verifier does not take for a principal. -/
def dottedPeer : ReceiptEvent :=
  .opened ⟨ascii "s", ascii "peer", ascii "peer:my.peer", none, none, none⟩

end PulseNull.Oneself
