import PulseNull.Oneself.Extend

/-! Receipt anchors. Every anchored `(seq, head)` is compared with the local chain, and one line
is appended to the backends the chain is ahead of. -/
namespace PulseNull.Oneself
open Text (ascii)

def isPlainPulseName (name : Bytes) : Bool :=
  name ≠ [] && name.head? ≠ some 46 && name.all fun c =>
    Text.isDigit c || (65 ≤ c && c ≤ 90) || (97 ≤ c && c ≤ 122) || c = 45 || c = 95

/-- One published line: `v1 <pulse> <ledger_id> <seq> <head> <ts>`. -/
structure AnchorLine where
  pulse : Bytes
  ledgerId : Bytes
  seq : U64
  head : Bytes
  ts : Bytes
  deriving DecidableEq, Repr

/-- A backend that could not be read or written is `failed` with its own text. -/
inductive AnchorError where
  | config (what : Bytes)
  | busy
  | failed (text : Bytes)
  deriving DecidableEq, Repr

def AnchorError.text : AnchorError → Bytes
  | .config what => ascii "anchor config: " ++ what
  | .busy => ascii "anchor is already running"
  | .failed text => text

inductive NoteState where
  | none | ok | mismatch | rewind | unverified
  deriving DecidableEq, Repr

structure AnchorNote where
  backend : Bytes
  state : NoteState
  detail : Option Bytes
  deriving DecidableEq, Repr

/-- What stops a run before anything is published. -/
inductive Fault where
  | mismatch | rewind
  deriving DecidableEq, Repr

inductive OutcomeState where
  | published | unchanged | dryRun | mismatch | rewind | unverified
  deriving DecidableEq, Repr

def Fault.note : Fault → NoteState
  | .mismatch => .mismatch
  | .rewind => .rewind

def Fault.outcome : Fault → OutcomeState
  | .mismatch => .mismatch
  | .rewind => .rewind

structure AnchorOutcome where
  state : OutcomeState
  backend : Bytes
  line : Option Bytes
  notes : List AnchorNote
  failures : List Bytes
  deriving DecidableEq, Repr

/-! One backend. -/

structure Judged where
  state : NoteState
  failure : Option Fault
  needsPublish : Bool
  detail : Option Bytes

def failed (fault : Fault) (detail : Bytes) : Judged := ⟨fault.note, some fault, false, some detail⟩

/-- `heads.get(&seq)`: a later row replaces an earlier one of the same seq. -/
def ChainIndex.headAt (index : ChainIndex) (seq : U64) : Option Bytes :=
  (index.rows.reverse.find? fun row => row.seq = seq).map IndexedRow.hash

def ChainIndex.ledgerId (index : ChainIndex) : Option Bytes :=
  (index.genesisHash.filter fun hash => 16 ≤ hash.length).map fun hash => hash.take 16

/-- What is wrong with one anchored line. -/
def judgeLine (index : ChainIndex) (lastSeq : Option U64) (line : AnchorLine) : Option Judged :=
  if lastSeq.any fun prev => line.seq < prev then
    some (failed .mismatch (ascii "seq goes backwards"))
  else if line.pulse ≠ index.pulse.getD [] then
    some (failed .mismatch (ascii "pulse " ++ line.pulse))
  else match index.ledgerId with
    | none => some (failed .mismatch (ascii "ledger_id " ++ line.ledgerId))
    | some ledgerId =>
      if line.ledgerId ≠ ledgerId then
        some (failed .mismatch
          (ascii "ledger_id " ++ line.ledgerId ++ ascii " (local " ++ ledgerId ++ ascii ")"))
      else match index.headAt line.seq with
        | some head =>
          if head = line.head then none
          else some (failed .mismatch (ascii "head at seq " ++ Text.decimal line.seq.val))
        | none =>
          if index.report.seq.all fun seq => seq < line.seq then
            some (failed .rewind (ascii "seq " ++ Text.decimal line.seq.val ++ ascii " is ahead"))
          else some (failed .mismatch (ascii "seq " ++ Text.decimal line.seq.val))

def judgeLines (index : ChainIndex) : Option U64 → List AnchorLine → Option Judged
  | _, [] => none
  | lastSeq, line :: rest =>
    match judgeLine index lastSeq line with
    | some judged => some judged
    | none => judgeLines index (some line.seq) rest

def noop : Bytes := ascii "noop"

def judge (name : Bytes) (history : List AnchorLine) (index : ChainIndex) : Judged :=
  if name = noop ∨ history = [] then
    ⟨.none, none, name ≠ noop && index.rows.getLast?.isSome, none⟩
  else match judgeLines index none history with
    | some judged => judged
    | none =>
      { state := .ok
        failure := none
        needsPublish := match index.rows.getLast?.map IndexedRow.seq,
            (history.map AnchorLine.seq).max? with
          | some here, some anchored => anchored < here
          | some _, none => true
          | none, _ => false
        detail := none }

/-! Every backend in turn. -/

structure Assessed where
  failure : Option (Fault × Bytes)
  notes : List AnchorNote
  pending : List Bool
  line : Option AnchorLine
  failures : List Bytes

/-- `assess` before it has read a backend. -/
def ChainIndex.assess (index : ChainIndex) : Except AnchorError Assessed :=
  if index.pulse.any fun pulse => !isPlainPulseName pulse then .error (.config (ascii "pulse"))
  else .ok ⟨none, [], [], none, []⟩

/-- `assess` reads the history of the next backend. -/
def Assessed.consult (a : Assessed) (index : ChainIndex) (name : Bytes)
    (history : Except AnchorError (List AnchorLine)) : Assessed :=
  match if index.pulse.getD [] = [] then .ok [] else history with
  | .error err =>
    { a with
      failures := a.failures ++ [name ++ ascii ": " ++ err.text]
      notes := a.notes ++ [⟨name, .unverified, some err.text⟩]
      pending := a.pending ++ [false] }
  | .ok history =>
    let judged := judge name history index
    { a with
      failure := a.failure.or (judged.failure.map fun fault => (fault, name))
      notes := a.notes ++ [⟨name, judged.state, judged.detail⟩]
      pending := a.pending ++ [judged.needsPublish && judged.failure.isNone] }

def tipLine (index : ChainIndex) : Option AnchorLine := do
  let ledgerId ← index.ledgerId
  let row ← index.rows.getLast?
  let pulse ← index.pulse
  if isPlainPulseName pulse then some ⟨pulse, ledgerId, row.seq, row.hash, row.ts⟩ else none

/-- `assess` after the last backend. -/
def Assessed.close (a : Assessed) (index : ChainIndex) : Assessed :=
  { a with
    pending := if a.failure.isSome then a.pending.map fun _ => false else a.pending
    line := tipLine index }

def outcomeOf (a : Assessed) (line : Option Bytes) (dryRun : Bool) : AnchorOutcome :=
  let (state, backend) := match a.failure with
    | some (fault, backend) => (fault.outcome, backend)
    | none =>
      if a.failures ≠ [] then (.unverified, [])
      else if dryRun then (.dryRun, [])
      else if line.isSome then (.published, [])
      else (.unchanged, [])
  ⟨state, backend, line, a.notes, a.failures⟩

def formatLine (line : AnchorLine) : Bytes :=
  ascii "v1 " ++ line.pulse ++ ascii " " ++ line.ledgerId ++ ascii " " ++ Text.decimal line.seq.val ++
    ascii " " ++ line.head ++ ascii " " ++ line.ts

/-- What `sync` does once every backend has been read. -/
inductive SyncPlan where
  | finish (outcome : AnchorOutcome)
  | publish (line : AnchorLine)

def Assessed.plan (a : Assessed) (dryRun : Bool) : SyncPlan :=
  if a.failure.isSome then
    .finish (outcomeOf { a with pending := a.pending.map fun _ => false } none false)
  else match a.line with
    | none => .finish (outcomeOf a none false)
    | some line =>
      if a.pending.all not then .finish (outcomeOf a none false)
      else if dryRun then .finish (outcomeOf a (some (formatLine line)) true)
      else .publish line

/-- The publish to backend `i` has returned. -/
def Assessed.publishReturned (a : Assessed) (i : Nat) (name : Bytes) :
    Except AnchorError Unit → Assessed
  | .ok () => a
  | .error err =>
    { a with
      notes := a.notes.modify i fun note => { note with state := .unverified, detail := some err.text }
      failures := a.failures ++ [name ++ ascii ": " ++ err.text] }

/-- `sync` after the last publish. -/
def Assessed.finished (a : Assessed) (line : AnchorLine) : AnchorOutcome :=
  outcomeOf a (if a.pending.any id && a.failures = [] then some (formatLine line) else none) false

/-! A history and the chain. -/

/-- The chain has the row a line names. -/
structure Matches (index : ChainIndex) (line : AnchorLine) : Prop where
  pulse : index.pulse = some line.pulse
  ledgerId : index.ledgerId = some line.ledgerId
  row : ∃ row ∈ index.rows, row.seq = line.seq ∧ row.hash = line.head

/-- A history that never goes back, each line of which the chain has. -/
structure Fits (index : ChainIndex) (history : List AnchorLine) : Prop where
  ordered : history.Pairwise fun a b => a.seq ≤ b.seq
  each : ∀ line ∈ history, Matches index line

variable {big small : ChainIndex}

theorem ChainIndex.Extends.ledgerId (h : big.Extends small) : big.ledgerId = small.ledgerId := by
  rw [ChainIndex.ledgerId, h.genesisHash, ChainIndex.ledgerId]

theorem Matches.extend {line : AnchorLine} (hx : big.Extends small) (h : Matches small line) :
    Matches big line := by
  obtain ⟨row, hr, hrow⟩ := h.row
  exact ⟨hx.pulse.trans h.pulse, hx.ledgerId.trans h.ledgerId, row, hx.rows.subset hr, hrow⟩

theorem Fits.extend {history : List AnchorLine} (hx : big.Extends small) (h : Fits small history) :
    Fits big history :=
  ⟨h.ordered, fun line hl => (h.each line hl).extend hx⟩

theorem Fits.nil (index : ChainIndex) : Fits index [] := ⟨.nil, fun _ h => nomatch h⟩

/-- A line past every line of a history goes after them. -/
theorem Fits.snoc {index : ChainIndex} {history : List AnchorLine} {line : AnchorLine}
    (h : Fits index history) (hm : Matches index line)
    (hb : ∀ other ∈ history, other.seq < line.seq) : Fits index (history ++ [line]) := by
  constructor
  · rw [List.pairwise_append]
    refine ⟨h.ordered, List.pairwise_singleton _ _, fun a ha b hb' => ?_⟩
    rw [List.mem_singleton.mp hb']
    exact (hb a ha).le
  · intro other ho
    rcases List.mem_append.mp ho with ho | ho
    · exact h.each other ho
    · exact List.mem_singleton.mp ho ▸ hm

/-! What an index older than the chain makes of a history that fits the chain. -/

theorem ChainIndex.Numbered.le_last {index : ChainIndex} (h : index.Numbered) {row last : IndexedRow}
    (hr : row ∈ index.rows) (hl : index.rows.getLast? = some last) : row.seq ≤ last.seq := by
  obtain ⟨i, hi, rfl⟩ := List.getElem_of_mem hr
  rw [List.getLast?_eq_getElem?] at hl
  obtain ⟨hj, rfl⟩ := List.getElem?_eq_some_iff.mp hl
  rw [Fin.le_def, h.seq_eq i hi, h.seq_eq _ hj]
  omega

theorem ChainIndex.Numbered.headAt_row {index : ChainIndex} (h : index.Numbered) {row : IndexedRow}
    (hr : row ∈ index.rows) : index.headAt row.seq = some row.hash := by
  unfold ChainIndex.headAt
  cases hf : index.rows.reverse.find? fun r => r.seq = row.seq with
  | none => simpa using List.find?_eq_none.mp hf row (List.mem_reverse.mpr hr)
  | some found =>
    have hs : found.seq = row.seq := by simpa using List.find?_some hf
    have hm := List.mem_reverse.mp (List.mem_of_find?_eq_some hf)
    rw [h.unique hm hr hs]
    rfl

theorem ChainIndex.Numbered.headAt_ahead {index : ChainIndex} (h : index.Numbered)
    {last : IndexedRow} (hl : index.rows.getLast? = some last) {seq : U64} (hs : last.seq < seq) :
    index.headAt seq = none := by
  unfold ChainIndex.headAt
  rw [Option.map_eq_none_iff, List.find?_eq_none]
  intro row hr heq
  have hle := h.le_last (List.mem_reverse.mp hr) hl
  simp only [decide_eq_true_eq] at heq
  exact absurd (heq ▸ hle) (not_le_of_gt hs)

variable {tip : IndexedRow}

theorem judgeLine_reached (hx : big.Extends small) (hb : big.Numbered) (hs : small.Numbered)
    (ht : small.rows.getLast? = some tip) {lastSeq : Option U64} {line : AnchorLine}
    (hm : Matches big line) (hlast : ∀ prev ∈ lastSeq, prev ≤ line.seq) (hle : line.seq ≤ tip.seq) :
    judgeLine small lastSeq line = none := by
  obtain ⟨row, hr, hseq, hhash⟩ := hm.row
  have hrow := hx.mem_of_seq_le hb hr (List.mem_of_getLast? ht) (hseq ▸ hle)
  have hhead := hs.headAt_row hrow
  rw [hseq, hhash] at hhead
  have hback : lastSeq.any (fun prev => decide (line.seq < prev)) = false := by
    cases lastSeq with
    | none => rfl
    | some prev => simpa using hlast prev rfl
  simp [judgeLine, hback, ← hx.pulse, hm.pulse, ← hx.ledgerId, hm.ledgerId, hhead]

theorem judgeLine_ahead (hx : big.Extends small) (hs : small.Numbered)
    (ht : small.rows.getLast? = some tip) {lastSeq : Option U64} {line : AnchorLine}
    (hm : Matches big line) (hlast : ∀ prev ∈ lastSeq, prev ≤ line.seq) (hlt : tip.seq < line.seq) :
    ∃ detail, judgeLine small lastSeq line = some (failed .rewind detail) := by
  have hhead := hs.headAt_ahead ht hlt
  have hback : lastSeq.any (fun prev => decide (line.seq < prev)) = false := by
    cases lastSeq with
    | none => rfl
    | some prev => simpa using hlast prev rfl
  have hseq : small.report.seq = some tip.seq := by rw [hs.last, ht]; rfl
  refine ⟨ascii "seq " ++ Text.decimal line.seq.val ++ ascii " is ahead", ?_⟩
  simp [judgeLine, hback, ← hx.pulse, hm.pulse, ← hx.ledgerId, hm.ledgerId, hhead, hseq, hlt]

/-- A history that fits the chain is only ever ahead of an older index. -/
theorem judgeLines_fits (hx : big.Extends small) (hb : big.Numbered) (hs : small.Numbered)
    (ht : small.rows.getLast? = some tip) {history : List AnchorLine} (hf : Fits big history)
    (lastSeq : Option U64) (hlast : ∀ prev ∈ lastSeq, ∀ line ∈ history, prev ≤ line.seq) :
    (judgeLines small lastSeq history = none ∧ ∀ line ∈ history, line.seq ≤ tip.seq) ∨
      (∃ detail, judgeLines small lastSeq history = some (failed .rewind detail)) ∧
        ∃ line ∈ history, tip.seq < line.seq := by
  induction history generalizing lastSeq with
  | nil => exact .inl ⟨rfl, fun _ h => nomatch h⟩
  | cons line rest ih =>
    have hm := hf.each line (by simp)
    have hprev : ∀ prev ∈ lastSeq, prev ≤ line.seq := fun prev hp => hlast prev hp line (by simp)
    rw [judgeLines]
    rcases le_or_gt line.seq tip.seq with hle | hlt
    · rw [judgeLine_reached hx hb hs ht hm hprev hle]
      have hord := List.pairwise_cons.mp hf.ordered
      have hrest : Fits big rest := ⟨hord.2, fun l hl => hf.each l (List.mem_cons_of_mem _ hl)⟩
      rcases ih hrest (some line.seq) (by simpa using hord.1) with ⟨hn, hall⟩ | ⟨hr, l, hl, hlt⟩
      · exact .inl ⟨hn, List.forall_mem_cons.mpr ⟨hle, hall⟩⟩
      · exact .inr ⟨hr, l, List.mem_cons_of_mem _ hl, hlt⟩
    · obtain ⟨detail, hr⟩ := judgeLine_ahead hx hs ht hm hprev hlt
      rw [hr]
      exact .inr ⟨⟨detail, rfl⟩, line, by simp, hlt⟩

/-- Against an older index a history that fits the chain is no mismatch, it is a rewind only if it
has a line past the index, and it wants a line only if all it has are behind the index. -/
theorem judge_fits (hx : big.Extends small) (hb : big.Numbered) (hs : small.Numbered)
    (ht : small.rows.getLast? = some tip) {history : List AnchorLine} (hf : Fits big history)
    (name : Bytes) :
    ((judge name history small).failure = none ∧ ((judge name history small).needsPublish = true →
        name ≠ noop ∧ ∀ line ∈ history, line.seq < tip.seq)) ∨
      (judge name history small).failure = some .rewind ∧ ∃ line ∈ history, tip.seq < line.seq := by
  unfold judge
  split
  · next h =>
    refine .inl ⟨rfl, fun hp => ?_⟩
    simp only [Bool.and_eq_true, decide_eq_true_eq] at hp
    rw [h.resolve_left hp.1]
    exact ⟨hp.1, fun _ h => nomatch h⟩
  next hne =>
  rw [not_or] at hne
  rcases judgeLines_fits hx hb hs ht hf none (fun _ h => nomatch h) with ⟨hn, _⟩ | ⟨⟨d, hr⟩, hahead⟩
  · rw [hn]
    refine .inl ⟨rfl, fun hp => ⟨hne.1, fun line hl => ?_⟩⟩
    simp only [ht, Option.map_some] at hp
    cases hm : (history.map AnchorLine.seq).max? with
    | none => simp [List.max?_eq_none_iff, hne.2] at hm
    | some anchored =>
      have hle := (List.max?_eq_some_iff.mp hm).2 line.seq (List.mem_map_of_mem hl)
      rw [hm] at hp
      exact hle.trans_lt (by simpa using hp)
  · rw [hr]
    exact .inr ⟨rfl, hahead⟩

/-! The outcome is the first fault. -/

theorem outcomeOf_fault {a : Assessed} {fault : Fault} {backend : Bytes} (line : Option Bytes)
    (dryRun : Bool) (h : a.failure = some (fault, backend)) :
    (outcomeOf a line dryRun).state = fault.outcome := by
  simp [outcomeOf, h]

theorem outcomeOf_noFault {a : Assessed} (line : Option Bytes) (dryRun : Bool)
    (h : a.failure = none) (fault : Fault) : (outcomeOf a line dryRun).state ≠ fault.outcome := by
  simp only [outcomeOf, h]
  cases fault <;> split_ifs <;> exact fun h => nomatch h

/-- A plan to publish is for the tip, after a check without a fault. -/
theorem plan_publish {a : Assessed} {dryRun : Bool} {line : AnchorLine}
    (h : a.plan dryRun = .publish line) : a.failure = none ∧ a.line = some line ∧ dryRun = false := by
  unfold Assessed.plan at h
  split at h
  · exact nomatch h
  next hf =>
  split at h
  · exact nomatch h
  next hl =>
  split_ifs at h with hp hd
  exact ⟨by simpa using hf, hl ▸ congrArg some (SyncPlan.publish.inj h), by simpa using hd⟩

theorem plan_finish {a : Assessed} {dryRun : Bool} {o : AnchorOutcome}
    (h : a.plan dryRun = .finish o) : ∃ a' line dryRun, a'.failure = a.failure ∧
      o = outcomeOf a' line dryRun := by
  unfold Assessed.plan at h
  split at h
  · exact ⟨{ a with pending := _ }, none, false, rfl, (SyncPlan.finish.inj h).symm⟩
  split at h
  · exact ⟨a, none, false, rfl, (SyncPlan.finish.inj h).symm⟩
  split_ifs at h
  · exact ⟨a, none, false, rfl, (SyncPlan.finish.inj h).symm⟩
  · exact ⟨a, _, true, rfl, (SyncPlan.finish.inj h).symm⟩

theorem tipLine_eq_some {index : ChainIndex} {line : AnchorLine} (h : tipLine index = some line) :
    Matches index line ∧ ∃ tip, index.rows.getLast? = some tip ∧ line.seq = tip.seq := by
  simp only [tipLine, Option.bind_eq_bind, Option.bind_eq_some_iff] at h
  obtain ⟨ledgerId, hid, tip, ht, pulse, hp, h⟩ := h
  split_ifs at h
  obtain rfl := Option.some.inj h
  exact ⟨⟨hp, hid, tip, List.mem_of_getLast? ht, rfl, rfl⟩, tip, ht, rfl⟩

end PulseNull.Oneself
