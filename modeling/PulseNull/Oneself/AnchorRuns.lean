import PulseNull.Oneself.Anchor
import PulseNull.Oneself.Account
import PulseNull.Machine

/-! Any number of `anchor` runs beside a receipt file that grows. A run reads the file before it
takes `anchors.lock`, so its index may be older than a line another run has published. -/
namespace PulseNull.Oneself
open Text (ascii newline)

/-- A backend that answers every call and keeps every line it is given. -/
structure Backend where
  name : Bytes
  lines : List AnchorLine

def Backend.history (b : Backend) : Except AnchorError (List AnchorLine) :=
  .ok (if b.name = noop then [] else b.lines)

def Backend.publish (b : Backend) (line : AnchorLine) : Backend :=
  if b.name = noop then b else { b with lines := b.lines ++ [line] }

/-- How a run ends: `refused` is exit 2, `broken` is exit 1. -/
inductive Ending where
  | refused (text : Bytes)
  | broken (note : VerifyNote)
  | outcome (o : AnchorOutcome)

/-- Where a run is. `checking` and `syncing` have read the backends their notes are about. -/
inductive AnchorPhase where
  | checking (a : Assessed)
  | locking
  | syncing (a : Assessed)
  | publishing (a : Assessed) (line : AnchorLine) (next : Nat)
  | ended (e : Ending)

/-- One run of `anchor`. `heard` is not in the program: it is how many lines each backend held
when the run read the file. -/
structure AnchorRun where
  dryRun : Bool
  index : ChainIndex
  heard : List Nat
  phase : AnchorPhase

structure System where
  file : Bytes
  backends : List Backend
  lock : Option Nat
  runs : List AnchorRun

inductive Act where
  | grow (more : Bytes)
  | anchor (pulse : Bytes) (dryRun : Bool)
  | advance (run : Nat)

/-- The index of the whole lines of a file. -/
def Env.chain (env : Env) (file : Bytes) : ChainIndex := env.indexBytes (completePrefix file)

/-- A run up to the point where it turns to the backends. -/
def Env.opened (pulse : Bytes) (dryRun : Bool) (index : ChainIndex) : AnchorPhase :=
  if !isPlainPulseName pulse then
    .ended (.refused (ascii "pulse must be letters, digits, - or _"))
  else match index.report.firstBreak with
    | some broken => .ended (.broken broken)
    | none =>
      if index.pulse ≠ some pulse then
        .ended (.refused (ascii "pulse does not match the genesis row"))
      else match index.assess with
        | .error err => .ended (.refused err.text)
        | .ok a => if dryRun then .syncing a else .checking a

def OutcomeState.stops : OutcomeState → Bool
  | .mismatch | .rewind | .unverified => true
  | .published | .unchanged | .dryRun => false

def System.setPhase (s : System) (i : Nat) (run : AnchorRun) (phase : AnchorPhase) : System :=
  { s with runs := s.runs.set i { run with phase := phase } }

/-- The run returns, which drops the lock if it holds it. -/
def System.finish (s : System) (i : Nat) (run : AnchorRun) (o : AnchorOutcome) : System :=
  { s.setPhase i run (.ended (.outcome o)) with lock := if s.lock = some i then none else s.lock }

/-- Run `i` takes its next step: one history read, the lock, or one publish. -/
def System.advance (s : System) (i : Nat) : System :=
  match s.runs[i]? with
  | none => s
  | some run =>
    match run.phase with
    | .checking a =>
      match s.backends[a.notes.length]? with
      | some b => s.setPhase i run (.checking (a.consult run.index b.name b.history))
      | none =>
        let preview := outcomeOf (a.close run.index) none false
        if preview.state.stops then s.finish i run preview else s.setPhase i run .locking
    | .locking =>
      match s.lock with
      | some _ => s.setPhase i run (.ended (.refused AnchorError.busy.text))
      | none =>
        match run.index.assess with
        | .error err => s.setPhase i run (.ended (.refused err.text))
        | .ok a => { s.setPhase i run (.syncing a) with lock := some i }
    | .syncing a =>
      match s.backends[a.notes.length]? with
      | some b => s.setPhase i run (.syncing (a.consult run.index b.name b.history))
      | none =>
        match (a.close run.index).plan run.dryRun with
        | .finish o => s.finish i run o
        | .publish line => s.setPhase i run (.publishing (a.close run.index) line 0)
    | .publishing a line next =>
      match s.backends[next]? with
      | none => s.finish i run (a.finished line)
      | some b =>
        if a.pending[next]? = some true then
          { s.setPhase i run (.publishing (a.publishReturned next b.name (.ok ())) line (next + 1)) with
            backends := s.backends.set next (b.publish line) }
        else s.setPhase i run (.publishing a line (next + 1))
    | .ended _ => s

def System.step (env : Env) (s : System) : Act → System
  | .grow more => { s with file := s.file ++ more }
  | .anchor pulse dryRun =>
    let index := env.chain s.file
    { s with runs := s.runs ++
        [⟨dryRun, index, s.backends.map fun b => b.lines.length, Env.opened pulse dryRun index⟩] }
  | .advance i => s.advance i

def System.machine (env : Env) (s : System) : Machine System Act := ⟨s, System.step env⟩

/-- The file grows by accepted rows. An unfinished row may follow them. -/
def System.accepted (env : Env) (s : System) : Act → Bool
  | .grow more => (env.verifyLines (completePrefix (s.file ++ more))).firstBreak = none
  | _ => true

/-- The backend run `i` reads next, with the number of lines it held when the run read the file. -/
def System.consulting (s : System) (i : Nat) : Option (AnchorRun × Backend × Nat) := do
  let run ← s.runs[i]?
  let a ← match run.phase with
    | .checking a | .syncing a => some a
    | _ => none
  return (run, ← s.backends[a.notes.length]?, ← run.heard[a.notes.length]?)

/-- A run that reads a backend finds no line there, published since it read the file, for a row
its file did not have. -/
def System.noneNewer (s : System) : Act → Bool
  | .advance i =>
    match s.consulting i with
    | some (run, b, heard) =>
      (b.lines.drop heard).all fun line => run.index.rows.any fun row => line.seq ≤ row.seq
    | none => true
  | _ => true

/-- No run yet, an honest file, and histories that fit it. -/
structure System.Ready (env : Env) (s : System) : Prop where
  honest : (env.verifyLines (completePrefix s.file)).firstBreak = none
  fits : ∀ b ∈ s.backends, Fits (env.chain s.file) b.lines
  lock : s.lock = none
  runs : s.runs = []

/-- The state a run has ended in. -/
def AnchorRun.outcome (run : AnchorRun) : Option OutcomeState :=
  match run.phase with
  | .ended (.outcome o) => some o.state
  | _ => none

/-! What a run that has not ended knows. -/

variable {env : Env} {s s' : System} {i : Nat} {run : AnchorRun} {a : Assessed}

/-- The index of a run is of an older file, and it reaches all a backend held at the reading. -/
structure Live (env : Env) (s : System) (run : AnchorRun) : Prop where
  older : (env.chain s.file).Extends run.index
  numbered : run.index.Numbered
  pulse : ∃ pulse, run.index.pulse = some pulse ∧ isPlainPulseName pulse = true
  tip : ∃ tip, run.index.rows.getLast? = some tip
  counted : run.heard.length = s.backends.length
  heard : ∀ (k n : Nat) (b : Backend), run.heard[k]? = some n → s.backends[k]? = some b → n ≤ b.lines.length ∧
    ∀ line ∈ b.lines.take n, ∃ row ∈ run.index.rows, line.seq ≤ row.seq

/-- A check that has read some of the backends. -/
structure Reading (a : Assessed) : Prop where
  counted : a.pending.length = a.notes.length
  noFailures : a.failures = []
  rewinds : ∀ f ∈ a.failure, f.1 = .rewind

/-- Backends from `next` on that wait for a line hold older lines only. -/
def Behind (s : System) (run : AnchorRun) (pending : List Bool) (next : Nat) : Prop :=
  ∀ (k : Nat) (b : Backend), next ≤ k → pending[k]? = some true → s.backends[k]? = some b →
    b.name ≠ noop ∧ ∀ tip ∈ run.index.rows.getLast?, ∀ line ∈ b.lines, line.seq < tip.seq

theorem outcome_eq_some {state : OutcomeState} (h : run.outcome = some state) :
    ∃ o, run.phase = .ended (.outcome o) ∧ o.state = state := by
  unfold AnchorRun.outcome at h
  split at h
  · next o hp => exact ⟨o, hp, Option.some.inj h⟩
  · exact nomatch h

/-- What holds of run `i` in each phase. -/
inductive PhaseSound (env : Env) (s : System) (i : Nat) (run : AnchorRun) : AnchorPhase → Prop where
  | checking {a : Assessed} : Live env s run → Reading a → PhaseSound env s i run (.checking a)
  | locking : Live env s run → PhaseSound env s i run .locking
  | syncing {a : Assessed} : Live env s run → Reading a →
      (run.dryRun = false → s.lock = some i ∧ Behind s run a.pending 0) →
      PhaseSound env s i run (.syncing a)
  | publishing {a : Assessed} {line : AnchorLine} {next : Nat} : Live env s run → Reading a →
      a.failure = none → s.lock = some i → tipLine run.index = some line →
      Behind s run a.pending next → PhaseSound env s i run (.publishing a line next)
  | ended {e : Ending} : (∀ o, e = .outcome o → o.state ≠ .mismatch) →
      PhaseSound env s i run (.ended e)

structure System.Sound (env : Env) (s : System) : Prop where
  honest : ∃ rows, Ledger env (completePrefix s.file) rows
  fits : ∀ b ∈ s.backends, Fits (env.chain s.file) b.lines
  runs : ∀ i run, s.runs[i]? = some run → PhaseSound env s i run run.phase

/-! The rest of the system moves. -/

/-- The chain and the histories only grow. -/
structure Grows (env : Env) (s s' : System) : Prop where
  chain : (env.chain s.file).pulse.isSome → (env.chain s'.file).Extends (env.chain s.file)
  counted : s'.backends.length = s.backends.length
  grown : ∀ (k : Nat) (b' : Backend), s'.backends[k]? = some b' →
    ∃ b : Backend, s.backends[k]? = some b ∧ b.lines <+: b'.lines

/-- What one step changes, as seen by run `i` that does not take it. -/
structure Elsewhere (env : Env) (s s' : System) (i : Nat) : Prop where
  grows : Grows env s s'
  lock : s.lock = some i → s'.lock = some i ∧ s'.backends = s.backends

theorem Live.grows (h : Live env s run) (he : Grows env s s') : Live env s' run := by
  obtain ⟨pulse, hp, hplain⟩ := h.pulse
  refine ⟨(he.chain (by rw [h.older.pulse, hp]; rfl)).trans h.older, h.numbered, ⟨pulse, hp, hplain⟩,
    h.tip, h.counted.trans he.counted.symm, fun k n b' hn hb' => ?_⟩
  obtain ⟨b, hb, rest, hrest⟩ := he.grown k b' hb'
  obtain ⟨hle, hrow⟩ := h.heard k n b hn hb
  rw [← hrest, List.length_append, List.take_append_of_le_length hle]
  exact ⟨by omega, hrow⟩

theorem Behind.elsewhere {pending : List Bool} {next : Nat} (h : Behind s run pending next)
    (hb : s'.backends = s.backends) : Behind s' run pending next := by
  unfold Behind
  rw [hb]
  exact h

theorem PhaseSound.elsewhere {phase : AnchorPhase} (h : PhaseSound env s i run phase)
    (he : Elsewhere env s s' i) : PhaseSound env s' i run phase := by
  cases h with
  | checking live reading => exact .checking (live.grows he.grows) reading
  | locking live => exact .locking (live.grows he.grows)
  | syncing live reading held =>
    refine .syncing (live.grows he.grows) reading fun hd => ?_
    obtain ⟨hlock, hbehind⟩ := held hd
    exact ⟨(he.lock hlock).1, hbehind.elsewhere (he.lock hlock).2⟩
  | publishing live reading hf hlock htip hbehind =>
    exact .publishing (live.grows he.grows) reading hf (he.lock hlock).1 htip
      (hbehind.elsewhere (he.lock hlock).2)
  | ended h => exact .ended h

/-- Run `i` moves to `phase`; the other runs see what changed as `Elsewhere`. -/
theorem System.Sound.move (h : s.Sound env) (hrun : s.runs[i]? = some run) {phase : AnchorPhase}
    (hfile : s'.file = s.file) (hruns : s'.runs = s.runs.set i { run with phase := phase })
    (hfits : ∀ b ∈ s'.backends, Fits (env.chain s'.file) b.lines)
    (helse : ∀ j, j ≠ i → Elsewhere env s s' j)
    (hnew : PhaseSound env s' i { run with phase := phase } phase) : s'.Sound env := by
  refine ⟨hfile ▸ h.honest, hfits, fun j other hj => ?_⟩
  rw [hruns] at hj
  by_cases hji : j = i
  · subst hji
    have hlt := (List.getElem?_eq_some_iff.mp hrun).1
    rw [List.getElem?_set_self hlt] at hj
    obtain rfl := Option.some.inj hj
    exact hnew
  · rw [List.getElem?_set_ne (Ne.symm hji)] at hj
    exact (h.runs j other hj).elsewhere (helse j hji)

/-- A step that leaves the file and the backends, and the lock unless it is run `i`'s or free. -/
theorem Elsewhere.of_backends {j : Nat} (hfile : s'.file = s.file) (hb : s'.backends = s.backends)
    (hlock : s.lock = some j → s'.lock = some j) : Elsewhere env s s' j :=
  ⟨⟨fun _ => hfile ▸ .refl _, by rw [hb], fun k b' h => ⟨b', hb ▸ h, List.prefix_rfl⟩⟩,
    fun h => ⟨hlock h, hb⟩⟩

/-- A phase says the same of a run whatever phase the record holds. -/
theorem PhaseSound.of_run {phase other : AnchorPhase} (h : PhaseSound env s i run phase) :
    PhaseSound env s i { run with phase := other } phase := by
  have live {r : AnchorRun} (h : Live env s r) (other : AnchorPhase) :
      Live env s { r with phase := other } :=
    ⟨h.older, h.numbered, h.pulse, h.tip, h.counted, h.heard⟩
  cases h with
  | checking hl hr => exact .checking (live hl _) hr
  | locking hl => exact .locking (live hl _)
  | syncing hl hr held => exact .syncing (live hl _) hr held
  | publishing hl hr hf hlock htip hbehind => exact .publishing (live hl _) hr hf hlock htip hbehind
  | ended h => exact .ended h

theorem System.Sound.setPhase (h : s.Sound env) (hrun : s.runs[i]? = some run) {phase : AnchorPhase}
    (hnew : PhaseSound env s i run phase) : (s.setPhase i run phase).Sound env := by
  have same : Elsewhere env s (s.setPhase i run phase) i := .of_backends rfl rfl id
  exact h.move hrun rfl rfl h.fits (fun j _ => .of_backends rfl rfl id) (hnew.elsewhere same).of_run

theorem System.Sound.finish (h : s.Sound env) (hrun : s.runs[i]? = some run) {o : AnchorOutcome}
    (ho : o.state ≠ .mismatch) : (s.finish i run o).Sound env := by
  refine h.move hrun rfl rfl h.fits (fun j hj => .of_backends rfl rfl fun hlock => ?_) ?_
  · simp only [System.finish, hlock, Option.some.injEq, hj, if_false]
  · refine .ended fun o' he => ?_
    obtain rfl := Ending.outcome.inj he
    exact ho

/-! One history read. -/

theorem Live.tip_row (h : Live env s run) {tip : IndexedRow} (ht : run.index.rows.getLast? = some tip)
    {seq : U64} (hs : ∃ row ∈ run.index.rows, seq ≤ row.seq) : seq ≤ tip.seq := by
  obtain ⟨row, hr, hle⟩ := hs
  exact hle.trans (h.numbered.le_last hr ht)

theorem Live.consult_eq (h : Live env s run) (b : Backend) :
    a.consult run.index b.name b.history =
      let judged := judge b.name (if b.name = noop then [] else b.lines) run.index
      { a with
        failure := a.failure.or (judged.failure.map fun fault => (fault, b.name))
        notes := a.notes ++ [⟨b.name, judged.state, judged.detail⟩]
        pending := a.pending ++ [judged.needsPublish && judged.failure.isNone] } := by
  obtain ⟨pulse, hp, hplain⟩ := h.pulse
  have hne : pulse ≠ [] := by
    rintro rfl
    exact nomatch hplain
  simp [Assessed.consult, Backend.history, hp, hne]

/-- A backend that fits the chain is no mismatch for a run. It is a rewind only if it holds a line
past the run's tip, and it waits for a line only if all it holds is behind the tip. -/
theorem Live.judged (hs : s.Sound env) (h : Live env s run) {b : Backend} (hb : b ∈ s.backends)
    {tip : IndexedRow} (ht : run.index.rows.getLast? = some tip) :
    let judged := judge b.name (if b.name = noop then [] else b.lines) run.index
    (judged.failure = none ∧ (judged.needsPublish = true →
        b.name ≠ noop ∧ ∀ line ∈ b.lines, line.seq < tip.seq)) ∨
      judged.failure = some .rewind ∧ ∃ line ∈ b.lines, tip.seq < line.seq := by
  obtain ⟨rows, hl⟩ := hs.honest
  by_cases hn : b.name = noop
  · rw [if_pos hn]
    rcases judge_fits h.older hl.numbered h.numbered ht (.nil _) b.name with ⟨hf, hp⟩ | ⟨_, _, hm, _⟩
    · exact .inl ⟨hf, fun h => absurd hn (hp h).1⟩
    · exact nomatch hm
  · rw [if_neg hn]
    exact judge_fits h.older hl.numbered h.numbered ht (hs.fits b hb) b.name

theorem Reading.consult (hs : s.Sound env) (h : Live env s run) (hr : Reading a) {b : Backend}
    (hb : b ∈ s.backends) : Reading (a.consult run.index b.name b.history) := by
  obtain ⟨tip, ht⟩ := h.tip
  rw [h.consult_eq]
  refine ⟨by simp [hr.counted], hr.noFailures, fun f hf => ?_⟩
  cases hfail : a.failure with
  | some g => exact hr.rewinds f (by simpa [hfail] using hf)
  | none =>
    simp only [hfail, Option.none_or, Option.mem_def, Option.map_eq_some_iff] at hf
    obtain ⟨fault, hfault, rfl⟩ := hf
    rcases Live.judged hs h hb ht with ⟨hn, _⟩ | ⟨hrw, _⟩
    · exact absurd (hfault.symm.trans hn) (by simp)
    · exact (Option.some.inj (hrw ▸ hfault)).symm

theorem Behind.consult (hs : s.Sound env) (h : Live env s run) (hr : Reading a) {b : Backend}
    (hb : s.backends[a.notes.length]? = some b) (hbehind : Behind s run a.pending 0) :
    Behind s run (a.consult run.index b.name b.history).pending 0 := by
  intro k b' _ hk hb'
  obtain ⟨tip, ht⟩ := h.tip
  rw [h.consult_eq] at hk
  simp only [List.getElem?_append] at hk
  split at hk
  · exact hbehind k b' (Nat.zero_le _) hk hb'
  next hge =>
  have hk' : k = a.notes.length := by
    have := (List.getElem?_eq_some_iff.mp hk).1
    simp only [List.length_cons, List.length_nil] at this
    have := hr.counted
    omega
  subst hk'
  obtain rfl := Option.some.inj (hb.symm.trans hb')
  have hneeds := (List.mem_singleton.mp (List.mem_of_getElem? hk)).symm
  rw [Bool.and_eq_true] at hneeds
  rcases Live.judged hs h (List.mem_of_getElem? hb) ht with ⟨_, hp⟩ | ⟨hrw, _⟩
  · refine ⟨(hp hneeds.1).1, fun tip' ht' => ?_⟩
    obtain rfl := Option.some.inj (ht.symm.trans ht')
    exact (hp hneeds.1).2
  · simp [hrw] at hneeds

/-! One step of the system. -/

theorem assess_eq_ok {index : ChainIndex} (h : index.assess = .ok a) : a = ⟨none, [], [], none, []⟩ := by
  unfold ChainIndex.assess at h
  split at h
  · exact nomatch h
  · exact (Except.ok.inj h).symm

theorem Reading.start : Reading ⟨none, [], [], none, []⟩ := ⟨rfl, rfl, fun _ h => nomatch h⟩

theorem Reading.close (h : Reading a) (index : ChainIndex) : Reading (a.close index) := by
  refine ⟨?_, h.noFailures, h.rewinds⟩
  unfold Assessed.close
  split
  · simpa using h.counted
  · exact h.counted

/-- An outcome that is a fault is the fault of the reading. -/
theorem not_mismatch (h : ∀ f ∈ a.failure, f.1 = .rewind) (line : Option Bytes) (dryRun : Bool) :
    (outcomeOf a line dryRun).state ≠ .mismatch := by
  cases hf : a.failure with
  | none => exact outcomeOf_noFault line dryRun hf .mismatch
  | some f =>
    obtain ⟨fault, backend⟩ := f
    obtain rfl : fault = .rewind := h _ hf
    rw [outcomeOf_fault line dryRun hf]
    exact fun h => nomatch h

theorem Behind.publish (h : Behind s run a.pending next) {b : Backend} (line : AnchorLine) :
    Behind { s with backends := s.backends.set next (b.publish line) } run a.pending (next + 1) := by
  intro k b' hk hpend hb'
  rw [List.getElem?_set_ne (by omega)] at hb'
  exact h k b' (by omega) hpend hb'

theorem published_grown {next : Nat} {b : Backend} (hb : s.backends[next]? = some b)
    (line : AnchorLine) (k : Nat) (b' : Backend)
    (hk : (s.backends.set next (b.publish line))[k]? = some b') :
    ∃ b : Backend, s.backends[k]? = some b ∧ b.lines <+: b'.lines := by
  by_cases hkn : next = k
  · subst hkn
    rw [List.getElem?_set_self (List.getElem?_eq_some_iff.mp hb).1] at hk
    obtain rfl := Option.some.inj hk
    refine ⟨b, hb, ?_⟩
    unfold Backend.publish
    split
    · exact List.prefix_rfl
    · exact List.prefix_append _ _
  · rw [List.getElem?_set_ne hkn] at hk
    exact ⟨b', hk, List.prefix_rfl⟩

/-- The lines of a publish go after older lines, so the history still fits. -/
theorem System.Sound.publish_fits (h : s.Sound env) (live : Live env s run) {line : AnchorLine}
    (hline : tipLine run.index = some line) {next : Nat} {b : Backend}
    (hb : s.backends[next]? = some b) (hbehind : Behind s run a.pending next)
    (hpend : a.pending[next]? = some true) :
    ∀ b' ∈ s.backends.set next (b.publish line), Fits (env.chain s.file) b'.lines := by
  intro b' hb'
  rcases List.mem_or_eq_of_mem_set hb' with hm | rfl
  · exact h.fits b' hm
  obtain ⟨hn, hlt⟩ := hbehind next b le_rfl hpend hb
  obtain ⟨hmatch, tip, ht, hseq⟩ := tipLine_eq_some hline
  rw [Backend.publish, if_neg hn]
  refine (h.fits b (List.mem_of_getElem? hb)).snoc (hmatch.extend live.older) fun other ho => ?_
  rw [hseq]
  exact hlt tip ht other ho

theorem System.Sound.advance (h : s.Sound env) (i : Nat) : (s.advance i).Sound env := by
  unfold System.advance
  cases hrun : s.runs[i]? with
  | none => exact h
  | some run =>
  have hphase := h.runs i run hrun
  cases hp : run.phase with
  | ended e => simpa only [hp] using h
  | checking a =>
    rw [hp] at hphase
    cases hphase with | checking live reading =>
    cases hb : s.backends[a.notes.length]? with
    | some b =>
      simp only [hp, hb]
      exact h.setPhase hrun (.checking live (reading.consult h live (List.mem_of_getElem? hb)))
    | none =>
      simp only [hp, hb]
      split
      · exact h.finish hrun (not_mismatch (reading.close run.index).rewinds _ _)
      · exact h.setPhase hrun (.locking live)
  | locking =>
    rw [hp] at hphase
    cases hphase with | locking live =>
    cases hl : s.lock with
    | some j =>
      simp only [hp]
      exact h.setPhase hrun (.ended fun o he => nomatch he)
    | none =>
      cases ha : run.index.assess with
      | error err =>
        simp only [hp, ha]
        exact h.setPhase hrun (.ended fun o he => nomatch he)
      | ok a =>
        simp only [hp, ha]
        obtain rfl := assess_eq_ok ha
        have free (j : Nat) : s.lock = some j → False := by simp [hl]
        refine h.move hrun rfl rfl h.fits (fun j _ => .of_backends rfl rfl fun h => (free j h).elim) ?_
        have same : Grows env s
            { s.setPhase i run (.syncing ⟨none, [], [], none, []⟩) with lock := some i } :=
          ⟨fun _ => .refl _, rfl, fun k b' h => ⟨b', h, List.prefix_rfl⟩⟩
        refine .of_run (.syncing (live.grows same) .start fun _ => ⟨rfl, ?_⟩)
        intro k b _ hk _
        simp at hk
  | syncing a =>
    rw [hp] at hphase
    cases hphase with | syncing live reading held =>
    cases hb : s.backends[a.notes.length]? with
    | some b =>
      simp only [hp, hb]
      refine h.setPhase hrun (.syncing live
        (reading.consult h live (List.mem_of_getElem? hb)) fun hd => ?_)
      exact ⟨(held hd).1, (held hd).2.consult h live reading hb⟩
    | none =>
      cases hplan : (a.close run.index).plan run.dryRun with
      | finish o =>
        simp only [hp, hb, hplan]
        obtain ⟨a', line, dry, hfail, rfl⟩ := plan_finish hplan
        exact h.finish hrun (not_mismatch (hfail ▸ (reading.close run.index).rewinds) _ _)
      | publish line =>
        simp only [hp, hb, hplan]
        obtain ⟨hfail, hline, hd⟩ := plan_publish hplan
        obtain ⟨hlock, hbehind⟩ := held hd
        refine h.setPhase hrun (.publishing live (reading.close run.index) hfail hlock hline ?_)
        have hpend : (a.close run.index).pending = a.pending := by
          have : a.failure = none := hfail
          simp [Assessed.close, this]
        rw [hpend]
        exact hbehind
  | publishing a line next =>
    rw [hp] at hphase
    cases hphase with | publishing live reading hfail hlock hline hbehind =>
    cases hb : s.backends[next]? with
    | none =>
      simp only [hp, hb]
      exact h.finish hrun (not_mismatch reading.rewinds _ _)
    | some b =>
      simp only [hp, hb]
      split
      · next hpend =>
        have grows : Grows env s
            { s.setPhase i run (.publishing (a.publishReturned next b.name (.ok ())) line (next + 1))
              with backends := s.backends.set next (b.publish line) } :=
          ⟨fun _ => .refl _, List.length_set, published_grown hb line⟩
        refine h.move hrun rfl rfl (h.publish_fits live hline hb hbehind hpend)
          (fun j hj => ⟨grows, fun hj' => ?_⟩)
          (.of_run (.publishing (live.grows grows) reading hfail hlock hline (hbehind.publish line)))
        exact absurd (Option.some.inj (hj'.symm.trans hlock)) hj
      · next hpend =>
        refine h.setPhase hrun (.publishing live reading hfail hlock hline ?_)
        intro k b' hk hk' hb'
        exact hbehind k b' (by omega) hk' hb'

/-- The chain of a file that has a first row stays as it is when the file grows. -/
theorem chain_grows {file : Bytes} {rows : List Accepted}
    (h : Ledger env (completePrefix file) rows) (hp : (env.chain file).pulse.isSome) (more : Bytes) :
    (env.chain (file ++ more)).Extends (env.chain file) := by
  obtain ⟨rest, hrest⟩ := completePrefix_append file more
  have hne : completePrefix file ≠ [] := by
    intro he
    rw [Env.chain, he] at hp
    exact nomatch hp
  unfold Env.chain
  rw [hrest]
  exact h.indexBytes_extends hne rest

theorem System.Sound.grow (h : s.Sound env) {more : Bytes}
    (hok : s.accepted env (.grow more) = true) :
    System.Sound env { s with file := s.file ++ more } := by
  obtain ⟨rows, hl⟩ := h.honest
  refine ⟨verifyLines_noBreak.mp (of_decide_eq_true hok), fun b hb => ?_, fun i run hrun => ?_⟩
  · cases hp : (env.chain s.file).pulse with
    | some pulse => exact (h.fits b hb).extend (chain_grows hl (by rw [hp]; rfl) more)
    | none =>
      have : b.lines = [] := by
        rw [List.eq_nil_iff_forall_not_mem]
        intro line hm
        have := ((h.fits b hb).each line hm).pulse
        rw [hp] at this
        exact nomatch this
      rw [this]
      exact .nil _
  · refine (h.runs i run hrun).elsewhere ⟨⟨fun hp => chain_grows hl hp more, rfl, ?_⟩, fun h => ⟨h, rfl⟩⟩
    exact fun k b' hk => ⟨b', hk, List.prefix_rfl⟩

/-- A run that has read the file knows the chain and what the backends hold. -/
theorem System.Sound.opened (h : s.Sound env) {pulse : Bytes} (dryRun : Bool) (phase : AnchorPhase)
    (hp : (env.chain s.file).pulse = some pulse) (hplain : isPlainPulseName pulse = true) :
    Live env s ⟨dryRun, env.chain s.file, s.backends.map fun b => b.lines.length, phase⟩ := by
  obtain ⟨rows, hl⟩ := h.honest
  refine ⟨.refl _, hl.numbered, ⟨pulse, hp, hplain⟩, ?_, List.length_map _, fun k n b hn hb => ?_⟩
  · have hne : completePrefix s.file ≠ [] := by
      intro he
      rw [Env.chain, he] at hp
      exact nomatch hp
    have hrows : (env.chain s.file).rows ≠ [] := by
      rw [Env.chain, hl.indexBytes_rows]
      simpa using hl.rows_ne_nil hne
    exact ⟨_, List.getLast?_eq_some_getLast hrows⟩
  · simp only [List.getElem?_map, hb, Option.map_some, Option.some.injEq] at hn
    subst hn
    rw [List.take_length]
    refine ⟨le_rfl, fun line hm => ?_⟩
    obtain ⟨row, hr, hs, _⟩ := ((h.fits b (List.mem_of_getElem? hb)).each line hm).row
    exact ⟨row, hr, hs.ge⟩

theorem System.Sound.start (h : s.Sound env) (pulse : Bytes) (dryRun : Bool) :
    (s.step env (.anchor pulse dryRun)).Sound env := by
  refine ⟨h.honest, h.fits, fun i run hrun => ?_⟩
  have same {j : Nat} : Elsewhere env s (s.step env (.anchor pulse dryRun)) j :=
    .of_backends rfl rfl id
  simp only [System.step, List.getElem?_append] at hrun
  split at hrun
  · exact (h.runs i run hrun).elsewhere same
  rw [List.mem_singleton.mp (List.mem_of_getElem? hrun)]
  refine PhaseSound.elsewhere ?_ same
  unfold Env.opened
  split
  · exact .ended fun _ he => nomatch he
  next hplain =>
  rw [Bool.not_eq_true', Bool.not_eq_false] at hplain
  split
  · exact .ended fun _ he => nomatch he
  split
  · exact .ended fun _ he => nomatch he
  next hpulse =>
  split
  · exact .ended fun _ he => nomatch he
  next a ha =>
  obtain rfl := assess_eq_ok ha
  have live := h.opened dryRun
    (if dryRun then .syncing ⟨none, [], [], none, []⟩ else .checking ⟨none, [], [], none, []⟩)
    (not_not.mp hpulse) hplain
  cases dryRun
  · exact .checking live .start
  · exact .syncing live .start fun hd => nomatch hd

theorem System.Sound.step (h : s.Sound env) (act : Act) (hok : s.accepted env act = true) :
    (s.step env act).Sound env := by
  cases act with
  | grow more => exact h.grow hok
  | anchor pulse dryRun => exact h.start pulse dryRun
  | advance i => exact h.advance i

theorem System.Ready.sound (h : s.Ready env) : s.Sound env :=
  ⟨verifyLines_noBreak.mp h.honest, h.fits, fun i run hrun => by simp [h.runs] at hrun⟩

/-! Runs that read nothing newer. -/

/-- No fault yet. -/
def AnchorPhase.calm : AnchorPhase → Prop
  | .checking a | .syncing a => a.failure = none
  | .ended e => ∀ o, e = .outcome o → o.state ≠ .rewind
  | .locking | .publishing .. => True

/-- A read that finds no newer line finds no fault. -/
theorem Live.consult_calm (hs : s.Sound env) (h : Live env s run) {b : Backend}
    (hb : s.backends[a.notes.length]? = some b)
    (hnone : ∀ n, run.heard[a.notes.length]? = some n →
      ∀ line ∈ b.lines.drop n, ∃ row ∈ run.index.rows, line.seq ≤ row.seq)
    (hf : a.failure = none) : (a.consult run.index b.name b.history).failure = none := by
  obtain ⟨tip, ht⟩ := h.tip
  obtain ⟨n, hn⟩ : ∃ n, run.heard[a.notes.length]? = some n := by
    have := (List.getElem?_eq_some_iff.mp hb).1
    exact ⟨_, List.getElem?_eq_getElem (by rw [h.counted]; exact this)⟩
  rw [h.consult_eq]
  rcases Live.judged hs h (List.mem_of_getElem? hb) ht with ⟨hj, _⟩ | ⟨_, line, hm, hlt⟩
  · simp [hf, hj]
  · have hle : line.seq ≤ tip.seq := by
      rw [← List.take_append_drop n b.lines] at hm
      refine h.tip_row ht ?_
      rcases List.mem_append.mp hm with hm | hm
      · exact (h.heard _ n b hn hb).2 line hm
      · exact hnone n hn line hm
    exact absurd hlt (not_lt_of_ge hle)

/-- What `noneNewer` says of the read a run is about to make. -/
theorem noneNewer_read (hrun : s.runs[i]? = some run)
    (hp : run.phase = .checking a ∨ run.phase = .syncing a) {b : Backend}
    (hb : s.backends[a.notes.length]? = some b) (h : s.noneNewer (.advance i) = true) :
    ∀ n, run.heard[a.notes.length]? = some n →
      ∀ line ∈ b.lines.drop n, ∃ row ∈ run.index.rows, line.seq ≤ row.seq := by
  intro n hn line hm
  have hc : s.consulting i = some (run, b, n) := by
    rcases hp with hp | hp <;> simp [System.consulting, hrun, hp, hb, hn]
  simp only [System.noneNewer, hc, List.all_eq_true, List.any_eq_true, decide_eq_true_eq] at h
  exact h line hm

theorem calm_set {phase : AnchorPhase} (h : ∀ run ∈ s.runs, run.phase.calm) (hnew : phase.calm) :
    ∀ other ∈ s.runs.set i { run with phase := phase }, other.phase.calm := by
  intro other ho
  rcases List.mem_or_eq_of_mem_set ho with hm | rfl
  · exact h other hm
  · exact hnew

theorem calm_finish {o : AnchorOutcome} (h : ∀ run ∈ s.runs, run.phase.calm)
    (ho : o.state ≠ .rewind) : ∀ other ∈ (s.finish i run o).runs, other.phase.calm := by
  refine calm_set h fun o' he => ?_
  obtain rfl := Ending.outcome.inj he
  exact ho

theorem calm_advance (hs : s.Sound env) (h : ∀ run ∈ s.runs, run.phase.calm)
    (hnone : s.noneNewer (.advance i) = true) : ∀ run ∈ (s.advance i).runs, run.phase.calm := by
  unfold System.advance
  cases hrun : s.runs[i]? with
  | none => exact h
  | some run =>
  have hphase := hs.runs i run hrun
  have hcalm := h run (List.mem_of_getElem? hrun)
  cases hp : run.phase with
  | ended e => simpa only [hp] using h
  | checking a =>
    rw [hp] at hphase hcalm
    cases hphase with | checking live reading =>
    cases hb : s.backends[a.notes.length]? with
    | some b =>
      simp only [hp, hb]
      exact calm_set h (live.consult_calm hs hb (noneNewer_read hrun (.inl hp) hb hnone) hcalm)
    | none =>
      simp only [hp, hb]
      split
      · exact calm_finish h (outcomeOf_noFault _ _ hcalm .rewind)
      · exact calm_set h trivial
  | locking =>
    cases hl : s.lock with
    | some j =>
      simp only [hp]
      exact calm_set h fun _ he => nomatch he
    | none =>
      cases ha : run.index.assess with
      | error err =>
        simp only [hp, ha]
        exact calm_set h fun _ he => nomatch he
      | ok a =>
        simp only [hp, ha]
        obtain rfl := assess_eq_ok ha
        exact calm_set h rfl
  | syncing a =>
    rw [hp] at hphase hcalm
    cases hphase with | syncing live reading held =>
    cases hb : s.backends[a.notes.length]? with
    | some b =>
      simp only [hp, hb]
      exact calm_set h (live.consult_calm hs hb (noneNewer_read hrun (.inr hp) hb hnone) hcalm)
    | none =>
      cases hplan : (a.close run.index).plan run.dryRun with
      | finish o =>
        simp only [hp, hb, hplan]
        obtain ⟨a', line, dry, hfail, rfl⟩ := plan_finish hplan
        exact calm_finish h (outcomeOf_noFault _ _ (hfail.trans hcalm) .rewind)
      | publish line =>
        simp only [hp, hb, hplan]
        exact calm_set h trivial
  | publishing a line next =>
    rw [hp] at hphase
    cases hphase with | publishing live reading hfail hlock hline hbehind =>
    cases hb : s.backends[next]? with
    | none =>
      simp only [hp, hb]
      exact calm_finish h (outcomeOf_noFault _ _ hfail .rewind)
    | some b =>
      simp only [hp, hb]
      split
      · exact calm_set h trivial
      · exact calm_set h trivial

theorem calm_start (h : ∀ run ∈ s.runs, run.phase.calm) (pulse : Bytes) (dryRun : Bool) :
    ∀ run ∈ (s.step env (.anchor pulse dryRun)).runs, run.phase.calm := by
  intro run hrun
  rcases List.mem_append.mp hrun with hm | hm
  · exact h run hm
  rw [List.mem_singleton.mp hm]
  unfold Env.opened
  split
  · exact fun _ he => nomatch he
  split
  · exact fun _ he => nomatch he
  split
  · exact fun _ he => nomatch he
  split
  · exact fun _ he => nomatch he
  next a ha =>
  obtain rfl := assess_eq_ok ha
  cases dryRun <;> rfl

theorem calm_step (hs : s.Sound env) (h : ∀ run ∈ s.runs, run.phase.calm) (act : Act)
    (hnone : s.noneNewer act = true) : ∀ run ∈ (s.step env act).runs, run.phase.calm := by
  cases act with
  | grow more => exact h
  | anchor pulse dryRun => exact calm_start h pulse dryRun
  | advance i => exact calm_advance hs h hnone

theorem System.Sound.no_mismatch (h : s.Sound env) (hr : run ∈ s.runs) :
    run.outcome ≠ some .mismatch := by
  intro hout
  obtain ⟨o, hp, ho⟩ := outcome_eq_some hout
  obtain ⟨i, hi⟩ := List.mem_iff_getElem?.mp hr
  have hphase := h.runs i run hi
  rw [hp] at hphase
  cases hphase with | ended hq => exact hq o rfl ho

/-- Every history stays in order and on the chain, and no run ends in a mismatch, in every run of
the system. No run ends in a rewind either while no run reads a line that was published, since it
read the file, for a row its file did not have. -/
theorem no_false_alarm (env : Env) (start : System) (h : start.Ready env) :
    (∀ s, (System.machine env start).Runs (fun s act => s.accepted env act = true) s →
      (∀ b ∈ s.backends, Fits (env.chain s.file) b.lines) ∧
        ∀ run ∈ s.runs, run.outcome ≠ some .mismatch) ∧
    ∀ s, (System.machine env start).Runs
        (fun s act => s.accepted env act = true ∧ s.noneNewer act = true) s →
      ∀ run ∈ s.runs, run.outcome ≠ some .mismatch ∧ run.outcome ≠ some .rewind := by
  constructor
  · intro s hs
    have sound : s.Sound env := hs.invariant h.sound fun s act hi hok => hi.step act hok
    exact ⟨sound.fits, fun run hr => sound.no_mismatch hr⟩
  · intro s hs
    have both : s.Sound env ∧ ∀ run ∈ s.runs, run.phase.calm :=
      hs.invariant (I := fun s => s.Sound env ∧ ∀ run ∈ s.runs, run.phase.calm)
        ⟨h.sound, fun run hr => by simp [show (System.machine env start).start.runs = [] from h.runs] at hr⟩
        fun s act hi hok => ⟨hi.1.step act hok.1, calm_step hi.1 hi.2 act hok.2⟩
    refine fun run hr => ⟨both.1.no_mismatch hr, fun hout => ?_⟩
    obtain ⟨o, hp, ho⟩ := outcome_eq_some hout
    have hcalm := both.2 run hr
    rw [hp] at hcalm
    exact hcalm o rfl ho

/-! Two runs on a file of one row that gets a second one, and one backend. -/

def anchoredStart : System := ⟨lossFile, [⟨ascii "local", []⟩], none, []⟩

def secondRow : Bytes := withNewline (lossRow 1 (lossHeads.getD 0 []) lossGap).line

theorem anchoredStart_ready : anchoredStart.Ready lossEnv := by
  refine ⟨by decide +kernel, fun b hb => ?_, rfl, rfl⟩
  rw [List.mem_singleton.mp hb]
  exact .nil _

/-- One run publishes the first row, the file grows, and the next publishes the second. -/
theorem no_false_alarm_sample : ∃ s : System,
    s.runs.map AnchorRun.outcome = [some .published, some .published] ∧
      (∀ b ∈ s.backends, b.lines.length = 2) ∧
      (∀ b ∈ s.backends, Fits (lossEnv.chain s.file) b.lines) ∧
      ∀ run ∈ s.runs, run.outcome ≠ some .mismatch ∧ run.outcome ≠ some .rewind := by
  obtain ⟨s, hf, hs⟩ := Option.map_eq_some_iff.mp (show
    ((System.machine lossEnv anchoredStart).follow
        (fun s act => s.accepted lossEnv act && s.noneNewer act) anchoredStart
        (.anchor (ascii "echo") false :: List.replicate 7 (.advance 0) ++
          .grow secondRow :: .anchor (ascii "echo") false :: List.replicate 7 (.advance 1))).map
        (fun s => (s.runs.map AnchorRun.outcome, s.backends.all fun b => b.lines.length = 2)) =
      some ([some .published, some .published], true) by decide +kernel)
  rw [Prod.mk.injEq] at hs
  have hruns := Machine.Runs.follow (m := System.machine lossEnv anchoredStart)
   
    (fun s act h => by simpa using h) .start hf
  obtain ⟨safe, calm⟩ := no_false_alarm lossEnv anchoredStart anchoredStart_ready
  exact ⟨s, hs.1, by simpa using hs.2, (safe s (hruns.mono fun _ _ h => h.1)).1, calm s hruns⟩

/-- The first run reads the file, the file grows, and a second run publishes the new row: the
first run then ends in a rewind, which is exit 1 on an honest file. -/
theorem overtaken_run_rewinds : ∃ s : System,
    anchoredStart.Ready lossEnv ∧
      (System.machine lossEnv anchoredStart).Runs (fun s act => s.accepted lossEnv act = true) s ∧
      s.runs.map AnchorRun.outcome = [some .rewind, some .published] := by
  obtain ⟨s, hf, hs⟩ := Option.map_eq_some_iff.mp (show
    ((System.machine lossEnv anchoredStart).follow (fun s act => s.accepted lossEnv act)
        anchoredStart
        (.anchor (ascii "echo") false :: .grow secondRow :: .anchor (ascii "echo") false ::
          List.replicate 7 (.advance 1) ++ [.advance 0, .advance 0])).map
        (fun s => s.runs.map AnchorRun.outcome) = some [some .rewind, some .published] by
      decide +kernel)
  exact ⟨s, anchoredStart_ready, Machine.Runs.follow (fun _ _ h => h) .start hf, hs⟩

end PulseNull.Oneself
