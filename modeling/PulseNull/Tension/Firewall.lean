import PulseNull.Tension.Ingest

/-! The discharge firewall: what a cycle's text can do to a thread, and what only evidence can. -/
namespace PulseNull.Tension
open Text (ascii)

/-- A relative path that stays under the pulse root. -/
def UnderRoot (relative : List Bytes) : Prop :=
  relative ≠ [] ∧ ∀ part ∈ relative, part ≠ [] ∧ part ≠ ascii "." ∧ part ≠ ascii ".." ∧ 47 ∉ part

/-- Neither a journal document nor anything in a journal directory. -/
def OutsideJournal (relative : List Bytes) : Prop :=
  journalDir ∉ relative ∧ ∀ name ∈ relative.getLast?, name ∉ journalFiles

/-- What an artifact says holds of the cycle's environment. -/
def Verified (c : CycleInput) : WorkArtifact → Prop
  | .fileDiff path modifiedAt => ∃ relative found, path = showPath relative ∧ UnderRoot relative ∧
      OutsideJournal relative ∧ c.evidence.metadata relative = some found ∧ found.isFile = true ∧
      found.modified = modifiedAt ∧ c.evidence.cycleStartedAt ≤ modifiedAt
  | .resolvedPrediction id => id ∈ c.evidence.resolvedPredictionIds ∨ id ∈ c.resolved
  | .toolResult _ rounds => rounds = c.evidence.toolRounds ∧ 0 < rounds

/-- A verdict with the artifact it asserts, or the reason it owes. -/
def Backed (c : CycleInput) : ResolutionVerdict → Prop
  | .answered artifact | .superseded _ artifact => Verified c artifact
  | .dissolved reason | .abandoned reason => reason ≠ []

/-- The claims of an output that are checked. -/
def checkedClaims (reader : PayloadReader) (text : Bytes) : List EvidenceClaim :=
  (parseWorkClaims reader text).map ParsedWork.claim ++
    ((parseResolutions reader text).filter fun r => r.kind = .answered || r.kind = .superseded).map
      ParsedResolution.claim

/-- A claimed path that exists, outside the journal and changed since the cycle began, is a
regular file. -/
def NamesFile (e : WorkEvidence) (claim : EvidenceClaim) : Prop :=
  ∀ raw ∈ claim.file, ∀ relative ∈ pulseRelativePath (sanitizeField raw 512),
    isJournalPath relative = false → ∀ found ∈ e.metadata relative,
      e.cycleStartedAt ≤ found.modified → found.isFile = true

def NamesFilesOnly (reader : PayloadReader) (c : CycleInput) : Prop :=
  ∀ claim ∈ checkedClaims reader c.rawOutput, NamesFile c.evidence claim

/-! What verification guarantees. -/

private theorem slash_not_mem_splitOn (text : Bytes) : ∀ part ∈ text.splitOn 47, 47 ∉ part := by
  induction text with
  | nil => simp
  | cons c cs ih =>
    intro part hp
    rw [List.splitOn_cons_eq_if_modifyHead] at hp
    split at hp
    · rcases List.mem_cons.mp hp with rfl | hp
      · simp
      · exact ih part hp
    · next hc =>
      obtain ⟨head, tail, hs⟩ := List.exists_cons_of_ne_nil (List.splitOn_ne_nil 47 cs)
      rw [hs] at hp ih
      rcases List.mem_cons.mp hp with rfl | hp
      · simp only [List.mem_cons, not_or]
        exact ⟨fun h => hc (by simp [h]), ih head (by simp)⟩
      · exact ih part (by simp [hp])

private theorem pulseRelativePath_under {raw : Bytes} {relative : List Bytes}
    (h : pulseRelativePath raw = some relative) : UnderRoot relative := by
  unfold pulseRelativePath at h
  dsimp only at h
  split at h
  · cases h
  split at h
  · cases h
  next hparts =>
  cases h
  simp only [Bool.or_eq_true, decide_eq_true_eq, not_or] at hparts
  refine ⟨hparts.1, fun part hp => ?_⟩
  have hm := List.mem_filter.mp hp
  have hne : part ≠ [] ∧ part ≠ ascii "." := by simpa using hm.2
  exact ⟨hne.1, hne.2, fun hdots => hparts.2 (hdots ▸ hp), slash_not_mem_splitOn _ part hm.1⟩

private theorem outside_of_not_journal {relative : List Bytes} (h : isJournalPath relative = false) :
    OutsideJournal relative := by
  simp only [isJournalPath, Bool.or_eq_false_iff, decide_eq_false_iff_not] at h
  refine ⟨h.1, fun name hn hj => ?_⟩
  have h2 := h.2
  rw [Option.mem_def.mp hn] at h2
  simp [hj] at h2

/-- A claim that checks out names something real. -/
theorem verify_sound {c : CycleInput} {claim : EvidenceClaim} {artifact : WorkArtifact}
    (hf : NamesFile c.evidence claim) (h : c.evidence.verify claim = .ok artifact) :
    Verified c artifact := by
  have file (raw : Bytes) (hraw : claim.file = some raw)
      (h : c.evidence.verifyFile raw = .ok artifact) : Verified c artifact := by
    unfold WorkEvidence.verifyFile at h
    dsimp only at h
    split at h
    · cases h
    next relative hrel =>
    split at h
    · cases h
    next hj =>
    split at h
    · cases h
    next found hfound =>
    split at h
    · cases h
    next hmod =>
    cases h
    have hj : isJournalPath relative = false := by simpa using hj
    have hmod : c.evidence.cycleStartedAt ≤ found.modified := by simpa using hmod
    exact ⟨relative, found, rfl, pulseRelativePath_under hrel, outside_of_not_journal hj, hfound,
      hf raw hraw relative hrel hj found hfound hmod, rfl, hmod⟩
  have prediction (raw : Bytes) (h : c.evidence.verifyPrediction raw = .ok artifact) :
      Verified c artifact := by
    simp only [WorkEvidence.verifyPrediction] at h
    split at h
    · next hm =>
      cases h
      exact .inl hm
    · cases h
  have tool (raw : Bytes) (h : c.evidence.verifyTool raw = .ok artifact) : Verified c artifact := by
    simp only [WorkEvidence.verifyTool] at h
    split at h
    · next hm =>
      cases h
      exact ⟨rfl, hm⟩
    · cases h
  have rung {earlier : Except EvidenceRejection WorkArtifact}
      {check : Bytes → Except EvidenceRejection WorkArtifact} {claimed : Option Bytes}
      (he : earlier = .ok artifact → Verified c artifact)
      (hc : ∀ raw, claimed = some raw → check raw = .ok artifact → Verified c artifact)
      (h : WorkEvidence.rung earlier check claimed = .ok artifact) : Verified c artifact := by
    unfold WorkEvidence.rung at h
    split at h
    · exact he h
    · exact hc _ rfl h
    · cases h
  refine rung (rung (rung (fun h => by cases h) file) fun raw _ => prediction raw)
    (fun raw _ => tool raw) h

private theorem checked_work {reader : PayloadReader} {text : Bytes} {work : ParsedWork}
    (h : work ∈ parseWorkClaims reader text) : work.claim ∈ checkedClaims reader text :=
  List.mem_append_left _ (List.mem_map_of_mem h)

private theorem checked_resolution {reader : PayloadReader} {text : Bytes} {r : ParsedResolution}
    (h : r ∈ parseResolutions reader text) (hk : r.kind = .answered ∨ r.kind = .superseded) :
    r.claim ∈ checkedClaims reader text :=
  List.mem_append_right _ (List.mem_map_of_mem (List.mem_filter.mpr ⟨h, by simpa using hk⟩))

/-- Every verdict that is built is backed. -/
theorem buildVerdict_backed {c : CycleInput} {parsed : ParsedResolution}
    {verdict : ResolutionVerdict}
    (hf : parsed.kind = .answered ∨ parsed.kind = .superseded → NamesFile c.evidence parsed.claim)
    (h : buildVerdict parsed c.evidence = .ok verdict) : Backed c verdict := by
  have reason {s : Bytes} {field : Option Bytes} (h : field.filter (· ≠ []) = some s) : s ≠ [] := by
    simpa using (Option.filter_eq_some_iff.mp h).2
  unfold buildVerdict at h
  cases hk : parsed.kind with
  | answered =>
    simp only [hk] at h
    cases hv : c.evidence.verify parsed.claim with
    | error e => simp [hv, Except.mapError, Except.map] at h
    | ok artifact =>
      simp only [hv, Except.mapError, Except.map, Except.ok.injEq] at h
      exact h ▸ verify_sound (hf (.inl hk)) hv
  | superseded =>
    simp only [hk] at h
    split at h
    · cases h
    cases hv : c.evidence.verify parsed.claim with
    | error e => simp [hv, Except.mapError, Except.map] at h
    | ok artifact =>
      simp only [hv, Except.mapError, Except.map, Except.ok.injEq] at h
      exact h ▸ verify_sound (hf (.inr hk)) hv
  | dissolved =>
    simp only [hk] at h
    split at h
    · cases h
    · next hr => exact Except.ok.inj h ▸ reason hr
  | abandoned =>
    simp only [hk] at h
    split at h
    · cases h
    · next hr => exact Except.ok.inj h ▸ reason hr

/-! One thread. -/

/-- What one operation of a cycle does to a thread. `credited` are the ids the report discharges. -/
inductive Change (c : CycleInput) (config : TensionConfig) (cycle : Nat) (credited : List Bytes) :
    Thread → Thread → Prop where
  | none (t : Thread) : Change c config cycle credited t t
  | mention (t : Thread) : Change c config cycle credited t t.mention
  | credit (t : Thread) (artifact : WorkArtifact) (hlive : t.isLive = true)
      (honce : t.lastWorkedCycle ≠ some cycle) (hreport : t.id ∈ credited)
      (hverified : Verified c artifact) :
      Change c config cycle credited t (t.credit config cycle artifact c.now)
  | retire (t : Thread) (verdict : ResolutionVerdict) (hlive : t.isLive = true)
      (hbacked : Backed c verdict) :
      Change c config cycle credited t (t.retire cycle verdict c.now)

/-- A discharge of `t` into `t'`: against verified evidence, once in this cycle. -/
structure Discharged (c : CycleInput) (s : TensionStore) (credited : List Bytes) (t t' : Thread) :
    Prop where
  artifact : ∃ record : WorkRecord, Verified c record.artifact ∧ record.creditedAt = c.now ∧
    record.cycle = s.cycles.cyclesRun ∧ record.tensionAfter = t'.tension ∧ record ∈ t'.workLog ∧
    (t'.isLive = true → t'.workLog.getLast? = some record)
  live : t.isLive = true
  once : t.lastWorkedCycle ≠ some s.cycles.cyclesRun
  reported : t.id ∈ credited
  tension : t'.tension = clamp (t.tension - fmax s.config.workCredit 0) 0 maxTension
  lastTouched : t'.lastTouched = c.now
  touchCount : t'.touchCount = satSucc 32 t.touchCount
  lastWorkedCycle : t'.lastWorkedCycle = some s.cycles.cyclesRun

/-- The discharge fields as they were. -/
structure Undischarged (t t' : Thread) : Prop where
  tension : t'.tension = t.tension
  lastTouched : t'.lastTouched = t.lastTouched
  touchCount : t'.touchCount = t.touchCount
  lastWorkedCycle : t'.lastWorkedCycle = t.lastWorkedCycle

/-- A retirement of `t` into `t'` with a backed verdict. -/
structure Retired (c : CycleInput) (t t' : Thread) : Prop where
  live : t.isLive = true
  verdict : ∃ verdict, Backed c verdict ∧ t'.resolution = some verdict.resolution ∧
    t'.resolutionReason = verdict.reason ∧ t'.resolvedAt = some c.now

/-- What a whole cycle may have made of a thread. -/
structure Outcome (c : CycleInput) (s : TensionStore) (credited : List Bytes) (t t' : Thread) :
    Prop where
  id : t'.id = t.id
  text : t'.label = t.label ∧ t'.content = t.content
  origin : t'.origin = t.origin ∧ t'.createdAt = t.createdAt ∧ t'.createdCycle = t.createdCycle
  work : Undischarged t t' ∨ Discharged c s credited t t'
  resolution : (t'.resolution = t.resolution ∧ t'.resolutionReason = t.resolutionReason ∧
    t'.resolvedAt = t.resolvedAt) ∨ Retired c t t'
  mentions : t.mentionCount ≤ t'.mentionCount
  log : ∀ record ∈ t'.workLog, record ∈ t.workLog ∨ Verified c record.artifact

/-! The work log keeps its newest records. -/

private theorem logWork_log (t : Thread) (record : WorkRecord) :
    ∃ kept, (∃ n, kept = t.workLog.drop n) ∧ (t.logWork record).workLog = kept ++ [record] ∧
      ∀ last, t.workLog.getLast? = some last → last ∈ kept := by
  set n := t.workLog.length + 1 - maxWorkLog with hn
  refine ⟨t.workLog.drop n, ⟨n, rfl⟩, ?_, fun last hl => ?_⟩
  · simp only [Thread.logWork, List.length_append, List.length_singleton]
    exact List.drop_append_of_le_length (by simp [maxWorkLog])
  · obtain ⟨init, hi⟩ := List.getLast?_eq_some_iff.mp hl
    rw [hi, List.drop_append_of_le_length]
    · simp
    · have hlen := congrArg List.length hi
      simp only [List.length_append, List.length_singleton, maxWorkLog] at hlen hn
      omega

private theorem logWork_mem {t : Thread} {record r : WorkRecord}
    (h : r ∈ (t.logWork record).workLog) : r ∈ t.workLog ∨ r = record := by
  obtain ⟨kept, ⟨n, rfl⟩, hlog, -⟩ := logWork_log t record
  rw [hlog, List.mem_append, List.mem_singleton] at h
  exact h.imp_left List.mem_of_mem_drop

private theorem logWork_last (t : Thread) (record : WorkRecord) :
    (t.logWork record).workLog.getLast? = some record := by
  obtain ⟨kept, -, hlog, -⟩ := logWork_log t record
  rw [hlog, List.getLast?_concat]

private theorem logWork_kept {t : Thread} {record last : WorkRecord}
    (h : t.workLog.getLast? = some last) : last ∈ (t.logWork record).workLog := by
  obtain ⟨kept, -, hlog, hk⟩ := logWork_log t record
  rw [hlog]
  exact List.mem_append_left _ (hk last h)

section
variable {c : CycleInput} {s : TensionStore} {credited : List Bytes}

theorem Outcome.refl (t : Thread) : Outcome c s credited t t where
  id := rfl
  text := ⟨rfl, rfl⟩
  origin := ⟨rfl, rfl, rfl⟩
  work := .inl ⟨rfl, rfl, rfl, rfl⟩
  resolution := .inl ⟨rfl, rfl, rfl⟩
  mentions := le_rfl
  log := fun _ h => .inl h

theorem le_satSucc (width n : Nat) : n ≤ satSucc width n := by
  unfold satSucc
  split <;> omega

private theorem outcome_mention {t a : Thread} (h : Outcome c s credited t a) :
    Outcome c s credited t a.mention where
  id := h.id
  text := h.text
  origin := h.origin
  work := h.work.imp (fun u => ⟨u.tension, u.lastTouched, u.touchCount, u.lastWorkedCycle⟩)
    fun d => ⟨d.artifact, d.live, d.once, d.reported, d.tension, d.lastTouched, d.touchCount,
      d.lastWorkedCycle⟩
  resolution := h.resolution.imp_right fun r => ⟨r.live, r.verdict⟩
  mentions := h.mentions.trans (le_satSucc 32 _)
  log := h.log

/-- A thread takes its discharge only as it was before the cycle. -/
private theorem outcome_credit {t a : Thread} (h : Outcome c s credited t a)
    {artifact : WorkArtifact} (hlive : a.isLive = true)
    (honce : a.lastWorkedCycle ≠ some s.cycles.cyclesRun) (hreport : a.id ∈ credited)
    (hverified : Verified c artifact) :
    Outcome c s credited t (a.credit s.config s.cycles.cyclesRun artifact c.now) := by
  have hu : Undischarged t a := by
    rcases h.work with hu | hd
    · exact hu
    · exact absurd hd.lastWorkedCycle honce
  have hr : a.resolution = t.resolution ∧ a.resolutionReason = t.resolutionReason ∧
      a.resolvedAt = t.resolvedAt := by
    rcases h.resolution with hr | ⟨-, verdict, -, hres, -⟩
    · exact hr
    · simp [Thread.isLive, hres] at hlive
  refine ⟨h.id, h.text, h.origin, .inr ?_, .inl hr, h.mentions, fun record hm => ?_⟩
  · refine ⟨⟨⟨c.now, s.cycles.cyclesRun, artifact, _⟩, hverified, rfl, rfl, rfl, ?_, fun _ => ?_⟩,
      ?_, ?_, h.id ▸ hreport, ?_, rfl, ?_, rfl⟩
    · exact List.mem_of_getLast? (logWork_last _ _)
    · exact logWork_last _ _
    · rw [← hlive, Thread.isLive, Thread.isLive, hr.1]
    · rw [← hu.lastWorkedCycle]
      exact honce
    · rw [← hu.tension]
      rfl
    · rw [← hu.touchCount]
      rfl
  · rcases logWork_mem hm with hm | rfl
    · exact h.log record hm
    · exact .inr hverified

private theorem retire_log (a : Thread) (cycle : Nat) (verdict : ResolutionVerdict) (now : Time) :
    (∃ artifact, verdict.artifact = some artifact ∧ (a.retire cycle verdict now).workLog =
      (a.logWork ⟨now, cycle, artifact, a.tension⟩).workLog) ∨
    (a.retire cycle verdict now).workLog = a.workLog := by
  cases verdict with
  | answered artifact => exact .inl ⟨artifact, rfl, rfl⟩
  | superseded by_ artifact => exact .inl ⟨artifact, rfl, rfl⟩
  | dissolved reason => exact .inr rfl
  | abandoned reason => exact .inr rfl

private theorem backed_artifact {verdict : ResolutionVerdict} {artifact : WorkArtifact}
    (hb : Backed c verdict) (h : verdict.artifact = some artifact) : Verified c artifact := by
  cases verdict <;> cases h <;> exact hb

/-- Retiring a thread leaves everything but the verdict and the log as it was. -/
theorem retire_fields (a : Thread) (cycle : Nat) (verdict : ResolutionVerdict) (now : Time) :
    ∃ log, a.retire cycle verdict now = { a with
      workLog := log
      resolvedAt := some now
      resolution := some verdict.resolution
      resolutionReason := verdict.reason } := by
  cases verdict <;> exact ⟨_, rfl⟩

private theorem outcome_retire {t a : Thread} (h : Outcome c s credited t a)
    {verdict : ResolutionVerdict} (hlive : a.isLive = true) (hbacked : Backed c verdict) :
    Outcome c s credited t (a.retire s.cycles.cyclesRun verdict c.now) := by
  obtain ⟨log, hf⟩ := retire_fields a s.cycles.cyclesRun verdict c.now
  have hlog := retire_log a s.cycles.cyclesRun verdict c.now
  have ht : t.isLive = true := by
    rcases h.resolution with hr | hr
    · rw [← hlive, Thread.isLive, Thread.isLive, hr.1]
    · exact hr.live
  rw [hf] at hlog ⊢
  refine ⟨h.id, h.text, h.origin, ?_, .inr ⟨ht, verdict, hbacked, rfl, rfl, rfl⟩, h.mentions,
    fun record hm => ?_⟩
  · refine h.work.imp (fun u => ⟨u.tension, u.lastTouched, u.touchCount, u.lastWorkedCycle⟩) fun d => ?_
    obtain ⟨record, hv, hat, hcycle, hafter, -, hlast⟩ := d.artifact
    refine ⟨⟨record, hv, hat, hcycle, hafter, ?_, by simp [Thread.isLive]⟩, d.live, d.once,
      d.reported, d.tension, d.lastTouched, d.touchCount, d.lastWorkedCycle⟩
    rcases hlog with ⟨artifact, -, hl⟩ | hl
    · rw [hl]
      exact logWork_kept (hlast hlive)
    · rw [hl]
      exact List.mem_of_getLast? (hlast hlive)
  · rcases hlog with ⟨artifact, ha, hl⟩ | hl
    · rw [hl] at hm
      rcases logWork_mem hm with hm | rfl
      · exact h.log record hm
      · exact .inr (backed_artifact hbacked ha)
    · rw [hl] at hm
      exact h.log record hm

/-- One more operation of the cycle. -/
theorem Outcome.step {t a b : Thread} (h : Outcome c s credited t a)
    (hc : Change c s.config s.cycles.cyclesRun credited a b) : Outcome c s credited t b := by
  cases hc with
  | none => exact h
  | mention => exact outcome_mention h
  | credit artifact hlive honce hreport hverified =>
    exact outcome_credit h hlive honce hreport hverified
  | retire verdict hlive hbacked => exact outcome_retire h hlive hbacked

theorem Outcome.mono {t a : Thread} {more : List Bytes} (hm : ∀ id ∈ credited, id ∈ more)
    (h : Outcome c s credited t a) : Outcome c s more t a where
  id := h.id
  text := h.text
  origin := h.origin
  work := h.work.imp_right fun d => ⟨d.artifact, d.live, d.once, hm _ d.reported, d.tension,
    d.lastTouched, d.touchCount, d.lastWorkedCycle⟩
  resolution := h.resolution
  mentions := h.mentions
  log := h.log

end

/-! One operation of the store. -/

/-- What one operation of a cycle does to the store. -/
structure Moves (c : CycleInput) (credited : List Bytes) (s s' : TensionStore) :
    Prop where
  threads : ∃ kept added, s'.threads = kept ++ added ∧
    List.Forall₂ (Change c s.config s.cycles.cyclesRun credited) s.threads kept ∧
    ∀ t ∈ added, ∃ id draft, id ∉ s.threads.map Thread.id ∧ t = s.newThread id draft c.now
  counters : s'.cycles = s.cycles ∧ s'.config = s.config ∧ s'.lastTickAt = s.lastTickAt

section
variable {c : CycleInput} {credited : List Bytes} {s : TensionStore}

private theorem change_refl (ts : List Thread) (config : TensionConfig) (cycle : Nat) :
    List.Forall₂ (Change c config cycle credited) ts ts := by
  induction ts with
  | nil => exact .nil
  | cons t ts ih => exact .cons (.none t) ih

/-- Changing the first thread found changes no other. -/
private theorem change_first {p : Thread → Bool} {f : Thread → Thread} {ts : List Thread}
    {config : TensionConfig} {cycle : Nat}
    (h : ∀ t, ts.find? p = some t → Change c config cycle credited t (f t)) :
    List.Forall₂ (Change c config cycle credited) ts (modifyFirst p f ts) := by
  induction ts with
  | nil => exact .nil
  | cons t ts ih =>
    rw [modifyFirst]
    split
    · next hp => exact .cons (h t (by simp [hp])) (change_refl ts config cycle)
    · next hp => exact .cons (.none t) (ih fun u hu => h u (by simpa [hp] using hu))

private theorem moves_of_kept {s' : TensionStore}
    (hk : List.Forall₂ (Change c s.config s.cycles.cyclesRun credited) s.threads s'.threads)
    (hc : s'.cycles = s.cycles ∧ s'.config = s.config ∧ s'.lastTickAt = s.lastTickAt) :
    Moves c credited s s' :=
  ⟨⟨s'.threads, [], by simp, hk, by simp⟩, hc⟩

theorem moves_open (src : Source) (draft : ThreadDraft) :
    Moves c credited s (s.openThread src draft c.now).1 := by
  have one : ∀ t ∈ [s.newThread (src.mint (s.threads.map Thread.id)) draft c.now],
      ∃ id draft, id ∉ s.threads.map Thread.id ∧ t = s.newThread id draft c.now :=
    fun t ht => ⟨_, draft, src.fresh _, List.mem_singleton.mp ht⟩
  unfold TensionStore.openThread
  split
  · exact moves_of_kept (change_first fun t _ => .mention t) ⟨rfl, rfl, rfl⟩
  · dsimp only
    split
    · exact ⟨⟨s.threads, [_], rfl, change_refl _ _ _, one⟩, rfl, rfl, rfl⟩
    · exact ⟨⟨s.threads, [_], rfl, change_refl _ _ _, one⟩, rfl, rfl, rfl⟩

theorem moves_mention (id : Bytes) : Moves c credited s (s.noteMention id) :=
  moves_of_kept (change_first fun t _ => .mention t) ⟨rfl, rfl, rfl⟩

private theorem find_id {id : Bytes} {t : Thread} (h : s.find id = some t) : t.id = id := by
  simpa using List.find?_some h

theorem moves_credit {id : Bytes} {artifact : WorkArtifact} (hreport : id ∈ credited)
    (hverified : Verified c artifact) :
    Moves c credited s (s.creditWork id artifact c.now).1 := by
  unfold TensionStore.creditWork
  split
  · exact moves_of_kept (change_refl _ _ _) ⟨rfl, rfl, rfl⟩
  next t ht =>
  split
  · exact moves_of_kept (change_refl _ _ _) ⟨rfl, rfl, rfl⟩
  next hlive =>
  split
  · exact moves_of_kept (change_refl _ _ _) ⟨rfl, rfl, rfl⟩
  next honce =>
  refine moves_of_kept (change_first fun u hu => ?_) ⟨rfl, rfl, rfl⟩
  obtain rfl : t = u := Option.some.inj (ht.symm.trans hu)
  exact .credit t artifact (by simpa using hlive) honce (find_id ht ▸ hreport) hverified

theorem retakeTriage_threads (s : TensionStore) (now : Time) :
    (s.retakeTriage now).threads = s.threads ∧ (s.retakeTriage now).cycles = s.cycles ∧
      (s.retakeTriage now).config = s.config ∧ (s.retakeTriage now).lastTickAt = s.lastTickAt := by
  unfold TensionStore.retakeTriage
  split
  · exact ⟨rfl, rfl, rfl, rfl⟩
  split
  · exact ⟨rfl, rfl, rfl, rfl⟩
  · exact ⟨rfl, rfl, rfl, rfl⟩

theorem moves_resolve (id : Bytes) {verdict : ResolutionVerdict} (hbacked : Backed c verdict) :
    Moves c credited s (s.resolve id verdict c.now).1 := by
  unfold TensionStore.resolve
  split
  · exact moves_of_kept (change_refl _ _ _) ⟨rfl, rfl, rfl⟩
  next t ht =>
  split
  · exact moves_of_kept (change_refl _ _ _) ⟨rfl, rfl, rfl⟩
  next hlive =>
  obtain ⟨hthreads, hrest⟩ := retakeTriage_threads
    (s.modify id fun t => t.retire s.cycles.cyclesRun verdict c.now) c.now
  refine moves_of_kept ?_ hrest
  rw [hthreads]
  refine change_first fun u hu => ?_
  obtain rfl : t = u := Option.some.inj (ht.symm.trans hu)
  exact .retire t verdict (by simpa using hlive) hbacked

end

/-! A pass. -/

/-- The firewall between a store and what a cycle has made of it. -/
structure Firewall (c : CycleInput) (s : TensionStore) (p : Pass) : Prop where
  threads : ∃ kept added, p.store.threads = kept ++ added ∧
    List.Forall₂ (Outcome c s (p.report.discharged.map Prod.fst)) s.threads kept ∧
    ∀ t ∈ added, ∃ id draft, id ∉ s.threads.map Thread.id ∧
      Outcome c s (p.report.discharged.map Prod.fst) (s.newThread id draft c.now) t
  counters : p.store.cycles = s.cycles ∧ p.store.config = s.config ∧
    p.store.lastTickAt = s.lastTickAt

section
variable {c : CycleInput} {s : TensionStore} {p : Pass}

theorem Firewall.start (s : TensionStore) (c : CycleInput) (report : IngestReport) :
    Firewall c s ⟨s, report⟩ := by
  refine ⟨⟨s.threads, [], by simp, ?_, by simp⟩, rfl, rfl, rfl⟩
  induction s.threads with
  | nil => exact .nil
  | cons t ts ih => exact .cons (.refl t) ih

private theorem newThread_congr {s s' : TensionStore} (h : s'.cycles = s.cycles) (id : Bytes)
    (draft : ThreadDraft) (now : Time) : s'.newThread id draft now = s.newThread id draft now := by
  rw [TensionStore.newThread, TensionStore.newThread, h]

private theorem forall₂_trans {α β γ : Type} {R : α → β → Prop} {S : β → γ → Prop}
    {T : α → γ → Prop} (h : ∀ a b c, R a b → S b c → T a c) {as : List α} {bs : List β}
    {cs : List γ} (hab : List.Forall₂ R as bs) (hbc : List.Forall₂ S bs cs) :
    List.Forall₂ T as cs := by
  induction hab generalizing cs with
  | nil =>
    cases hbc
    exact .nil
  | cons hr _ ih =>
    cases hbc with
    | cons hs hrest => exact .cons (h _ _ _ hr hs) (ih hrest)

private theorem forall₂_append {α β : Type} {R : α → β → Prop} {as bs : List α} {l : List β}
    (h : List.Forall₂ R (as ++ bs) l) :
    ∃ cs ds, l = cs ++ ds ∧ List.Forall₂ R as cs ∧ List.Forall₂ R bs ds := by
  induction as generalizing l with
  | nil => exact ⟨[], l, rfl, .nil, h⟩
  | cons a as ih =>
    cases h with
    | cons hr ht =>
      obtain ⟨cs, ds, rfl, hc, hd⟩ := ih ht
      exact ⟨_ :: cs, ds, rfl, .cons hr hc, hd⟩

private theorem forall₂_mem {α β : Type} {R : α → β → Prop} {as : List α} {bs : List β}
    (h : List.Forall₂ R as bs) {b : β} (hb : b ∈ bs) : ∃ a ∈ as, R a b := by
  induction h with
  | nil => simp at hb
  | cons hr _ ih =>
    rcases List.mem_cons.mp hb with rfl | hb
    · exact ⟨_, by simp, hr⟩
    · obtain ⟨a, ha, hab⟩ := ih hb
      exact ⟨a, by simp [ha], hab⟩

private theorem ids_kept {credited : List Bytes} {ts kept : List Thread}
    (h : List.Forall₂ (Outcome c s credited) ts kept) :
    kept.map Thread.id = ts.map Thread.id := by
  induction h with
  | nil => rfl
  | cons ho _ ih => simp only [List.map_cons, ho.id, ih]

/-- One operation keeps the firewall; the report may say more. -/
theorem Firewall.step (h : Firewall c s p) {store : TensionStore} {report : IngestReport}
    (hreport : ∀ id ∈ p.report.discharged.map Prod.fst, id ∈ report.discharged.map Prod.fst)
    (hm : Moves c (report.discharged.map Prod.fst) p.store store) :
    Firewall c s ⟨store, report⟩ := by
  obtain ⟨kept, added, hstore, hkept, hadded⟩ := h.threads
  obtain ⟨kept', added', hstore', hkept', hadded'⟩ := hm.threads
  obtain ⟨hcycles, hconfig, htick⟩ := h.counters
  obtain ⟨hcycles', hconfig', htick'⟩ := hm.counters
  rw [hstore, hconfig, hcycles] at hkept'
  obtain ⟨old, new, rfl, hold, hnew⟩ := forall₂_append hkept'
  refine ⟨⟨old, new ++ added', by simp [hstore'], ?_, fun t ht => ?_⟩,
    hcycles'.trans hcycles, hconfig'.trans hconfig, htick'.trans htick⟩
  · exact forall₂_trans (fun _ _ _ ho hc => (ho.mono hreport).step hc) hkept hold
  rcases List.mem_append.mp ht with ht | ht
  · obtain ⟨a, ha, hc⟩ := forall₂_mem hnew ht
    obtain ⟨id, draft, hfresh, ho⟩ := hadded a ha
    exact ⟨id, draft, hfresh, (ho.mono hreport).step hc⟩
  · obtain ⟨id, draft, hfresh, rfl⟩ := hadded' t ht
    have hids : ∀ id ∈ s.threads.map Thread.id, id ∈ p.store.threads.map Thread.id := by
      intro id hid
      rw [hstore, List.map_append, ids_kept hkept]
      exact List.mem_append_left _ hid
    refine ⟨id, draft, fun hid => hfresh (hids id hid), ?_⟩
    rw [newThread_congr hcycles]
    exact .refl _

/-! The parts of a cycle. -/

private theorem firewall_same (h : Firewall c s p) {report : IngestReport}
    (hd : report.discharged = p.report.discharged) : Firewall c s ⟨p.store, report⟩ := by
  refine ⟨?_, h.counters⟩
  dsimp only
  rw [hd]
  exact h.threads

theorem firewall_openOne (src : Source) (h : Firewall c s p) (draft : ThreadDraft) :
    Firewall c s (p.openOne src c.now draft) := by
  have hm : Moves c (p.report.discharged.map Prod.fst) p.store
      (p.store.openThread src draft c.now).1 := moves_open src draft
  unfold Pass.openOne
  split <;> (next store _ heq => rw [heq] at hm; exact h.step (fun _ hid => hid) hm)

theorem firewall_workOne (h : Firewall c s p) {work : ParsedWork}
    (hf : NamesFile c.evidence work.claim) : Firewall c s (p.workOne c.evidence c.now work) := by
  unfold Pass.workOne
  split
  · exact firewall_same h rfl
  next artifact hv =>
  split
  · next store after heq =>
    have hm : Moves c ((p.report.discharged ++ [(work.id, after)]).map Prod.fst) p.store
        (p.store.creditWork work.id artifact c.now).1 :=
      moves_credit (by simp) (verify_sound hf hv)
    rw [heq] at hm
    exact h.step (by simp +contextual) hm
  · exact firewall_same h rfl

theorem firewall_resolveOne (h : Firewall c s p) {parsed : ParsedResolution}
    (hf : parsed.kind = .answered ∨ parsed.kind = .superseded → NamesFile c.evidence parsed.claim) :
    Firewall c s (p.resolveOne c.evidence c.now parsed) := by
  unfold Pass.resolveOne
  dsimp only
  split
  · exact firewall_same h rfl
  next verdict hv =>
  have hm : Moves c (p.report.discharged.map Prod.fst) p.store
      (p.store.resolve parsed.id verdict c.now).1 :=
    moves_resolve parsed.id (buildVerdict_backed hf hv)
  split
  · next store heq =>
    rw [heq] at hm
    exact h.step (fun _ hid => hid) hm
  · exact firewall_same h rfl
  · exact firewall_same h rfl

theorem firewall_markers (src : Source) {reader : PayloadReader} (hf : NamesFilesOnly reader c) :
    Firewall c s (applyMarkers src reader s c.rawOutput c.evidence c.now) := by
  unfold applyMarkers
  have opened : Firewall c s ((parseThreads reader c.rawOutput).foldl (Pass.openOne src c.now) ⟨s, {}⟩) :=
    List.foldlRecOn _ _ (.start s c {}) fun _ hq draft _ => firewall_openOne src hq draft
  have worked := List.foldlRecOn (parseWorkClaims reader c.rawOutput) (Pass.workOne c.evidence c.now)
    opened fun _ hq _ hw => firewall_workOne hq (hf _ (checked_work hw))
  exact List.foldlRecOn _ _ worked fun _ hq _ hp =>
    firewall_resolveOne hq fun hk => hf _ (checked_resolution hp hk)

theorem firewall_credit (h : Firewall c s p) : Firewall c s (creditPass c.resolved c.now p) := by
  have step (acc : TensionStore × List (Bytes × Float)) (predictionId : Bytes)
      (hp : predictionId ∈ c.resolved) (id : Bytes)
      (hacc : Firewall c s ⟨acc.1, { p.report with
        discharged := p.report.discharged ++ acc.2 }⟩) :
      Firewall c s ⟨(creditResolved predictionId c.now acc id).1, { p.report with
        discharged := p.report.discharged ++ (creditResolved predictionId c.now acc id).2 }⟩ := by
    unfold creditResolved
    split
    · next store after heq =>
      have hm : Moves c ((p.report.discharged ++ (acc.2 ++ [(id, after)])).map Prod.fst) acc.1
          (acc.1.creditWork id (.resolvedPrediction predictionId) c.now).1 :=
        moves_credit (by simp) (.inr hp)
      rw [heq] at hm
      refine hacc.step (fun x hx => ?_) hm
      rw [← List.append_assoc, List.map_append]
      exact List.mem_append_left _ hx
    · exact hacc
  unfold creditPass creditResolvedPredictions
  dsimp only
  let keeps (acc : TensionStore × List (Bytes × Float)) : Prop :=
    Firewall c s ⟨acc.1, { p.report with discharged := p.report.discharged ++ acc.2 }⟩
  have start : keeps (p.store, []) := firewall_same h (by simp)
  refine List.foldlRecOn (motive := keeps) _ _ start fun acc hacc predictionId hp => ?_
  exact List.foldlRecOn (motive := keeps) _ _ hacc fun acc hacc id _ => step acc predictionId hp id hacc

theorem openOne_store (src : Source) (now : Time) (q : Pass) (draft : ThreadDraft) :
    (q.openOne src now draft).store = (q.store.openThread src draft now).1 := by
  unfold Pass.openOne
  split <;> (next heq => rw [heq])

theorem firewall_ingest (src : Source) (h : Firewall c s p) :
    Firewall c s (ingestPass src c.stack c.now p) := by
  unfold ingestPass
  split
  · exact h
  next stack _ =>
  let keeps (q : Pass) : Prop := Firewall c s ⟨q.store, p.report⟩
  have run : keeps (ingestPredictionErrors src p.store stack c.now) := by
    unfold ingestPredictionErrors
    refine List.foldlRecOn (motive := keeps) _ _ h fun q hq error _ => ?_
    unfold ingestError
    split
    · exact hq
    split
    · exact hq
    · change Firewall c s ⟨(q.openOne src c.now _).store, p.report⟩
      rw [openOne_store]
      exact hq.step (fun _ hid => hid) (moves_open src _)
  exact firewall_same run rfl

theorem firewall_mention (h : Firewall c s p) : Firewall c s (mentionPass c.rawOutput p) := by
  unfold mentionPass noteMentions
  dsimp only
  let keeps (store : TensionStore) : Prop := Firewall c s ⟨store, p.report⟩
  refine firewall_same (List.foldlRecOn (motive := keeps) _ _ h fun store hq id _ => ?_) rfl
  exact hq.step (fun _ hid => hid) (moves_mention id)

theorem firewall_refusal (h : Firewall c s p) : Firewall c s (refusalPass p) := ⟨h.threads, h.counters⟩

/-- A cycle whose claims name files leaves the firewall standing. -/
theorem firewall_cycle (src : Source) {reader : PayloadReader} (s : TensionStore)
    (hf : NamesFilesOnly reader c) : Firewall c s (applyCycle src reader s c) :=
  firewall_refusal (firewall_mention (firewall_ingest src (firewall_credit (firewall_markers src hf))))

end

end PulseNull.Tension
