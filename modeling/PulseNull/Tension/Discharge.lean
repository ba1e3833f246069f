import PulseNull.Tension.Firewall

/-! Every discharge at most once a cycle, and the firewall over whole runs of ticks and cycles. -/
namespace PulseNull.Tension
open Text (ascii)

/-- The thread of this id has taken its discharge of the running cycle. -/
def Credited (s : TensionStore) (id : Bytes) : Prop :=
  ∃ t, s.find id = some t ∧ t.lastWorkedCycle = some s.cycles.cyclesRun

/-- A thread that keeps its id, and its discharge of this cycle. -/
def Steady (cycle : Nat) (t t' : Thread) : Prop :=
  t'.id = t.id ∧ (t.lastWorkedCycle = some cycle → t'.lastWorkedCycle = some cycle)

/-- A store that grows and keeps its discharges. -/
structure Steadily (s s' : TensionStore) : Prop where
  cycles : s'.cycles = s.cycles
  threads : ∃ kept added, s'.threads = kept ++ added ∧
    List.Forall₂ (Steady s.cycles.cyclesRun) s.threads kept

section
variable {s s' : TensionStore}

private theorem steady_refl (cycle : Nat) (ts : List Thread) :
    List.Forall₂ (Steady cycle) ts ts := by
  induction ts with
  | nil => exact .nil
  | cons t ts ih => exact .cons ⟨rfl, id⟩ ih

private theorem steady_first {cycle : Nat} {p : Thread → Bool} {f : Thread → Thread}
    (hf : ∀ t, Steady cycle t (f t)) (ts : List Thread) :
    List.Forall₂ (Steady cycle) ts (modifyFirst p f ts) := by
  induction ts with
  | nil => exact .nil
  | cons t ts ih =>
    rw [modifyFirst]
    split
    · exact .cons (hf t) (steady_refl cycle ts)
    · exact .cons ⟨rfl, id⟩ ih

private theorem mention_steady (cycle : Nat) (t : Thread) : Steady cycle t t.mention := ⟨rfl, id⟩

private theorem credit_steady (config : TensionConfig) (cycle : Nat) (artifact : WorkArtifact)
    (now : Time) (t : Thread) : Steady cycle t (t.credit config cycle artifact now) :=
  ⟨rfl, fun _ => rfl⟩

private theorem steadily_of (hc : s'.cycles = s.cycles)
    (h : List.Forall₂ (Steady s.cycles.cyclesRun) s.threads s'.threads) : Steadily s s' :=
  ⟨hc, s'.threads, [], by simp, h⟩

theorem Steadily.refl (s : TensionStore) : Steadily s s := steadily_of rfl (steady_refl _ _)

theorem steadily_open (src : Source) (s : TensionStore) (draft : ThreadDraft) (now : Time) :
    Steadily s (s.openThread src draft now).1 := by
  unfold TensionStore.openThread
  split
  · exact steadily_of rfl (steady_first (mention_steady _) _)
  · dsimp only
    split
    · exact ⟨rfl, s.threads, [_], rfl, steady_refl _ _⟩
    · exact ⟨rfl, s.threads, [_], rfl, steady_refl _ _⟩

theorem steadily_mention (s : TensionStore) (id : Bytes) : Steadily s (s.noteMention id) :=
  steadily_of rfl (steady_first (mention_steady _) _)

theorem steadily_credit (s : TensionStore) (id : Bytes) (artifact : WorkArtifact) (now : Time) :
    Steadily s (s.creditWork id artifact now).1 := by
  unfold TensionStore.creditWork
  split
  · exact .refl s
  split
  · exact .refl s
  split
  · exact .refl s
  · exact steadily_of rfl (steady_first (credit_steady _ _ artifact now) _)

private theorem retire_steady (cycle : Nat) (verdict : ResolutionVerdict) (now : Time) (t : Thread) :
    Steady cycle t (t.retire cycle verdict now) := by
  obtain ⟨log, hf⟩ := retire_fields t cycle verdict now
  rw [hf]
  exact ⟨rfl, id⟩

theorem steadily_resolve (s : TensionStore) (id : Bytes) (verdict : ResolutionVerdict) (now : Time) :
    Steadily s (s.resolve id verdict now).1 := by
  unfold TensionStore.resolve
  split
  · exact .refl s
  split
  · exact .refl s
  obtain ⟨hthreads, hcycles, -⟩ := retakeTriage_threads
    (s.modify id fun t => t.retire s.cycles.cyclesRun verdict now) now
  refine steadily_of hcycles ?_
  rw [hthreads]
  exact steady_first (retire_steady _ verdict now) _

/-- A thread that is found is found again. -/
private theorem find_steady {cycle : Nat} {ts kept : List Thread}
    (h : List.Forall₂ (Steady cycle) ts kept) {id : Bytes} {t : Thread}
    (hf : ts.find? (·.id = id) = some t) :
    ∃ t', kept.find? (·.id = id) = some t' ∧ Steady cycle t t' := by
  induction h with
  | nil => simp at hf
  | @cons a b as bs hab _ ih =>
    by_cases ha : a.id = id
    · rw [List.find?_cons_of_pos (by simpa using ha)] at hf
      cases hf
      exact ⟨b, List.find?_cons_of_pos (by simp [hab.1, ha]), hab⟩
    · rw [List.find?_cons_of_neg (by simpa using ha)] at hf
      rw [List.find?_cons_of_neg (by simp [hab.1, ha])]
      exact ih hf

theorem Credited.steadily {id : Bytes} (hs : Steadily s s') (h : Credited s id) : Credited s' id := by
  obtain ⟨t, ht, hw⟩ := h
  obtain ⟨kept, added, hk, hf⟩ := hs.threads
  obtain ⟨t', ht', hst⟩ := find_steady hf ht
  refine ⟨t', ?_, ?_⟩
  · rw [TensionStore.find, hk, List.find?_append, ht']
    rfl
  · rw [hs.cycles]
    exact hst.2 hw

private theorem find_modify {id : Bytes} {f : Thread → Thread} (hf : ∀ t : Thread, (f t).id = t.id)
    {ts : List Thread} {t : Thread} (h : ts.find? (·.id = id) = some t) :
    (modifyFirst (·.id = id) f ts).find? (·.id = id) = some (f t) := by
  induction ts with
  | nil => simp at h
  | cons a as ih =>
    by_cases ha : a.id = id
    · rw [List.find?_cons_of_pos (by simpa using ha)] at h
      cases h
      rw [modifyFirst, if_pos (by simpa using ha), List.find?_cons_of_pos (by simp [hf, ha])]
    · rw [List.find?_cons_of_neg (by simpa using ha)] at h
      rw [modifyFirst, if_neg (by simpa using ha), List.find?_cons_of_neg (by simpa using ha)]
      exact ih h

/-- A discharge that is granted was not taken before, and is taken after. -/
theorem creditWork_once {id : Bytes} {artifact : WorkArtifact} {now : Time} {store : TensionStore}
    {after : Float} (h : s.creditWork id artifact now = (store, .credited after)) :
    ¬ Credited s id ∧ Credited store id := by
  unfold TensionStore.creditWork at h
  split at h
  · cases h
  next t ht =>
  split at h
  · cases h
  split at h
  · cases h
  next honce =>
  cases h
  have hid (t : Thread) : (t.credit s.config s.cycles.cyclesRun artifact now).id = t.id := rfl
  refine ⟨fun ⟨u, hu, hw⟩ => honce ?_, _, find_modify hid ht, rfl⟩
  rw [← hw, Option.some.inj (hu.symm.trans ht)]

end

/-- The discharges of a pass: each id once, none of them taken before, all of them taken now. -/
structure Once (s : TensionStore) (store : TensionStore) (discharged : List Bytes) : Prop where
  cycles : store.cycles = s.cycles
  kept : ∀ id, Credited s id → Credited store id
  nodup : discharged.Nodup
  taken : ∀ id ∈ discharged, ¬ Credited s id ∧ Credited store id

section
variable {s store store' : TensionStore} {discharged : List Bytes}

theorem Once.start (s : TensionStore) : Once s s [] := ⟨rfl, fun _ h => h, .nil, by simp⟩

theorem Once.step (h : Once s store discharged) (hs : Steadily store store') :
    Once s store' discharged where
  cycles := hs.cycles.trans h.cycles
  kept id hc := (h.kept id hc).steadily hs
  nodup := h.nodup
  taken id hid := ⟨(h.taken id hid).1, (h.taken id hid).2.steadily hs⟩

theorem Once.credit (h : Once s store discharged) {id : Bytes} {artifact : WorkArtifact}
    {now : Time} {after : Float}
    (hc : store.creditWork id artifact now = (store', .credited after)) :
    Once s store' (discharged ++ [id]) := by
  obtain ⟨hno, hyes⟩ := creditWork_once hc
  have hs : Steadily store store' := by
    have := steadily_credit store id artifact now
    rwa [hc] at this
  have hstep := h.step hs
  refine ⟨hstep.cycles, hstep.kept, ?_, fun x hx => ?_⟩
  · rw [List.nodup_append]
    refine ⟨h.nodup, List.nodup_singleton id, fun a ha b hb hab => ?_⟩
    rw [List.mem_singleton.mp hb] at hab
    exact hno (hab ▸ (h.taken a ha).2)
  · rcases List.mem_append.mp hx with hx | hx
    · exact hstep.taken x hx
    · rw [List.mem_singleton.mp hx]
      exact ⟨fun hcs => hno (h.kept id hcs), hyes⟩

end

/-- `Once` for a pass. -/
def Pass.Once (s : TensionStore) (p : Pass) : Prop :=
  Tension.Once s p.store (p.report.discharged.map Prod.fst)

section
variable {s : TensionStore} {p : Pass} {now : Time}

theorem once_openOne (src : Source) (h : p.Once s) (draft : ThreadDraft) :
    (p.openOne src now draft).Once s := by
  have hs := steadily_open src p.store draft now
  unfold Pass.openOne
  split <;> (next heq => rw [heq] at hs; exact h.step hs)

theorem once_workOne (h : p.Once s) (e : WorkEvidence) (work : ParsedWork) :
    (p.workOne e now work).Once s := by
  unfold Pass.workOne
  split
  · exact h
  split
  · next heq =>
    unfold Pass.Once
    rw [List.map_append]
    exact Once.credit h heq
  · exact h

theorem once_resolveOne (h : p.Once s) (e : WorkEvidence) (parsed : ParsedResolution) :
    (p.resolveOne e now parsed).Once s := by
  unfold Pass.resolveOne
  dsimp only
  split
  · exact h
  next verdict _ =>
  have hs := steadily_resolve p.store parsed.id verdict now
  split
  · next heq =>
    rw [heq] at hs
    exact h.step hs
  · exact h
  · exact h

theorem once_markers (src : Source) (reader : PayloadReader) (s : TensionStore) (rawOutput : Bytes)
    (e : WorkEvidence) (now : Time) : (applyMarkers src reader s rawOutput e now).Once s := by
  unfold applyMarkers
  have opened : ((parseThreads reader rawOutput).foldl (Pass.openOne src now) ⟨s, {}⟩).Once s :=
    List.foldlRecOn _ _ (.start s) fun _ hq draft _ => once_openOne src hq draft
  have worked := List.foldlRecOn (parseWorkClaims reader rawOutput) (Pass.workOne e now) opened
    fun _ hq work _ => once_workOne hq e work
  exact List.foldlRecOn _ _ worked fun _ hq parsed _ => once_resolveOne hq e parsed

theorem once_credit (h : p.Once s) (resolved : List Bytes) : (creditPass resolved now p).Once s := by
  let keeps (acc : TensionStore × List (Bytes × Float)) : Prop :=
    Once s acc.1 (p.report.discharged.map Prod.fst ++ acc.2.map Prod.fst)
  have start : keeps (p.store, []) := by
    change Once s p.store (_ ++ [])
    rwa [List.append_nil]
  have run : keeps (creditResolvedPredictions p.store resolved now) := by
    refine List.foldlRecOn (motive := keeps) _ _ start fun acc hacc predictionId _ => ?_
    refine List.foldlRecOn (motive := keeps) _ _ hacc fun acc hacc id _ => ?_
    unfold creditResolved
    split
    · next heq =>
      change Once s _ _
      rw [List.map_append, ← List.append_assoc]
      exact Once.credit hacc heq
    · exact hacc
  simpa [keeps, Pass.Once, creditPass] using run

theorem once_ingest (src : Source) (h : p.Once s) (stack : Option PredictionStack) :
    (ingestPass src stack now p).Once s := by
  unfold ingestPass
  split
  · exact h
  next stack =>
  let keeps (q : Pass) : Prop := Once s q.store (p.report.discharged.map Prod.fst)
  have run : keeps (ingestPredictionErrors src p.store stack now) := by
    refine List.foldlRecOn (motive := keeps) _ _ h fun q hq error _ => ?_
    unfold ingestError
    split
    · exact hq
    split
    · exact hq
    · change Once s (q.openOne src now _).store _
      rw [openOne_store]
      exact Once.step hq (steadily_open src _ _ now)
  exact run

theorem once_mention (h : p.Once s) (rawOutput : Bytes) : (mentionPass rawOutput p).Once s := by
  let keeps (store : TensionStore) : Prop := Once s store (p.report.discharged.map Prod.fst)
  exact List.foldlRecOn (motive := keeps) _ _ h fun store hq id _ =>
    Once.step hq (steadily_mention store id)

/-- A cycle discharges a thread once at most, and none that was already discharged. -/
theorem once_cycle (src : Source) (reader : PayloadReader) (s : TensionStore) (c : CycleInput) :
    (applyCycle src reader s c).Once s := by
  have marked := once_markers src reader s c.rawOutput c.evidence c.now
  have credited : (creditPass c.resolved c.now _).Once s := once_credit marked c.resolved
  have ingested : (ingestPass src c.stack c.now _).Once s := once_ingest src credited c.stack
  have h := once_mention ingested c.rawOutput
  exact ⟨h.cycles, h.kept, h.nodup, h.taken⟩

end

/-! Runs. -/

inductive Op where
  | tick (now : Time)
  | recordCycle (now : Time)
  | cycle (c : CycleInput)
  /-- A restart with another configuration. -/
  | restart (config : TensionConfig)

namespace Op

def apply (src : Source) (reader : PayloadReader) (s : TensionStore) : Op → TensionStore
  | .tick now => s.tick now
  | .recordCycle now => s.recordCycle now
  | .cycle c => (applyCycle src reader s c).store
  | .restart config => { s with config := config }

/-- The discharges of one operation, with the counter they ran under. -/
def discharges (src : Source) (reader : PayloadReader) (s : TensionStore) : Op → List (Nat × Bytes)
  | .cycle c => (applyCycle src reader s c).report.discharged.map fun d => (s.cycles.cyclesRun, d.1)
  | .tick _ | .recordCycle _ | .restart _ => []

end Op

def run (src : Source) (reader : PayloadReader) (s : TensionStore) (ops : List Op) : TensionStore :=
  ops.foldl (Op.apply src reader) s

/-- All discharges of a run. -/
def trace (src : Source) (reader : PayloadReader) : TensionStore → List Op → List (Nat × Bytes)
  | _, [] => []
  | s, op :: ops => op.discharges src reader s ++ trace src reader (op.apply src reader s) ops

/-- The discharges so far, as the store remembers those of the running counter. -/
structure Past (s : TensionStore) (past : List (Nat × Bytes)) : Prop where
  nodup : past.Nodup
  bound : ∀ d ∈ past, d.1 ≤ s.cycles.cyclesRun
  credited : ∀ d ∈ past, d.1 = s.cycles.cyclesRun → Credited s d.2

section
variable {src : Source} {reader : PayloadReader} {s : TensionStore} {past : List (Nat × Bytes)}

private theorem accrue_steady (s : TensionStore) (now : Time) (cycle : Nat) (t : Thread) :
    Steady cycle t (s.accrue now t) := by
  unfold TensionStore.accrue
  dsimp only
  split
  · exact ⟨rfl, id⟩
  · exact ⟨rfl, id⟩

private theorem steadily_tick (s : TensionStore) (now : Time) : Steadily s (s.tick now) := by
  refine steadily_of rfl ?_
  change List.Forall₂ _ s.threads (s.threads.map (s.accrue now))
  rw [List.forall₂_map_right_iff]
  exact List.forall₂_same.mpr fun t _ => accrue_steady s now _ t

private theorem past_steadily (h : Past s past) {s' : TensionStore} (hs : Steadily s s') :
    Past s' past where
  nodup := h.nodup
  bound d hd := hs.cycles ▸ h.bound d hd
  credited d hd hc := (h.credited d hd (by rw [hc, hs.cycles])).steadily hs

/-- The counter only grows, and where it stays the discharges stay known. -/
private theorem past_recordCycle (h : Past s past) (now : Time) : Past (s.recordCycle now) past := by
  have hle := le_satSucc 64 s.cycles.cyclesRun
  refine ⟨h.nodup, fun d hd => (h.bound d hd).trans hle, fun d hd hc => ?_⟩
  have hcycle : (s.recordCycle now).cycles.cyclesRun = s.cycles.cyclesRun :=
    le_antisymm (hc ▸ h.bound d hd) hle
  obtain ⟨t, ht, hw⟩ := h.credited d hd (hc.trans hcycle)
  exact ⟨t, ht, hw.trans (congrArg some hcycle.symm)⟩

private theorem past_cycle (h : Past s past) (c : CycleInput) :
    Past (applyCycle src reader s c).store (past ++ (Op.cycle c).discharges src reader s) := by
  have ho := once_cycle src reader s c
  have new (d : Nat × Bytes) (hd : d ∈ (Op.cycle c).discharges src reader s) :
      d.1 = s.cycles.cyclesRun ∧ ¬ Credited s d.2 ∧ Credited (applyCycle src reader s c).store d.2 := by
    obtain ⟨x, hx, rfl⟩ := List.mem_map.mp hd
    exact ⟨rfl, ho.taken x.1 (List.mem_map_of_mem hx)⟩
  refine ⟨?_, fun d hd => ?_, fun d hd hc => ?_⟩
  · rw [List.nodup_append]
    refine ⟨h.nodup, ?_, fun a ha b hb hab => ?_⟩
    · have hn := ho.nodup.map (fun a b hab => (Prod.mk.inj hab).2 : Function.Injective
        fun id : Bytes => (s.cycles.cyclesRun, id))
      rwa [List.map_map] at hn
    · obtain ⟨hcycle, hno, -⟩ := new b hb
      exact hno (hab ▸ h.credited a ha (by rw [hab, hcycle]))
  · rw [ho.cycles]
    rcases List.mem_append.mp hd with hd | hd
    · exact h.bound d hd
    · exact (new d hd).1.le
  · rcases List.mem_append.mp hd with hd | hd
    · exact ho.kept d.2 (h.credited d hd (by rw [hc, ho.cycles]))
    · exact (new d hd).2.2

private theorem past_step (h : Past s past) (op : Op) :
    Past (op.apply src reader s) (past ++ op.discharges src reader s) := by
  cases op with
  | tick now =>
    rw [Op.discharges, List.append_nil]
    exact past_steadily h (steadily_tick s now)
  | recordCycle now =>
    rw [Op.discharges, List.append_nil]
    exact past_recordCycle h now
  | cycle c => exact past_cycle h c
  | restart config =>
    rw [Op.discharges, List.append_nil]
    exact ⟨h.nodup, h.bound, h.credited⟩

/-- Over a whole run a thread is discharged at most once for each counter value. -/
theorem trace_nodup (src : Source) (reader : PayloadReader) (s : TensionStore) (ops : List Op) :
    (trace src reader s ops).Nodup := by
  have run (ops : List Op) (s : TensionStore) (past : List (Nat × Bytes)) (h : Past s past) :
      (past ++ trace src reader s ops).Nodup := by
    induction ops generalizing s past with
    | nil =>
      rw [trace, List.append_nil]
      exact h.nodup
    | cons op ops ih =>
      rw [trace, ← List.append_assoc]
      exact ih _ _ (past_step h op)
  exact run ops s [] ⟨.nil, by simp, by simp⟩

end

/-- The firewall holds over every run of ticks and cycles in which no claim passes off a directory
as a file, and a thread is discharged at most once for each value of the cycle counter. -/
theorem discharge_firewall (src : Source) (reader : PayloadReader) (s : TensionStore)
    (ops : List Op) (hfiles : ∀ c, .cycle c ∈ ops → NamesFilesOnly reader c) :
    (∀ before c after, ops = before ++ .cycle c :: after →
      Firewall c (run src reader s before) (applyCycle src reader (run src reader s before) c)) ∧
    (trace src reader s ops).Nodup := by
  refine ⟨fun before c after hops => ?_, trace_nodup src reader s ops⟩
  exact firewall_cycle src _ (hfiles c (by simp [hops]))

/-! One thread, one claim. -/

/-- A source whose ids are longer than any in use. -/
def longIds : Source where
  mint used := List.replicate ((used.map List.length).sum + 1) 48
  fresh used h := by
    have := List.single_le_sum (by simp) _ (List.mem_map_of_mem (f := List.length) h)
    simp only [List.length_replicate] at this
    omega
  normalizeLabel := id
  twoDecimals _ := []

/-- One live thread. -/
def oneThread : TensionStore where
  threads := [⟨ascii "t-1", ascii "label", ascii "content", .userRaised (ascii "label"), 0, 0, 0, 2,
    none, none, none, 0, none, 0, []⟩]
  cycles := ⟨0, none, 0, none⟩
  lastTickAt := none
  triage := none
  lastRefusals := []
  config := ⟨0.05, 72, 1, 40⟩

/-- A cycle from time 3 that claims a path changed at time 5, and nothing else. -/
def claimCycle (path : String) (isFile : Bool) : CycleInput where
  rawOutput := ascii "[THREAD-WORK:\x7b\"id\":\"t-1\",\"file\":\"" ++ ascii path ++ ascii "\"\x7d]"
  evidence := ⟨fun relative => if relative = [ascii path] then some ⟨isFile, 5⟩ else none, [], 0,
    true, 3⟩
  stack := none
  resolved := []
  now := 6

theorem discharge_firewall_sample :
    let reader := PayloadReader.serde fun _ => true
    let ops : List Op := [.recordCycle 2, .cycle (claimCycle "notes.txt" true), .tick 7]
    (∀ before c after, ops = before ++ .cycle c :: after → Firewall c (run longIds reader oneThread before)
      (applyCycle longIds reader (run longIds reader oneThread before) c)) ∧
    (trace longIds reader oneThread ops).Nodup ∧
    trace longIds reader oneThread ops = [(1, ascii "t-1")] := by
  have h := discharge_firewall longIds (PayloadReader.serde fun _ => true) oneThread
    [.recordCycle 2, .cycle (claimCycle "notes.txt" true), .tick 7] (by
      intro c hc claim _ raw _ relative _ _ found hfound _
      obtain rfl : c = claimCycle "notes.txt" true := by simpa using hc
      simp only [claimCycle, Option.mem_def, Option.ite_none_right_eq_some] at hfound
      rw [← Option.some.inj hfound.2])
  exact ⟨h.1, h.2, by decide +kernel⟩

/-- A directory that changed passes for a changed file. -/
theorem directory_discharges :
    ¬ Firewall (claimCycle "memory" false) oneThread
      (applyCycle longIds (PayloadReader.serde fun _ => true) oneThread (claimCycle "memory" false)) := by
  intro h
  obtain ⟨kept, added, hthreads, hkept, -⟩ := h.threads
  have hworked : ((applyCycle longIds (PayloadReader.serde fun _ => true) oneThread
      (claimCycle "memory" false)).store.threads.map Thread.lastWorkedCycle) = [some 0] := by
    decide +kernel
  obtain ⟨t', rest, ho, hnil, rfl⟩ := List.forall₂_cons_left_iff.mp hkept
  rw [hthreads] at hworked
  have hw : t'.lastWorkedCycle = some 0 := by
    simp only [List.cons_append, List.map_cons, List.cons.injEq] at hworked
    exact hworked.1
  rcases ho.work with hu | hd
  · have := hu.lastWorkedCycle
    rw [hw] at this
    cases this
  · obtain ⟨record, hv, -⟩ := hd.artifact
    revert hv
    cases record.artifact with
    | fileDiff path modifiedAt =>
      rintro ⟨relative, found, -, -, -, hfound, hfile, -⟩
      simp only [claimCycle, Option.ite_none_right_eq_some] at hfound
      rw [← Option.some.inj hfound.2] at hfile
      cases hfile
    | resolvedPrediction id => simp [Verified, claimCycle]
    | toolResult tool rounds =>
      rintro ⟨hr, hpos⟩
      simp only [claimCycle] at hr
      omega

end PulseNull.Tension
