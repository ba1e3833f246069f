import PulseNull.Tension.Firewall

/-! What holds of the threads and the triage demand in every run of the store. -/
namespace PulseNull.Tension.Threads

inductive Op where
  | openThread (draft : ThreadDraft) (now : Time)
  | noteMention (id : Bytes)
  | tick (now : Time)
  | creditWork (id : Bytes) (artifact : WorkArtifact) (now : Time)
  | resolve (id : Bytes) (verdict : ResolutionVerdict) (now : Time)
  | recordCycle (now : Time)
  | ingest (stack : PredictionStack) (now : Time)

variable (src : Source)

def Op.apply (s : TensionStore) : Op → TensionStore
  | .openThread draft now => (s.openThread src draft now).1
  | .noteMention id => s.noteMention id
  | .tick now => s.tick now
  | .creditWork id artifact now => (s.creditWork id artifact now).1
  | .resolve id verdict now => (s.resolve id verdict now).1
  | .recordCycle now => s.recordCycle now
  | .ingest stack now => (ingestPredictionErrors src s stack now).store

/-- The threads an operation appends. -/
def Op.opened (s : TensionStore) (op : Op) : List Thread :=
  (op.apply src s).threads.drop s.threads.length

/-- The store, and the origins of the threads that prediction errors opened. -/
structure Sys where
  store : TensionStore
  ingested : List ThreadOrigin

def Sys.step (s : Sys) (op : Op) : Sys where
  store := op.apply src s.store
  ingested := match op with
    | .ingest _ _ => s.ingested ++ (op.opened src s.store).map Thread.origin
    | _ => s.ingested

def emptyStore (config : TensionConfig) : TensionStore :=
  ⟨[], ⟨0, none, 0, none⟩, none, none, [], config⟩

/-- The state after the operations, from the empty store. -/
def run (config : TensionConfig) (ops : List Op) : Sys :=
  ops.foldl (Sys.step src) ⟨emptyStore config, []⟩

/-- Two threads that may both be live. -/
def Apart (t u : Thread) : Prop :=
  t.origin ≠ u.origin ∧ src.normalizeLabel t.label ≠ src.normalizeLabel u.label

/-- Ids are distinct over all threads; live threads share no origin and no label; a demand is
outstanding exactly over the cap, and its candidates are live. -/
structure Sound (s : TensionStore) : Prop where
  ids : (s.threads.map Thread.id).Nodup
  apart : s.live.Pairwise (Apart src)
  demand : s.triage.isSome = true ↔ s.config.maxLiveThreads < s.liveCount
  candidates : ∀ d, s.triage = some d → ∀ c ∈ d.candidates, c.id ∈ s.live.map Thread.id

/-- When the outstanding demand was raised. -/
def raisedAt (s : TensionStore) : Option Time := s.triage.map TriageDemand.raisedAt

/-- More live threads than the cap. -/
def Excess (s : TensionStore) : Prop := s.config.maxLiveThreads < s.liveCount

/-- The store is sound; a prediction error opens one thread at most, whatever became of it; and a
demand keeps its clock while the excess lasts. -/
structure Sys.Sound (s : Sys) : Prop where
  store : Threads.Sound src s.store
  once : s.ingested.Nodup
  second : ∀ stack now, ∀ t ∈ (Op.ingest stack now).opened src s.store, ∀ u ∈ s.store.threads,
    t.origin ≠ u.origin
  clock : ∀ ops : List Op, (∀ early ops', ops = early ++ ops' → Excess (early.foldl (Op.apply src) s.store)) →
    raisedAt (ops.foldl (Op.apply src) s.store) = raisedAt s.store

variable {src} {s s' : TensionStore}

/-! Operations that leave what the threads are known by. -/

/-- What a thread is known by. -/
def key (t : Thread) : Bytes × ThreadOrigin × Bytes × Bool := (t.id, t.origin, t.label, t.isLive)

theorem live_map {β : Type} (f : Bytes × ThreadOrigin × Bytes × Bool → β) (ts : List Thread) :
    (ts.filter Thread.isLive).map (fun t => f (key t)) =
      ((ts.map key).filter fun k => k.2.2.2).map f := by
  rw [List.filter_map, List.map_map]
  rfl

theorem Sound.congr (h : Sound src s) (hk : s'.threads.map key = s.threads.map key)
    (ht : s'.triage = s.triage) (hc : s'.config = s.config) : Sound src s' := by
  have ids (ts : List Thread) : ts.map Thread.id = (ts.map key).map Prod.fst := by
    rw [List.map_map]
    rfl
  have lives {β : Type} (f : Bytes × ThreadOrigin × Bytes × Bool → β) :
      s'.live.map (fun t => f (key t)) = s.live.map (fun t => f (key t)) := by
    unfold TensionStore.live
    rw [live_map, live_map, hk]
  have hcount : s'.liveCount = s.liveCount := by
    simpa [TensionStore.liveCount] using congrArg List.length (lives id)
  refine ⟨?_, ?_, ?_, ?_⟩
  · rw [ids, hk, ← ids]
    exact h.ids
  · let R (a b : ThreadOrigin × Bytes) : Prop :=
      a.1 ≠ b.1 ∧ src.normalizeLabel a.2 ≠ src.normalizeLabel b.2
    have hp : (s.live.map fun t => (t.origin, t.label)).Pairwise R := List.pairwise_map.mpr h.apart
    have hsame : s'.live.map (fun t => (t.origin, t.label)) =
        s.live.map fun t => (t.origin, t.label) := lives fun k => (k.2.1, k.2.2.1)
    rw [← hsame, List.pairwise_map] at hp
    exact hp
  · rw [ht, hc, hcount]
    exact h.demand
  · have hsame : s'.live.map Thread.id = s.live.map Thread.id := lives Prod.fst
    rw [ht, hsame]
    exact h.candidates

theorem map_modifyFirst {α β : Type} {p : α → Bool} {f : α → α} {g : α → β}
    (hg : ∀ a, g (f a) = g a) (l : List α) : (modifyFirst p f l).map g = l.map g := by
  induction l with
  | nil => rfl
  | cons a l ih =>
    rw [modifyFirst]
    split
    · rw [List.map_cons, List.map_cons, hg]
    · rw [List.map_cons, List.map_cons, ih]

theorem modifyFirst_split {α : Type} {p : α → Bool} {f : α → α} {l : List α} {a : α}
    (h : l.find? p = some a) : ∃ as bs, l = as ++ a :: bs ∧ modifyFirst p f l = as ++ f a :: bs := by
  induction l with
  | nil => cases h
  | cons b l ih =>
    by_cases hb : p b = true
    · rw [List.find?_cons_of_pos hb] at h
      obtain rfl := Option.some.inj h
      exact ⟨[], l, rfl, by rw [modifyFirst, if_pos hb]; rfl⟩
    · rw [List.find?_cons_of_neg hb] at h
      obtain ⟨as, bs, rfl, hm⟩ := ih h
      exact ⟨b :: as, bs, rfl, by rw [modifyFirst, if_neg hb, hm]; rfl⟩

theorem sound_mention (h : Sound src s) (id : Bytes) : Sound src (s.noteMention id) :=
  h.congr (map_modifyFirst (f := Thread.mention) (fun _ => rfl) _) rfl rfl

theorem key_accrue (s : TensionStore) (now : Time) (t : Thread) : key (s.accrue now t) = key t := by
  unfold TensionStore.accrue
  dsimp only
  split
  · rfl
  · rfl

theorem sound_tick (h : Sound src s) (now : Time) : Sound src (s.tick now) := by
  refine h.congr ?_ rfl rfl
  change (s.threads.map (s.accrue now)).map key = _
  rw [List.map_map]
  exact List.map_congr_left fun t _ => key_accrue s now t

theorem sound_credit (h : Sound src s) (id : Bytes) (artifact : WorkArtifact) (now : Time) :
    Sound src (s.creditWork id artifact now).1 := by
  unfold TensionStore.creditWork
  split
  · exact h
  split
  · exact h
  split
  · exact h
  · exact h.congr (map_modifyFirst
      (f := fun t : Thread => t.credit s.config s.cycles.cyclesRun artifact now) (fun _ => rfl) _) rfl rfl

theorem sound_recordCycle (h : Sound src s) (now : Time) : Sound src (s.recordCycle now) :=
  h.congr rfl rfl rfl

/-! Opening and retiring. -/

/-- The candidates of a demand that is raised now are live now. -/
theorem raiseTriage_candidates (s : TensionStore) (liveCount : Nat) (now : Time) {d : TriageDemand}
    (hd : (s.raiseTriage liveCount now).triage = some d) :
    ∀ c ∈ d.candidates, c.id ∈ s.live.map Thread.id := by
  obtain rfl := Option.some.inj hd
  intro c hc
  obtain ⟨t, ht, rfl⟩ := List.mem_map.mp hc
  exact List.mem_map_of_mem (List.mem_mergeSort.mp (List.mem_of_mem_take ht))

theorem raiseTriage_raisedAt (s : TensionStore) (liveCount : Nat) (now : Time) :
    raisedAt (s.raiseTriage liveCount now) = some ((raisedAt s).getD now) := by
  unfold raisedAt TensionStore.raiseTriage
  cases s.triage <;> rfl

theorem sound_open (h : Sound src s) (draft : ThreadDraft) (now : Time) :
    Sound src (s.openThread src draft now).1 := by
  unfold TensionStore.openThread
  split
  · exact h.congr (map_modifyFirst (f := Thread.mention) (fun _ => rfl) _) rfl rfl
  next hnone =>
  let t := s.newThread (src.mint (s.threads.map Thread.id)) draft now
  let grown : TensionStore := { s with threads := s.threads ++ [t] }
  have hlive : grown.live = s.live ++ [t] := by
    change (s.threads ++ [t]).filter Thread.isLive = _
    rw [List.filter_append]
    rfl
  have hids : (grown.threads.map Thread.id).Nodup := by
    change ((s.threads ++ [t]).map Thread.id).Nodup
    rw [List.map_append, List.nodup_append]
    refine ⟨h.ids, List.nodup_singleton _, fun a ha b hb hab => ?_⟩
    rw [List.mem_singleton.mp hb] at hab
    exact src.fresh _ (hab ▸ ha)
  have hapart : grown.live.Pairwise (Apart src) := by
    rw [hlive, List.pairwise_append]
    refine ⟨h.apart, List.pairwise_singleton _ _, fun u hu v hv => ?_⟩
    obtain rfl := List.mem_singleton.mp hv
    obtain ⟨hmem, hl⟩ := List.mem_filter.mp hu
    have hno := List.find?_eq_none.mp hnone u hmem
    simp only [TensionStore.sameThread, hl, Bool.true_and, Bool.or_eq_true, decide_eq_true_eq,
      not_or] at hno
    exact hno
  have hcount : grown.liveCount = s.liveCount + 1 := by
    simp [TensionStore.liveCount, hlive]
  change Sound src (if s.config.maxLiveThreads < grown.liveCount then
    (grown.raiseTriage grown.liveCount now, _) else (grown, _)).1
  split
  · next hover =>
    exact ⟨hids, hapart, ⟨fun _ => hover, fun _ => rfl⟩,
      fun d hd => raiseTriage_candidates grown _ now hd⟩
  · next hunder =>
    -- there was no demand below the cap, and there is none now
    have hnone : s.triage.isSome ≠ true := fun hs => by
      have := h.demand.mp hs
      omega
    refine ⟨hids, hapart, ⟨fun hs => absurd hs hnone, fun ho => absurd ho hunder⟩, fun d hd => ?_⟩
    exact absurd (by rw [show s.triage = some d from hd]; rfl) hnone

theorem sound_resolve (h : Sound src s) (id : Bytes) (verdict : ResolutionVerdict) (now : Time) :
    Sound src (s.resolve id verdict now).1 := by
  unfold TensionStore.resolve
  split
  · exact h
  next t ht =>
  split
  · exact h
  next hlive =>
  let f (t : Thread) : Thread := t.retire s.cycles.cyclesRun verdict now
  obtain ⟨as, bs, hs, hm⟩ := modifyFirst_split (f := f) ht
  let retired : TensionStore := s.modify id f
  have hthreads : retired.threads = as ++ f t :: bs := hm
  have hf : ∀ t, (f t).id = t.id ∧ (f t).isLive = false := fun t => by
    obtain ⟨log, hlog⟩ := retire_fields t s.cycles.cyclesRun verdict now
    change (t.retire s.cycles.cyclesRun verdict now).id = t.id ∧
      (t.retire s.cycles.cyclesRun verdict now).isLive = false
    rw [hlog]
    exact ⟨rfl, rfl⟩
  have hl : t.isLive = true := by simpa using hlive
  have hbefore : s.live = as.filter Thread.isLive ++ t :: bs.filter Thread.isLive := by
    simp [TensionStore.live, hs, hl]
  have hafter : retired.live = as.filter Thread.isLive ++ bs.filter Thread.isLive := by
    simp [TensionStore.live, hthreads, (hf t).2]
  have hids : (retired.threads.map Thread.id).Nodup := by
    have := h.ids
    rw [hs] at this
    rw [hthreads]
    simpa [(hf t).1] using this
  have hapart : retired.live.Pairwise (Apart src) := by
    refine h.apart.sublist ?_
    rw [hbefore, hafter]
    exact List.Sublist.append_left (List.sublist_cons_self _ _) _
  have hcount : s.liveCount = retired.liveCount + 1 := by
    simp [TensionStore.liveCount, hbefore, hafter]
    omega
  change Sound src (retired.retakeTriage now)
  unfold TensionStore.retakeTriage
  split
  · next hnone =>
    have hunder : ¬ s.config.maxLiveThreads < s.liveCount := fun ho => by
      have hsome : s.triage.isSome = true := h.demand.mpr ho
      simp [show s.triage = none from Option.isNone_iff_eq_none.mp hnone] at hsome
    have htriage : retired.triage = none := Option.isNone_iff_eq_none.mp hnone
    have hstill : ¬ retired.config.maxLiveThreads < retired.liveCount := fun ho => hunder (by
      have : s.config.maxLiveThreads < retired.liveCount := ho
      omega)
    have hno : retired.triage.isSome ≠ true := fun hs => by simp [htriage] at hs
    refine ⟨hids, hapart, iff_of_false hno hstill, fun d hd => ?_⟩
    · rw [htriage] at hd
      cases hd
  · split
    · next hle =>
      refine ⟨hids, hapart, iff_of_false (by simp) (Nat.not_lt.mpr hle), fun d hd => ?_⟩
      cases hd
    · next hover =>
      exact ⟨hids, hapart, iff_of_true rfl (Nat.lt_of_not_le hover),
        fun d hd => raiseTriage_candidates retired _ now hd⟩

/-! Ingest. -/

/-- A property of stores that opening a thread keeps, ingest keeps. -/
theorem ingest_induction {P : TensionStore → Prop} (stack : PredictionStack) (now : Time) (start : P s)
    (step : ∀ s error, P s →
      (∀ t ∈ s.threads, t.origin ≠ .predictionError error.predictionId) →
      P (s.openThread src (errorDraft src stack error) now).1) :
    P (ingestPredictionErrors src s stack now).store := by
  let keeps (p : Pass) : Prop := P p.store
  refine List.foldlRecOn (motive := keeps) _ _ start fun p hp error _ => ?_
  unfold ingestError
  split
  · exact hp
  split
  · exact hp
  next hnew =>
  change P (p.openOne src now _).store
  rw [openOne_store]
  refine step p.store error hp fun t ht heq => hnew ?_
  exact List.any_eq_true.mpr ⟨t, ht, decide_eq_true heq⟩

theorem sound_ingest (h : Sound src s) (stack : PredictionStack) (now : Time) :
    Sound src (ingestPredictionErrors src s stack now).store :=
  ingest_induction stack now h fun _ error hs _ => sound_open hs (errorDraft src stack error) now

theorem Sound.apply (h : Sound src s) (op : Op) : Sound src (op.apply src s) := by
  cases op with
  | openThread draft now => exact sound_open h draft now
  | noteMention id => exact sound_mention h id
  | tick now => exact sound_tick h now
  | creditWork id artifact now => exact sound_credit h id artifact now
  | resolve id verdict now => exact sound_resolve h id verdict now
  | recordCycle now => exact sound_recordCycle h now
  | ingest stack now => exact sound_ingest h stack now

/-! Origins and the clock. -/

def origins (s : TensionStore) : List ThreadOrigin := s.threads.map Thread.origin

theorem origins_open (draft : ThreadDraft) (now : Time) :
    origins (s.openThread src draft now).1 = origins s ∨
      origins (s.openThread src draft now).1 = origins s ++ [draft.origin] := by
  unfold TensionStore.openThread
  split
  · exact .inl (map_modifyFirst (f := Thread.mention) (fun _ => rfl) _)
  · refine .inr ?_
    dsimp only
    split
    · exact List.map_append
    · exact List.map_append

/-- Ingest appends threads of origins that no thread had. -/
theorem origins_ingest (s : TensionStore) (stack : PredictionStack) (now : Time) :
    ∃ added, origins (ingestPredictionErrors src s stack now).store = origins s ++ added ∧
      added.Nodup ∧ ∀ o ∈ added, o ∉ origins s := by
  let P (store : TensionStore) : Prop :=
    ∃ added, origins store = origins s ++ added ∧ added.Nodup ∧ ∀ o ∈ added, o ∉ origins s
  refine ingest_induction (P := P) stack now ⟨[], by simp, .nil, by simp⟩
    fun store error ⟨added, hstore, hnodup, hnew⟩ hfresh => ?_
  have hno : ThreadOrigin.predictionError error.predictionId ∉ origins store := fun hm => by
    obtain ⟨t, ht, heq⟩ := List.mem_map.mp hm
    exact hfresh t ht heq
  rcases origins_open (s := store) (errorDraft src stack error) now with h | h
  · exact ⟨added, h.trans hstore, hnodup, hnew⟩
  · rw [hstore, List.mem_append, not_or] at hno
    refine ⟨added ++ [.predictionError error.predictionId], ?_, ?_, fun o ho => ?_⟩
    · rw [h, hstore, List.append_assoc]
      rfl
    · exact List.nodup_append.mpr ⟨hnodup, List.nodup_singleton _, fun a ha b hb hab =>
        hno.2 (List.mem_singleton.mp hb ▸ hab ▸ ha)⟩
    · rcases List.mem_append.mp ho with ho | ho
      · exact hnew o ho
      · rw [List.mem_singleton.mp ho]
        exact hno.1

/-- No thread is ever removed. -/
theorem origins_apply (s : TensionStore) (op : Op) :
    ∃ added, origins (op.apply src s) = origins s ++ added := by
  have same {s' : TensionStore} (h : origins s' = origins s) : ∃ added, origins s' = origins s ++ added :=
    ⟨[], by rw [h, List.append_nil]⟩
  cases op with
  | openThread draft now =>
    rcases origins_open (s := s) draft now with h | h
    · exact same h
    · exact ⟨_, h⟩
  | noteMention id => exact same (map_modifyFirst (f := Thread.mention) (fun _ => rfl) _)
  | tick now =>
    refine same ?_
    change (s.threads.map (s.accrue now)).map Thread.origin = _
    rw [List.map_map]
    exact List.map_congr_left fun t _ => congrArg (fun k => k.2.1) (key_accrue s now t)
  | creditWork id artifact now =>
    refine same ?_
    simp only [Op.apply, TensionStore.creditWork]
    split
    · rfl
    split
    · rfl
    split
    · rfl
    · exact map_modifyFirst (f := fun t : Thread => t.credit s.config s.cycles.cyclesRun artifact now)
        (fun _ => rfl) _
  | resolve id verdict now =>
    refine same ?_
    simp only [Op.apply, TensionStore.resolve]
    split
    · rfl
    split
    · rfl
    · unfold origins
      rw [(retakeTriage_threads _ now).1]
      refine map_modifyFirst (fun t => ?_) _
      obtain ⟨log, hlog⟩ := retire_fields t s.cycles.cyclesRun verdict now
      rw [hlog]
  | recordCycle now => exact same rfl
  | ingest stack now =>
    obtain ⟨added, h, -⟩ := origins_ingest s stack now
    exact ⟨added, h⟩

theorem raisedAt_open {raised : Time} (h : raisedAt s = some raised) (draft : ThreadDraft)
    (now : Time) : raisedAt (s.openThread src draft now).1 = some raised := by
  unfold TensionStore.openThread
  split
  · exact h
  · dsimp only
    split
    · rw [raiseTriage_raisedAt]
      change some ((raisedAt s).getD now) = some raised
      rw [h]
      rfl
    · exact h

theorem raisedAt_apply {raised : Time} (h : raisedAt s = some raised) {op : Op}
    (ho : Excess (op.apply src s)) : raisedAt (op.apply src s) = some raised := by
  cases op with
  | openThread draft now => exact raisedAt_open h draft now
  | noteMention id => exact h
  | tick now => exact h
  | creditWork id artifact now =>
    simp only [Op.apply, TensionStore.creditWork]
    split
    · exact h
    split
    · exact h
    split
    · exact h
    · exact h
  | resolve id verdict now =>
    simp only [Op.apply, TensionStore.resolve] at ho ⊢
    split
    · exact h
    next t ht =>
    split
    · exact h
    next hlive =>
    rw [ht] at ho
    simp only [hlive, if_false, Bool.false_eq_true] at ho
    unfold TensionStore.retakeTriage at ho ⊢
    split
    · exact h
    next hsome =>
    rw [if_neg hsome] at ho
    split
    · next hle =>
      rw [if_pos hle] at ho
      exact absurd hle (Nat.not_le.mpr ho)
    · rw [raiseTriage_raisedAt]
      change some ((raisedAt s).getD now) = some raised
      rw [h]
      rfl
  | recordCycle now => exact h
  | ingest stack now =>
    exact ingest_induction (P := fun s => raisedAt s = some raised) stack now h
      fun _ error hs _ => raisedAt_open hs (errorDraft src stack error) now

/-! Runs. -/

variable {sys : Sys} {config : TensionConfig}

/-- The part of the invariant that a step has to keep. -/
structure Sys.Inv (src : Source) (s : Sys) : Prop where
  store : Threads.Sound src s.store
  once : s.ingested.Nodup
  recorded : ∀ o ∈ s.ingested, o ∈ origins s.store

theorem start_inv (src : Source) (config : TensionConfig) : Sys.Inv src ⟨emptyStore config, []⟩ where
  store := ⟨.nil, .nil, by simp [emptyStore, TensionStore.liveCount, TensionStore.live],
    fun d hd => by cases hd⟩
  once := .nil
  recorded := by simp

theorem opened_origins {op : Op} {added : List ThreadOrigin}
    (h : origins (op.apply src s) = origins s ++ added) :
    (op.opened src s).map Thread.origin = added := by
  unfold Op.opened
  rw [List.map_drop]
  change (origins (op.apply src s)).drop _ = added
  rw [h, List.drop_left' (by simp [origins])]

theorem Sys.Inv.step (h : sys.Inv src) (op : Op) : (sys.step src op).Inv src := by
  have hstore := h.store.apply op
  obtain ⟨added, hadded⟩ := origins_apply sys.store op
  have hrecorded : ∀ o ∈ sys.ingested, o ∈ origins (op.apply src sys.store) := fun o ho => by
    rw [hadded]
    exact List.mem_append_left _ (h.recorded o ho)
  cases op with
  | ingest stack now =>
    obtain ⟨added, hadded, hnodup, hnew⟩ := origins_ingest sys.store stack now
    have hopened := @opened_origins _ _ (.ingest stack now) _ hadded
    have hstep : (sys.step src (.ingest stack now)).ingested = sys.ingested ++ added := by
      rw [← hopened]
      rfl
    refine ⟨hstore, ?_, fun o ho => ?_⟩
    · rw [hstep]
      exact List.nodup_append.mpr ⟨h.once, hnodup, fun a ha b hb hab =>
        hnew b hb (hab ▸ h.recorded a ha)⟩
    · rw [hstep, List.mem_append] at ho
      rcases ho with ho | ho
      · exact hrecorded o ho
      · change o ∈ origins (ingestPredictionErrors src sys.store stack now).store
        rw [hadded]
        exact List.mem_append_right _ ho
  | _ => exact ⟨hstore, h.once, hrecorded⟩

/-- The clock of a demand that is outstanding, over operations that leave an excess each. -/
theorem clock_kept {s : TensionStore} {raised : Time} (h : raisedAt s = some raised) (ops : List Op)
    (ho : ∀ early ops', ops = early ++ ops' → Excess (early.foldl (Op.apply src) s)) :
    raisedAt (ops.foldl (Op.apply src) s) = some raised := by
  induction ops generalizing s with
  | nil => exact h
  | cons op ops ih =>
    have hop : Excess (op.apply src s) := ho [op] ops rfl
    exact ih (raisedAt_apply h hop) fun early ops' heq =>
      ho (op :: early) ops' (by rw [heq]; rfl)

end PulseNull.Tension.Threads
