import PulseNull.GraphExtract.Watermark

/-! Nothing missed, nothing paid twice, one extraction at a time: every step keeps it. -/
namespace PulseNull.GraphExtract

section
variable {s s' : Sys} {since top : Nat} {life : Life}

/-! The steps of a life. -/

private theorem mem_held {w : Worker} {n : Nat} (hw : w ∈ life.workers) (hn : n ∈ w.held) :
    n ∈ life.held := List.mem_filterMap.mpr ⟨w, hw, hn⟩

theorem Sys.Alive.pushed {n : Nat} {start : Bool} (h : s.Alive life) (hn : n ∈ s.archives)
    (hp : n ∉ life.queue.pending)
    (hm : (∀ m ∈ s.archives, s.After m → m < n → s.Settled m) ∧
      n ∉ life.queue.backlog ∧ n ∉ life.held ∧ n ∉ s.handed)
    (g : s.Grows s') (ha : s'.archives = s.archives) (hq : s'.queued = s.queued ++ [n])
    (hh : s'.handed = s.handed) :
    s'.Alive { life with
      queue := { life.queue with pending := life.queue.pending ++ [n], running := true }
      enqueues := life.enqueues ++ [(n, start)]
      queued := life.queued ++ [n] } where
  queues := by
    obtain ⟨-, hback, -, hhanded⟩ := hm
    have hq' := h.queues.grows g hh
    exact {
      booted := hq'.booted
      newest := hq'.newest
      known := fun m hmem => by
        rcases List.mem_append.mp hmem with hmem | hmem
        · exact hq'.known m hmem
        · exact hq ▸ List.mem_append_right _ hmem
      paid := fun m hmem => (hq'.paid m hmem).imp_right fun hmem => List.mem_append_left _ hmem
      unpaid := fun m hmem => by
        rcases List.mem_append.mp hmem with hmem | hmem
        · exact ⟨List.mem_append_left _ (hq'.unpaid m hmem).1, (hq'.unpaid m hmem).2⟩
        · refine ⟨List.mem_append_right _ hmem, ?_⟩
          rw [List.mem_singleton.mp hmem, hh]
          exact hhanded
      nodup := by
        refine List.nodup_append.mpr ⟨hq'.nodup, List.nodup_singleton n, ?_⟩
        rintro m hmem _ hmem' rfl
        exact hp (List.mem_singleton.mp hmem' ▸ hmem)
      waiting := fun m hmem => by
        refine ⟨fun hmem' => ?_, (hq'.waiting m hmem).2⟩
        rcases List.mem_append.mp hmem' with hmem' | hmem'
        · exact (hq'.waiting m hmem).1 hmem'
        · exact hback (List.mem_singleton.mp hmem' ▸ hmem) }
  enqueues call hc := by
    rcases List.mem_append.mp hc with hc | hc
    · exact (h.enqueues call hc).grows g
    · obtain rfl := List.mem_singleton.mp hc
      refine ⟨.inl (ha ▸ hn), fun m hmem hafter hle => ?_⟩
      rcases Nat.eq_or_lt_of_le hle with rfl | hlt
      · exact .inl (hq ▸ List.mem_append_right _ (List.mem_singleton_self _))
      · exact g.settled (hm.1 m (ha ▸ hmem) (g.after hafter) hlt)
  workers w hw := by
    have hok := (h.workers w hw).grows g hh
    refine ⟨fun m hmem => ?_, hok.raised⟩
    obtain ⟨hqueued, hpending, hrest⟩ := hok.held m hmem
    refine ⟨List.mem_append_left _ hqueued, fun hmem' => ?_, hrest⟩
    rcases List.mem_append.mp hmem' with hmem' | hmem'
    · exact hpending hmem'
    · exact hm.2.2.1 (List.mem_singleton.mp hmem' ▸ mem_held hw hmem)
  catchUp := h.catchUp.grows g h.queues.booted h.queues.newest

/-- A refill moves the oldest of the backlog. -/
theorem Sys.Alive.refilled (h : s.Alive life) : ∃ used rest, life.queue.backlog = used ++ rest ∧
    life.refilled = ⟨life.queue.pending ++ used, rest, used⟩ := by
  obtain ⟨used, rest, hback, heq⟩ := refill_eq [] (h.catchUp.increasing.imp Nat.ne_of_lt)
    fun n hn => (h.queues.waiting n hn).1
  exact ⟨used, rest, hback, heq⟩

theorem Sys.Alive.took {n : Nat} {pending : List Nat} {workers : List Worker} (h : s.Alive life)
    (hp : life.refilled.pending = n :: pending)
    (hworkers : workers = [.raising n life.refilled.raised]) (g : s.Grows s') (ha : s'.archives = s.archives)
    (hq : s'.queued = s.queued ++ life.refilled.moved) (hh : s'.handed = s.handed) :
    s'.Alive { life with
      queue := { life.queue with pending := pending, backlog := life.refilled.backlog }
      workers := workers
      queued := life.queued ++ life.refilled.moved } := by
  obtain ⟨used, rest, hback, heq⟩ := h.refilled
  have hinc := h.catchUp.increasing
  have hqueues := h.queues
  have hcatch := h.catchUp
  rw [heq] at hp hq hworkers
  rw [hback] at hqueues hcatch hinc
  have hqueues' := hqueues.queue (hinc.imp Nat.ne_of_lt) g hq hh
  obtain ⟨hcatch', hraised⟩ := hcatch.queue g ha hq hqueues.booted hqueues.newest
  dsimp only at hp
  rw [hp] at hqueues'
  rw [heq]
  refine ⟨hqueues'.tail, fun call hc => (h.enqueues call hc).grows g, fun w hw => ?_, hcatch'⟩
  obtain rfl := List.mem_singleton.mp (hworkers ▸ hw)
  constructor
  · intro m hm
    obtain rfl : n = m := Option.some.inj hm
    obtain ⟨hqueued, hhanded⟩ := hqueues'.unpaid n List.mem_cons_self
    exact ⟨hqueued, (List.nodup_cons.mp hqueues'.nodup).1,
      fun hmem => (hqueues'.waiting n hmem).1 List.mem_cons_self, hhanded⟩
  · rintro m raised ⟨⟩ r hr
    exact hraised r hr

theorem Sys.Alive.ended {workers : List Worker} (h : s.Alive life)
    (hp : life.refilled.pending = []) (hworkers : workers = []) (g : s.Grows s')
    (ha : s'.archives = s.archives) (hq : s'.queued = s.queued ++ life.refilled.moved)
    (hh : s'.handed = s.handed) :
    s'.Alive { life with
      queue := { life.queue with pending := [], backlog := life.refilled.backlog, running := false }
      workers := workers
      queued := life.queued ++ life.refilled.moved } := by
  obtain ⟨used, rest, hback, heq⟩ := h.refilled
  have hinc := h.catchUp.increasing
  have hqueues := h.queues
  have hcatch := h.catchUp
  rw [heq] at hp hq
  rw [hback] at hqueues hcatch hinc
  have hqueues' := hqueues.queue (hinc.imp Nat.ne_of_lt) g hq hh
  obtain ⟨hcatch', -⟩ := hcatch.queue g ha hq hqueues.booted hqueues.newest
  dsimp only at hp
  rw [hp] at hqueues'
  rw [heq]
  exact ⟨hqueues', fun call hc => (h.enqueues call hc).grows g, by simp [hworkers], hcatch'⟩

theorem Sys.Alive.admits {logs : List Nat} {start running : Bool} (h : s.Alive life)
    (hc : life.catchUp = .found logs)
    (hm : ∀ n ∈ logs, n ∈ life.queued → n ∉ life.held ∧ n ∉ s.handed) (g : s.Grows s')
    (ha : s'.archives = s.archives) (hq : s'.queued = s.queued ++ (life.admitted logs).moved)
    (hh : s'.handed = s.handed) :
    s'.Alive { life with
      queue := { life.queue with
        catchingUp := false
        pending := (life.admitted logs).pending
        backlog := (life.admitted logs).backlog
        running := running }
      catchUp := .raising (life.admitted logs).raised start
      queued := life.queued ++ (life.admitted logs).moved } := by
  have hcatch := h.catchUp
  rw [hc] at hcatch
  obtain ⟨hback, hwaits⟩ := hcatch
  have hnodup : ([] ++ logs).Nodup := hwaits.increasing.imp Nat.ne_of_lt
  have hadd : addBacklog life.queue.pending life.queue.backlog logs =
      logs.filter (· ∉ life.queue.pending) := by
    rw [hback, addBacklog_eq hnodup, List.nil_append]
  have hfresh := hwaits.fresh fun n hn => h.queues.known n (h.queues.unpaid n hn).1
  have hout : ∀ n ∈ logs.filter (· ∉ life.queue.pending), n ∉ life.queue.pending := by
    intro n hn
    simpa using (List.mem_filter.mp hn).2
  obtain ⟨used, rest, hsplit, heq⟩ := refill_eq []
    (hfresh.increasing.imp Nat.ne_of_lt) hout
  have hadmits : life.admitted logs = ⟨life.queue.pending ++ used, rest, used⟩ := by
    unfold Life.admitted
    rw [hadd, heq, List.nil_append]
  -- What the catch-up found is not with a worker, nor with the backend.
  have hfree : ∀ n ∈ used ++ rest, (n ∈ life.queued → n ∉ life.held) ∧ n ∉ s.handed := by
    intro n hn
    have hlog : n ∈ logs := by
      rw [← hsplit] at hn
      exact List.mem_of_mem_filter hn
    refine ⟨fun hqueued => (hm n hlog hqueued).1, fun hhanded => ?_⟩
    rcases h.queues.paid n hhanded with hle | hqueued
    · exact absurd (hwaits.written n hlog).2 (Nat.not_lt.mpr hle)
    · exact (hm n hlog hqueued).2 hhanded
  have hqueues : s.Queues life.since life.top life.queued life.queue.pending (used ++ rest) :=
    { h.queues with
      waiting := fun n hn => ⟨hout n (hsplit ▸ hn), (hfree n hn).2⟩ }
  rw [hsplit] at hfresh
  rw [hadmits] at hq ⊢
  have hrest : (used ++ rest).Nodup := hfresh.increasing.imp Nat.ne_of_lt
  obtain ⟨hwaits', hraised⟩ := hfresh.queue g ha hq
  refine ⟨hqueues.queue hrest g hq hh, fun call hc => (h.enqueues call hc).grows g, fun w hw => ?_,
    hwaits', hraised⟩
  have hok := (h.workers w hw).grows g hh
  refine ⟨fun n hn => ?_, hok.raised⟩
  obtain ⟨hqueued, hpending, -, hhanded⟩ := hok.held n hn
  refine ⟨List.mem_append_left _ hqueued, fun hmem => ?_, fun hmem => ?_, hhanded⟩
  · rcases List.mem_append.mp hmem with hmem | hmem
    · exact hpending hmem
    · exact (hfree n (List.mem_append_left _ hmem)).1 hqueued (mem_held hw hn)
  · exact (hfree n (List.mem_append_right _ hmem)).1 hqueued (mem_held hw hn)

theorem Sys.Alive.handOut {n : Nat} {today : Day} {workers : List Worker} (h : s.Alive life)
    (hn : .chosen n ∈ life.workers) (hworkers : workers = [.extracting n today]) (g : s.Grows s')
    (hh : s'.handed = s.handed ++ [n]) : s'.Alive { life with workers := workers } := by
  obtain ⟨hqueued, hpending, hback, -⟩ := (h.workers (.chosen n) hn).held n rfl
  have hout : ∀ m, m ∉ s.handed → m ≠ n → m ∉ s'.handed := by
    intro m hm hne hmem
    rw [hh, List.mem_append, List.mem_singleton] at hmem
    exact hmem.elim hm hne
  refine ⟨?_, fun call hc => (h.enqueues call hc).grows g, fun w hw' => ?_,
    h.catchUp.grows g h.queues.booted h.queues.newest⟩
  · exact {
      booted := h.queues.booted.grows g
      newest := h.queues.newest.imp_right g.mem
      known := fun m hm => g.queued (h.queues.known m hm)
      paid := fun m hm => by
        rw [hh, List.mem_append, List.mem_singleton] at hm
        rcases hm with hm | rfl
        · exact h.queues.paid m hm
        · exact .inr hqueued
      unpaid := fun m hm => ⟨(h.queues.unpaid m hm).1,
        hout m (h.queues.unpaid m hm).2 fun he => hpending (he ▸ hm)⟩
      nodup := h.queues.nodup
      waiting := fun m hm => ⟨(h.queues.waiting m hm).1,
        hout m (h.queues.waiting m hm).2 fun he => hback (he ▸ hm)⟩ }
  · obtain rfl := List.mem_singleton.mp (hworkers ▸ hw')
    exact .of_free rfl

theorem Sys.Alive.scan {w : Nat} (h : s.Alive life) (hc : life.catchUp = .scanning w)
    (hinc : s.archives.Pairwise (· < ·)) (g : s.Grows s') (hh : s'.handed = s.handed)
    (ha : s'.archives = s.archives) :
    s'.Alive { life with catchUp := .asking (s.archives.filter (w < ·)) } := by
  have hcatch := h.catchUp
  rw [hc] at hcatch
  obtain ⟨hback, rfl⟩ := hcatch
  have h' := h.grows g hh
  refine ⟨h'.queues, h'.enqueues, h'.workers, hback, hinc.filter _, fun n hn => ?_,
    fun m hm hlt => .inl ?_⟩
  · simpa [ha] using List.mem_filter.mp hn
  · simpa [← ha, hlt] using hm

theorem Sys.Alive.answer {candidates : List Nat} {pending : Option (List Nat)} (h : s.Alive life)
    (hc : life.catchUp = .asking candidates)
    (hm : ∀ n ∈ candidates, s.After n → s.Settled n ∨ n ∈ listed candidates pending)
    (g : s.Grows s') (hh : s'.handed = s.handed) :
    s'.Alive { life with catchUp := .found (listed candidates pending) } := by
  have hcatch := h.catchUp
  rw [hc] at hcatch
  obtain ⟨hback, hscan⟩ := hcatch
  have hsub : (listed candidates pending).Sublist candidates := by
    cases pending with
    | none => exact .refl _
    | some pending => exact List.filter_sublist
  have h' := h.grows g hh
  refine ⟨h'.queues, h'.enqueues, h'.workers, hback,
    Sys.Waits.grows ?_ g h.queues.booted h.queues.newest⟩
  refine ⟨hscan.increasing.sublist hsub, fun n hn => hscan.written n (hsub.subset hn),
    fun n hn m hm' ha hlt => ?_, fun m hm' ha hle => ?_⟩
  · rcases Nat.lt_or_ge life.since m with hsince | hsince
    · rcases hscan.rest m hm' hsince with hcand | ⟨-, habove⟩
      · exact hm m hcand ha
      · exact absurd (habove n (hsub.subset hn)) (Nat.lt_asymm hlt)
    · exact .inl (h.queues.booted.settled m hm' ha hsince)
  · rcases Nat.lt_or_ge life.since m with hsince | hsince
    · rcases hscan.rest m hm' hsince with hcand | ⟨habove, -⟩
      · exact hm m hcand ha
      · exact absurd habove (Nat.not_lt.mpr hle)
    · exact .inl (h.queues.booted.settled m hm' ha hsince)

/-! The steps of the system. -/

theorem Sys.Inv.raise {l : LedgerState} {n : Nat} (h : ∀ w ∈ l.watermark, s.UpTo w)
    (hn : s.UpTo n) : ∀ w ∈ (l.raiseWatermark n).watermark, s.UpTo w := by
  intro w hw
  obtain ⟨v, hv, -, -, hcases⟩ := raiseWatermark_cases l n
  obtain rfl : v = w := Option.some.inj (hv.symm.trans hw)
  rcases hcases with rfl | hold
  · exact hn
  · exact h v hold

theorem Sys.Inv.raiseTo {l : LedgerState} {raised : Option Nat} (h : ∀ w ∈ l.watermark, s.UpTo w)
    (hr : ∀ r ∈ raised, s.UpTo r) : ∀ w ∈ (raiseTo l raised).watermark, s.UpTo w := by
  cases raised with
  | none => exact h
  | some r => exact Sys.Inv.raise h (hr r rfl)

theorem highest_cases {archives : List Nat} (h : archives.Pairwise (· < ·)) :
    (archives = [] ∨ highest archives ∈ archives) ∧ ∀ m ∈ archives, m ≤ highest archives := by
  unfold highest
  rcases List.eq_nil_or_concat archives with rfl | ⟨init, last, rfl⟩
  · simp
  · rw [List.concat_eq_append] at h ⊢
    have hlast : (init ++ [last]).getLast?.getD 0 = last := by simp
    rw [hlast]
    refine ⟨.inr (by simp), fun m hm => ?_⟩
    rcases List.mem_append.mp hm with hm | hm
    · exact ((List.pairwise_append.mp h).2.2 m hm last (List.mem_singleton_self _)).le
    · exact (List.mem_singleton.mp hm).le

/-- A life begins with an empty queue. -/
theorem Sys.Alive.new (h : s.UpTo since) (hnewest : top ≤ since ∨ top ∈ s.archives)
    (hpaid : ∀ n ∈ s.handed, n ≤ since) {scan : Bool} (hscan : scan = false → top ≤ since) :
    s.Alive (.new since top scan) where
  queues := {
    booted := h
    newest := hnewest
    known := fun _ hn => nomatch hn
    paid := fun n hn => .inl (hpaid n hn)
    unpaid := fun _ hn => nomatch hn
    nodup := .nil
    waiting := fun _ hn => nomatch hn }
  enqueues _ hc := nomatch hc
  workers _ hw := nomatch hw
  catchUp := by
    cases scan with
    | true => exact ⟨rfl, rfl⟩
    | false =>
      exact ⟨.nil, (fun _ hn => nomatch hn), (fun _ hn => nomatch hn),
        fun m hm ha hle => .inl (h.settled m hm ha (hle.trans (hscan rfl)))⟩

/-- A step that keeps the books, and ends in a life. -/
private theorem Sys.Inv.living {limit : Nat} {act : Act} (h : s.Inv) (hs : Step limit s act s')
    (hl : s'.life = some life) (ha : s'.archives = s.archives) (hf : s'.first = s.first)
    (hq : s.queued ⊆ s'.queued) (hr : s.refused ⊆ s'.refused) (hh : s'.handed.Nodup)
    (hw : (∀ w ∈ s.ledger.watermark, s'.UpTo w) → ∀ w ∈ s'.ledger.watermark, s'.UpTo w)
    (halive : s.Grows s' → s'.Alive life) : s'.Inv where
  one := hs.oneWorker h.one
  increasing := ha ▸ h.increasing
  watermark := hw fun w hw => (h.watermark w hw).grows (.same ha hf hq hr)
  down hn := nomatch hl.symm.trans hn
  handed := hh
  alive life' hl' := by
    obtain rfl : life = life' := Option.some.inj (hl.symm.trans hl')
    exact halive (.same ha hf hq hr)

private theorem mem_startWorker {start : Bool} {workers : List Worker} {w : Worker}
    (h : w ∈ startWorker start workers) : w ∈ workers ∨ w = .ready := by
  unfold startWorker at h
  split at h
  · simpa using h
  · exact .inl h

/-- Every step that meets the condition keeps the invariant. -/
theorem Sys.Inv.step {limit : Nat} {act : Act} (h : s.Inv) (hm : s.Meets act)
    (hs : Step limit s act s') : s'.Inv := by
  have hstep := hs
  cases hs with
  | idle => exact h
  | @write n hn =>
    have g : s.Grows { s with archives := s.archives ++ [n] } :=
      ⟨⟨[n], rfl, by simpa using hn⟩, rfl, fun _ h => h, fun _ h => h⟩
    exact {
      one := h.one
      increasing := List.pairwise_append.mpr ⟨h.increasing, List.pairwise_singleton _ _,
        fun m hm k hk => List.mem_singleton.mp hk ▸ hn m hm⟩
      watermark := fun w hw => (h.watermark w hw).grows g
      down := h.down
      handed := h.handed
      alive := fun life hl => (h.alive life hl).grows g rfl }
  | firstBoot hl hw =>
    have hpaid : ∀ n ∈ s.handed, False := fun n hn => by
      obtain ⟨w, hw', -⟩ := h.down hl n hn
      exact nomatch hw.symm.trans hw'
    refine ⟨hstep.oneWorker h.one, h.increasing, ?_, (fun hn => nomatch hn), h.handed, ?_⟩
    · refine Sys.Inv.raise (fun w hw' => nomatch hw.symm.trans hw') ?_
      exact .first rfl
    · rintro life ⟨⟩
      refine .new ?_ (.inl le_rfl) (fun n hn => ?_) fun _ => le_rfl
      · exact .first rfl
      · exact (hpaid n hn).elim
  | @boot w hl hw =>
    have g : s.Grows { s with
        life := some (.new w (highest s.archives) (decide (w < highest s.archives))) } :=
      .same rfl rfl (fun _ h => h) fun _ h => h
    refine ⟨hstep.oneWorker h.one, h.increasing, fun w hw => (h.watermark w hw).grows g,
      (fun hn => nomatch hn), h.handed, ?_⟩
    rintro life ⟨⟩
    refine .new ((h.watermark w hw).grows g) ?_ (fun n hn => ?_) fun hscan => by simpa using hscan
    · rcases (highest_cases h.increasing).1 with hnil | hmem
      · rw [hnil]
        exact .inl (Nat.zero_le _)
      · exact .inr hmem
    · obtain ⟨w', hw', hle⟩ := h.down hl n hn
      obtain rfl : w = w' := Option.some.inj (hw.symm.trans hw')
      exact hle
  | @refused life n hl =>
    have g : s.Grows { s with refused := s.refused ++ [n] } :=
      .same rfl rfl (fun _ h => h) (List.subset_append_left _ _)
    exact {
      one := h.one
      increasing := h.increasing
      watermark := fun w hw => (h.watermark w hw).grows g
      down := h.down
      handed := h.handed
      alive := fun life hl => (h.alive life hl).grows g rfl }
  | @pushed life n hl hn hp hroom =>
    exact h.living hstep rfl rfl rfl (List.subset_append_left _ _) (List.Subset.refl _) h.handed id
      fun g => (h.alive life hl).pushed hn hp (hm life hl hp hroom) g rfl rfl rfl
  | @enqueued life call hl hc =>
    have hup := (h.alive life hl).enqueues call hc
    have g : ∀ s', s'.archives = s.archives → s'.first = s.first → s'.queued = s.queued →
        s'.refused = s.refused → s.Grows s' := by
      intro s' ha hf hq hr
      exact .same ha hf (hq ▸ List.Subset.refl _) (hr ▸ List.Subset.refl _)
    refine h.living hstep rfl rfl rfl (List.Subset.refl _) (List.Subset.refl _) h.handed
      (fun hw => Sys.Inv.raise hw (hup.grows (g _ rfl rfl rfl rfl))) fun g => ?_
    have halive := (h.alive life hl).grows g rfl
    refine ⟨halive.queues, fun call hc => halive.enqueues call (List.mem_of_mem_erase hc),
      fun w hw => ?_, halive.catchUp⟩
    rcases mem_startWorker hw with hw | rfl
    · exact halive.workers w hw
    · exact .of_free rfl
  | @scan life w hl hc =>
    exact h.living hstep rfl rfl rfl (List.Subset.refl _) (List.Subset.refl _) h.handed id
      fun g => (h.alive life hl).scan hc h.increasing g rfl rfl
  | @answer life candidates pending hl hc =>
    have hlisted : life.MeetsAnswer s pending := hm life hl
    unfold Life.MeetsAnswer at hlisted
    rw [hc] at hlisted
    exact h.living hstep rfl rfl rfl (List.Subset.refl _) (List.Subset.refl _) h.handed id
      fun g => (h.alive life hl).answer hc hlisted g rfl
  | @admits life logs hl hc =>
    have hfree : life.MeetsAdmit s := hm life hl
    unfold Life.MeetsAdmit at hfree
    rw [hc] at hfree
    exact h.living hstep rfl rfl rfl (List.subset_append_left _ _) (List.Subset.refl _) h.handed id
      fun g => (h.alive life hl).admits hc hfree g rfl rfl rfl
  | @caughtUp life raised start hl hc =>
    have hcatch := (h.alive life hl).catchUp
    rw [hc] at hcatch
    refine h.living hstep rfl rfl rfl (List.Subset.refl _) (List.Subset.refl _) h.handed
      (fun hw => Sys.Inv.raiseTo hw fun r hr => (hcatch.2 r hr).grows ?_) fun g => ?_
    · exact .same rfl rfl (List.Subset.refl _) (List.Subset.refl _)
    have halive := (h.alive life hl).grows g rfl
    have hcatch' := halive.catchUp
    rw [hc] at hcatch'
    refine ⟨halive.queues, halive.enqueues, fun w hw => ?_, hcatch'.1⟩
    rcases mem_startWorker hw with hw | rfl
    · exact halive.workers w hw
    · exact .of_free rfl
  | @took life i n pending hl hi hp =>
    obtain ⟨rfl, hworkers, -⟩ := (h.one life hl).single hi
    exact h.living hstep rfl rfl rfl (List.subset_append_left _ _) (List.Subset.refl _) h.handed id
      fun g => (h.alive life hl).took hp (by rw [hworkers, List.set_cons_zero]) g rfl rfl rfl
  | @ended life i hl hi hp =>
    obtain ⟨rfl, hworkers, -⟩ := (h.one life hl).single hi
    exact h.living hstep rfl rfl rfl (List.subset_append_left _ _) (List.Subset.refl _) h.handed id
      fun g => (h.alive life hl).ended hp (by rw [hworkers]; rfl) g rfl rfl rfl
  | @chosen life i n raised hl hi =>
    obtain ⟨rfl, hworkers, -⟩ := (h.one life hl).single hi
    have hok := (h.alive life hl).workers (.raising n raised) (by simp [hworkers])
    refine h.living hstep rfl rfl rfl (List.Subset.refl _) (List.Subset.refl _) h.handed
      (fun hw => Sys.Inv.raiseTo hw fun r hr => (hok.raised n raised rfl r hr).grows ?_) fun g => ?_
    · exact .same rfl rfl (List.Subset.refl _) (List.Subset.refl _)
    have halive := (h.alive life hl).grows g rfl
    refine ⟨halive.queues, halive.enqueues, fun w hw => ?_, halive.catchUp⟩
    rw [hworkers] at hw
    obtain rfl := List.mem_singleton.mp hw
    refine ⟨fun m hmem => hok.held m hmem, fun _ _ he => nomatch he⟩
  | @skipped life i n isolated noted hl hi =>
    obtain ⟨rfl, hworkers, -⟩ := (h.one life hl).single hi
    refine h.living hstep rfl rfl rfl (List.Subset.refl _) (List.Subset.refl _) h.handed id
      fun g => ?_
    have halive := (h.alive life hl).grows g rfl
    refine ⟨halive.queues, halive.enqueues, fun w hw => ?_, halive.catchUp⟩
    rw [hworkers] at hw
    obtain rfl := List.mem_singleton.mp hw
    exact .of_free rfl
  | @handed life i n isolated hl hi =>
    obtain ⟨rfl, hworkers, -⟩ := (h.one life hl).single hi
    have hn : .chosen n ∈ life.workers := by simp [hworkers]
    obtain ⟨-, -, -, hfresh⟩ := ((h.alive life hl).workers (.chosen n) hn).held n rfl
    have hnodup : (s.handed ++ [n]).Nodup := by
      refine List.nodup_append.mpr ⟨h.handed, List.nodup_singleton n, ?_⟩
      rintro m hmem _ hmem' rfl
      exact hfresh (List.mem_singleton.mp hmem' ▸ hmem)
    exact h.living hstep rfl rfl rfl (List.Subset.refl _) (List.Subset.refl _) hnodup id
      fun g => (h.alive life hl).handOut hn (by rw [hworkers, List.set_cons_zero]) g rfl
  | @finish life i n day outcome tokens ledger failures paused hl hi hw =>
    obtain ⟨rfl, hworkers, -⟩ := (h.one life hl).single hi
    refine h.living hstep rfl rfl rfl (List.Subset.refl _) (List.Subset.refl _) h.handed
      (fun hup w hw' => hup w (hw ▸ hw')) fun g => ?_
    have halive := (h.alive life hl).grows g rfl
    refine ⟨halive.queues, halive.enqueues, fun w hw => ?_, halive.catchUp⟩
    rw [hworkers] at hw
    obtain rfl := List.mem_singleton.mp hw
    exact .of_free rfl
  | @panic life i hl hi =>
    refine h.living hstep rfl rfl rfl (List.Subset.refl _) (List.Subset.refl _) h.handed id
      fun g => ?_
    have halive := (h.alive life hl).grows g rfl
    exact ⟨halive.queues, halive.enqueues,
      fun w hw => halive.workers w (List.mem_of_mem_eraseIdx hw), halive.catchUp⟩
  | @day today =>
    have g : s.Grows { s with today := today } := .same rfl rfl (fun _ h => h) fun _ h => h
    exact {
      one := h.one
      increasing := h.increasing
      watermark := fun w hw => (h.watermark w hw).grows g
      down := h.down
      handed := h.handed
      alive := fun life hl => (h.alive life hl).grows g rfl }
  | crash =>
    have g : s.Grows { s with life := none } := .same rfl rfl (fun _ h => h) fun _ h => h
    refine ⟨(fun _ hl => nomatch hl), h.increasing, fun w hw => (h.watermark w hw).grows g,
      fun _ n hn => ?_, h.handed, (fun _ hl => nomatch hl)⟩
    obtain ⟨w, hw, hle⟩ := (Option.any_eq_true _ _).mp (hm n hn)
    exact ⟨w, hw, of_decide_eq_true hle⟩

theorem Sys.Inv.start (today : Day) : (Sys.start today).Inv where
  one _ hl := nomatch hl
  increasing := .nil
  watermark _ hw := nomatch hw
  down _ _ hn := nomatch hn
  handed := .nil
  alive _ hl := nomatch hl

theorem Sys.Inv.sound (h : s.Inv) : s.Sound where
  kept _ w hw n hn ha hle := (h.watermark w hw).settled n hn ha hle
  caughtUp life hl hidle hback n hn ha hle := by
    have hcatch := (h.alive life hl).catchUp
    rw [hidle, hback] at hcatch
    exact (Sys.Waits.top hcatch n hn ha hle).resolve_right List.not_mem_nil
  once := h.handed
  alone life hl := by
    have hone := h.one life hl
    have hrunning := Bool.toNat_le life.queue.running
    unfold Life.OneWorker at hone
    exact List.countP_le_length.trans (by omega)

end

/-- In every run whose steps meet the condition nothing is missed, nothing is paid twice, and one
extraction runs at a time. -/
theorem extraction_sound {limit : Nat} {today : Day} {s : Sys}
    (h : (extraction limit today).Runs Sys.Meets s) : s.Sound :=
  (h.invariant (I := Sys.Inv) (.start today) fun s act hinv hm =>
    hinv.step hm (step_cases limit s act)).sound

/-- What the worker does with one archive. -/
def sampleJob : List Act := [.nextJob 0, .chosen 0, .process 0 false, .finish 0 .extracted 10]

/-- One archive is queued as it lands; two land while the process stops, and are queued at the next
boot. -/
def sampleRun : List Act :=
  [.boot, .write 1, .enqueue 1, .enqueued (1, true)] ++ sampleJob ++ [.nextJob 0, .write 2, .write 3,
    .crash, .boot, .scan, .answer (some [2, 3]), .admits, .caughtUp] ++ sampleJob ++ sampleJob

theorem extraction_sound_sample : ∃ s, (extraction 0 0).Runs Sys.Meets s ∧ s.Sound ∧
    s.handed = [1, 2, 3] ∧ s.ledger.watermark = some 3 := by
  have hrun : ((extraction 0 0).follow (fun s act => decide (s.Meets act)) (Sys.start 0)
      sampleRun).map (fun s => (s.handed, s.ledger.watermark)) = some ([1, 2, 3], some 3) := by
    decide +kernel
  obtain ⟨s, hs, hend⟩ := Option.map_eq_some_iff.mp hrun
  obtain ⟨hhanded, hmark⟩ := Prod.mk.inj hend
  have hruns : (extraction 0 0).Runs Sys.Meets s :=
    .follow (fun _ _ hc => of_decide_eq_true hc) .start hs
  exact ⟨s, hruns, extraction_sound hruns, hhanded, hmark⟩

/-- An archive lands while the process stops; the next one is queued before the catch-up, and the
process stops again. -/
def overtakenRun : List Act :=
  [.boot, .write 1, .crash, .boot, .write 2, .enqueue 2, .enqueued (2, true), .crash]

/-- The first archive is below the watermark, and has never been queued. -/
theorem overtaken_is_missed : ¬∀ limit today s,
    (extraction limit today).Runs (fun _ _ => True) s → s.Sound := by
  intro hclaim
  have hrun : ((extraction 0 0).follow (fun _ _ => true) (Sys.start 0) overtakenRun).map
      (fun s => (s.life.isNone, s.ledger.watermark, s.archives, s.first, s.queued ++ s.refused)) =
      some (true, some 2, [1, 2], some 0, [2]) := by
    decide +kernel
  obtain ⟨s, hs, hend⟩ := Option.map_eq_some_iff.mp hrun
  simp only [Prod.mk.injEq] at hend
  obtain ⟨hlife, hmark, harchives, hfirst, hsettled⟩ := hend
  have hset := (hclaim 0 0 s (.follow (fun _ _ _ => trivial) .start hs)).kept
    (Option.isNone_iff_eq_none.mp hlife) 2 hmark 1 (by simp [harchives])
    (by simp [Sys.After, hfirst]) (by decide)
  have hmem : 1 ∈ s.queued ++ s.refused := List.mem_append.mpr hset
  rw [hsettled] at hmem
  exact absurd hmem (by decide)

end PulseNull.GraphExtract
