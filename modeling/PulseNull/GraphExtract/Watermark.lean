import PulseNull.Machine
import PulseNull.GraphExtract.OneWorker

/-! What extraction has to keep: what lies at or below the watermark has been in the queue, and what
waits to go in has not been handed to the backend. -/
namespace PulseNull.GraphExtract

def Worker.held : Worker → Option Nat
  | .raising n _ | .chosen n => some n
  | .ready | .extracting _ _ => none

/-- The archives workers have taken and not handed on. -/
def Life.held (life : Life) : List Nat := life.workers.filterMap Worker.held

def Worker.isExtracting : Worker → Bool
  | .extracting _ _ => true
  | _ => false

/-- Put in the queue, or refused as it was full. -/
def Sys.Settled (s : Sys) (n : Nat) : Prop := n ∈ s.queued ∨ n ∈ s.refused

/-- Written after the first boot set the watermark. -/
def Sys.After (s : Sys) (n : Nat) : Prop := ∀ f ∈ s.first, f < n

instance (s : Sys) (n : Nat) : Decidable (s.Settled n) := inferInstanceAs (Decidable (_ ∨ _))

instance (s : Sys) (n : Nat) : Decidable (s.After n) :=
  inferInstanceAs (Decidable (∀ f ∈ s.first, f < n))

/-- Once the process is down, what has not been queued is above the watermark, for the next boot to
find; when a catch-up is through, all that was there at its boot has been queued. No archive is
handed to the backend twice, and one extraction runs at a time. -/
structure Sys.Sound (s : Sys) : Prop where
  kept : s.life = none → ∀ w ∈ s.ledger.watermark, ∀ n ∈ s.archives, s.After n → n ≤ w → s.Settled n
  caughtUp : ∀ life ∈ s.life, life.catchUp = .idle → life.queue.backlog = [] →
    ∀ n ∈ s.archives, s.After n → n ≤ life.top → s.Settled n
  once : s.handed.Nodup
  alone : ∀ life ∈ s.life, life.workers.countP Worker.isExtracting ≤ 1

/-- A live enqueue overtakes no archive that has not been queued, and is not of one that waits in the
backlog, or is with the worker or the backend. -/
def Life.MeetsEnqueue (s : Sys) (life : Life) (n : Nat) : Prop :=
  n ∉ life.queue.pending → life.queue.pending.length < maxQueued →
    (∀ m ∈ s.archives, s.After m → m < n → s.Settled m) ∧
      n ∉ life.queue.backlog ∧ n ∉ life.held ∧ n ∉ s.handed

/-- The store lists what has not been queued. -/
def Life.MeetsAnswer (s : Sys) (life : Life) (pending : Option (List Nat)) : Prop :=
  match life.catchUp with
  | .asking candidates => ∀ n ∈ candidates, s.After n → s.Settled n ∨ n ∈ listed candidates pending
  | _ => True

/-- What a live enqueue has queued meanwhile of what the catch-up found is still in the queue, or has
been skipped. -/
def Life.MeetsAdmit (s : Sys) (life : Life) : Prop :=
  match life.catchUp with
  | .found logs => ∀ n ∈ logs, n ∈ life.queued → n ∉ life.held ∧ n ∉ s.handed
  | _ => True

/-- What keeps the extraction right; a crash does not come between an archive that is handed to the
backend and its watermark. -/
def Sys.Meets (s : Sys) : Act → Prop
  | .enqueue n => ∀ life ∈ s.life, life.MeetsEnqueue s n
  | .answer pending => ∀ life ∈ s.life, life.MeetsAnswer s pending
  | .admits => ∀ life ∈ s.life, life.MeetsAdmit s
  | .crash => ∀ n ∈ s.handed, s.ledger.watermark.any (n ≤ ·)
  | _ => True

instance (s : Sys) (life : Life) (n : Nat) : Decidable (life.MeetsEnqueue s n) :=
  inferInstanceAs (Decidable (_ → _ → _))

instance (s : Sys) (life : Life) (pending : Option (List Nat)) :
    Decidable (life.MeetsAnswer s pending) := by
  unfold Life.MeetsAnswer
  exact match life.catchUp with
  | .asking _ => inferInstance
  | .idle | .scanning _ | .found _ | .raising _ _ => isTrue trivial

instance (s : Sys) (life : Life) : Decidable (life.MeetsAdmit s) := by
  unfold Life.MeetsAdmit
  exact match life.catchUp with
  | .found _ => inferInstance
  | .idle | .scanning _ | .asking _ | .raising _ _ => isTrue trivial

instance (s : Sys) : (act : Act) → Decidable (s.Meets act)
  | .enqueue n => inferInstanceAs (Decidable (∀ life ∈ s.life, life.MeetsEnqueue s n))
  | .answer pending => inferInstanceAs (Decidable (∀ life ∈ s.life, life.MeetsAnswer s pending))
  | .admits => inferInstanceAs (Decidable (∀ life ∈ s.life, life.MeetsAdmit s))
  | .crash => inferInstanceAs (Decidable (∀ n ∈ s.handed, s.ledger.watermark.any (n ≤ ·)))
  | .write _ | .boot | .enqueued _ | .scan | .caughtUp | .nextJob _ | .chosen _ | .process _ _
  | .finish _ _ _ | .panic _ | .day _ => isTrue trivial

def extraction (limit : Nat) (today : Day) : Machine Sys Act := ⟨.start today, .step limit⟩

/-! What holds of the watermark, of every number it is still to be raised to, and of what waits. -/

/-- All up to a number has been settled, and later archives are above it. -/
structure Sys.UpTo (s : Sys) (r : Nat) : Prop where
  known : r ∈ s.archives ∨ s.first = some r
  settled : ∀ m ∈ s.archives, s.After m → m ≤ r → s.Settled m

/-- Archives that wait to be queued: some above the watermark of the boot, in order, and with all
below them, and all there were at the boot, that have not been settled. -/
structure Sys.Waits (s : Sys) (since top : Nat) (logs : List Nat) : Prop where
  increasing : logs.Pairwise (· < ·)
  written : ∀ n ∈ logs, n ∈ s.archives ∧ since < n
  below : ∀ n ∈ logs, ∀ m ∈ s.archives, s.After m → m < n → s.Settled m ∨ m ∈ logs
  top : ∀ m ∈ s.archives, s.After m → m ≤ top → s.Settled m ∨ m ∈ logs

/-- What the catch-up found on disk: what there was at the boot, and has come before its scan. -/
structure Sys.Scanned (s : Sys) (since top : Nat) (candidates : List Nat) : Prop where
  increasing : candidates.Pairwise (· < ·)
  written : ∀ n ∈ candidates, n ∈ s.archives ∧ since < n
  rest : ∀ m ∈ s.archives, since < m → m ∈ candidates ∨ top < m ∧ ∀ k ∈ candidates, k < m

/-- Where the catch-up stands is right. -/
def CatchUp.Ok (s : Sys) (since top : Nat) (backlog : List Nat) : CatchUp → Prop
  | .idle => s.Waits since top backlog
  | .scanning w => backlog = [] ∧ w = since
  | .asking candidates => backlog = [] ∧ s.Scanned since top candidates
  | .found logs => backlog = [] ∧ s.Waits since top logs
  | .raising raised _ => s.Waits since top backlog ∧ ∀ r ∈ raised, s.UpTo r

/-- Where a worker stands is right: what it holds, and what it is to raise the watermark to. -/
structure Worker.Ok (s : Sys) (queued pending backlog : List Nat) (w : Worker) : Prop where
  held : ∀ n ∈ w.held, n ∈ queued ∧ n ∉ pending ∧ n ∉ backlog ∧ n ∉ s.handed
  raised : ∀ n raised, w = .raising n raised → ∀ r ∈ raised, s.UpTo r

/-- The watermark of the boot and the queue are right. -/
structure Sys.Queues (s : Sys) (since top : Nat) (queued pending backlog : List Nat) : Prop where
  booted : s.UpTo since
  newest : top ≤ since ∨ top ∈ s.archives
  known : ∀ n ∈ queued, n ∈ s.queued
  paid : ∀ n ∈ s.handed, n ≤ since ∨ n ∈ queued
  unpaid : ∀ n ∈ pending, n ∈ queued ∧ n ∉ s.handed
  nodup : pending.Nodup
  waiting : ∀ n ∈ backlog, n ∉ pending ∧ n ∉ s.handed

structure Sys.Alive (s : Sys) (life : Life) : Prop where
  queues : s.Queues life.since life.top life.queued life.queue.pending life.queue.backlog
  enqueues : ∀ call ∈ life.enqueues, s.UpTo call.1
  workers : ∀ w ∈ life.workers, w.Ok s life.queued life.queue.pending life.queue.backlog
  catchUp : life.catchUp.Ok s life.since life.top life.queue.backlog

structure Sys.Inv (s : Sys) : Prop where
  one : ∀ life ∈ s.life, life.OneWorker
  increasing : s.archives.Pairwise (· < ·)
  watermark : ∀ w ∈ s.ledger.watermark, s.UpTo w
  down : s.life = none → ∀ n ∈ s.handed, ∃ w ∈ s.ledger.watermark, n ≤ w
  handed : s.handed.Nodup
  alive : ∀ life ∈ s.life, s.Alive life

/-! What is kept while archives are written, queued and refused. -/

structure Sys.Grows (s s' : Sys) : Prop where
  archives : ∃ new, s'.archives = s.archives ++ new ∧ ∀ n ∈ new, ∀ m ∈ s.archives, m < n
  first : s'.first = s.first
  queued : s.queued ⊆ s'.queued
  refused : s.refused ⊆ s'.refused

section
variable {s s' : Sys} {since top r : Nat} {queued pending backlog : List Nat}

theorem Sys.Grows.same (ha : s'.archives = s.archives) (hf : s'.first = s.first)
    (hq : s.queued ⊆ s'.queued) (hr : s.refused ⊆ s'.refused) : s.Grows s' :=
  ⟨⟨[], by simpa using ha, by simp⟩, hf, hq, hr⟩

theorem Sys.Grows.mem (g : s.Grows s') {n : Nat} (h : n ∈ s.archives) : n ∈ s'.archives := by
  obtain ⟨new, ha, -⟩ := g.archives
  rw [ha]
  exact List.mem_append_left _ h

/-- An archive was there before, or is above all that were. -/
theorem Sys.Grows.cases (g : s.Grows s') {n : Nat} (h : n ∈ s'.archives) :
    n ∈ s.archives ∨ ∀ m ∈ s.archives, m < n := by
  obtain ⟨new, ha, hnew⟩ := g.archives
  rw [ha] at h
  exact (List.mem_append.mp h).imp id (hnew n)

theorem Sys.Grows.after (g : s.Grows s') {n : Nat} (h : s'.After n) : s.After n := by
  unfold Sys.After at h ⊢
  rwa [g.first] at h

theorem Sys.Grows.settled (g : s.Grows s') {n : Nat} (h : s.Settled n) : s'.Settled n :=
  h.imp (fun h => g.queued h) fun h => g.refused h

theorem Sys.UpTo.grows (h : s.UpTo r) (g : s.Grows s') : s'.UpTo r where
  known := h.known.imp g.mem fun hf => g.first.trans hf
  settled m hm ha hle := by
    rcases g.cases hm with hold | hnew
    · exact g.settled (h.settled m hold (g.after ha) hle)
    · rcases h.known with hr | hf
      · exact absurd (hnew r hr) (Nat.not_lt.mpr hle)
      · exact absurd (g.after ha r hf) (Nat.not_lt.mpr hle)

theorem Sys.UpTo.first (h : s.first = some r) : s.UpTo r :=
  ⟨.inr h, fun _ _ ha hle => absurd (ha r h) (Nat.not_lt.mpr hle)⟩

theorem Sys.Waits.grows {logs : List Nat} (h : s.Waits since top logs) (g : s.Grows s')
    (hsince : s.UpTo since) (htop : top ≤ since ∨ top ∈ s.archives) : s'.Waits since top logs where
  increasing := h.increasing
  written n hn := ⟨g.mem (h.written n hn).1, (h.written n hn).2⟩
  below n hn m hm ha hlt := by
    rcases g.cases hm with hold | hnew
    · exact (h.below n hn m hold (g.after ha) hlt).imp g.settled id
    · exact absurd (hnew n (h.written n hn).1) (Nat.lt_asymm hlt)
  top m hm ha hle := by
    rcases g.cases hm with hold | hnew
    · exact (h.top m hold (g.after ha) hle).imp g.settled id
    · rcases htop with hle' | htop
      · exact .inl ((hsince.grows g).settled m hm ha (hle.trans hle'))
      · exact absurd (hnew top htop) (Nat.not_lt.mpr hle)

theorem Sys.Scanned.grows {candidates : List Nat} (h : s.Scanned since top candidates)
    (g : s.Grows s') (htop : top ≤ since ∨ top ∈ s.archives) :
    s'.Scanned since top candidates where
  increasing := h.increasing
  written n hn := ⟨g.mem (h.written n hn).1, (h.written n hn).2⟩
  rest m hm hlt := by
    rcases g.cases hm with hold | hnew
    · exact h.rest m hold hlt
    · refine .inr ⟨?_, fun k hk => hnew k (h.written k hk).1⟩
      exact htop.elim (fun hle => hle.trans_lt hlt) (hnew top)

theorem CatchUp.Ok.grows {c : CatchUp} (h : c.Ok s since top backlog) (g : s.Grows s')
    (hsince : s.UpTo since) (htop : top ≤ since ∨ top ∈ s.archives) :
    c.Ok s' since top backlog := by
  cases c with
  | idle => exact Sys.Waits.grows h g hsince htop
  | scanning w => exact h
  | asking candidates => exact ⟨h.1, h.2.grows g htop⟩
  | found logs => exact ⟨h.1, h.2.grows g hsince htop⟩
  | raising raised start => exact ⟨h.1.grows g hsince htop, fun r hr => (h.2 r hr).grows g⟩

theorem Worker.Ok.grows {w : Worker} (h : w.Ok s queued pending backlog) (g : s.Grows s')
    (hh : s'.handed = s.handed) : w.Ok s' queued pending backlog where
  held n hn := hh ▸ h.held n hn
  raised n raised hw r hr := (h.raised n raised hw r hr).grows g

theorem Worker.Ok.of_free {w : Worker} (hheld : w.held = none) : w.Ok s queued pending backlog where
  held n hn := by
    rw [hheld] at hn
    exact nomatch hn
  raised n raised hw := by
    subst hw
    exact nomatch hheld

theorem Sys.Queues.grows (h : s.Queues since top queued pending backlog) (g : s.Grows s')
    (hh : s'.handed = s.handed) : s'.Queues since top queued pending backlog where
  booted := h.booted.grows g
  newest := h.newest.imp_right g.mem
  known n hn := g.queued (h.known n hn)
  paid := hh ▸ h.paid
  unpaid := hh ▸ h.unpaid
  nodup := h.nodup
  waiting := hh ▸ h.waiting

theorem Sys.Alive.grows {life : Life} (h : s.Alive life) (g : s.Grows s')
    (hh : s'.handed = s.handed) : s'.Alive life where
  queues := h.queues.grows g hh
  enqueues call hc := (h.enqueues call hc).grows g
  workers w hw := (h.workers w hw).grows g hh
  catchUp := h.catchUp.grows g h.queues.booted h.queues.newest

/-! What waits, as it is queued. -/

/-- What is in the queue waits no more. -/
theorem Sys.Waits.fresh {logs : List Nat} (h : s.Waits since top logs)
    (hp : ∀ n ∈ pending, n ∈ s.queued) : s.Waits since top (logs.filter (· ∉ pending)) := by
  have hsettled : ∀ m, s.Settled m ∨ m ∈ logs → s.Settled m ∨ m ∈ logs.filter (· ∉ pending) := by
    rintro m (hm | hm)
    · exact .inl hm
    · by_cases hmp : m ∈ pending
      · exact .inl (.inl (hp m hmp))
      · exact .inr (by simp [hm, hmp])
  exact {
    increasing := h.increasing.filter _
    written := fun n hn => h.written n (List.mem_of_mem_filter hn)
    below := fun n hn m hm ha hlt => hsettled m (h.below n (List.mem_of_mem_filter hn) m hm ha hlt)
    top := fun m hm ha hle => hsettled m (h.top m hm ha hle) }

/-- The oldest are queued: all up to the highest of them has been, and the others wait. -/
theorem Sys.Waits.queue {used rest : List Nat} (h : s.Waits since top (used ++ rest))
    (g : s.Grows s') (ha : s'.archives = s.archives) (hq : s'.queued = s.queued ++ used) :
    s'.Waits since top rest ∧ ∀ r ∈ used.max?, s'.UpTo r := by
  have hused : ∀ m ∈ used, s'.Settled m := fun m hm => .inl (hq ▸ List.mem_append_right _ hm)
  have hsettled : ∀ m, s.Settled m ∨ m ∈ used ++ rest → s'.Settled m ∨ m ∈ rest := by
    rintro m (hm | hm)
    · exact .inl (g.settled hm)
    · exact (List.mem_append.mp hm).imp (hused m) id
  obtain ⟨-, hrest, hlt⟩ := List.pairwise_append.mp h.increasing
  refine ⟨⟨hrest, fun n hn => ?_, fun n hn m hm hm' hle => ?_, fun m hm hm' hle => ?_⟩, ?_⟩
  · rw [ha]
    exact h.written n (List.mem_append_right _ hn)
  · exact hsettled m (h.below n (List.mem_append_right _ hn) m (ha ▸ hm) (g.after hm') hle)
  · exact hsettled m (h.top m (ha ▸ hm) (g.after hm') hle)
  · intro r hr
    have hmem : r ∈ used := List.max?_mem hr
    refine ⟨.inl (ha ▸ (h.written r (List.mem_append_left _ hmem)).1), fun m hm hm' hle => ?_⟩
    rcases Nat.eq_or_lt_of_le hle with rfl | hlt'
    · exact hused m hmem
    · rcases hsettled m (h.below r (List.mem_append_left _ hmem) m (ha ▸ hm) (g.after hm') hlt') with
        hset | hm
      · exact hset
      · exact absurd (hlt r hmem m hm) (Nat.lt_asymm hlt')

/-- What is queued from what waits has not been handed out, and is not with a worker. -/
theorem Sys.Queues.queue {used rest : List Nat}
    (h : s.Queues since top queued pending (used ++ rest)) (hnodup : (used ++ rest).Nodup)
    (g : s.Grows s') (hq : s'.queued = s.queued ++ used) (hh : s'.handed = s.handed) :
    s'.Queues since top (queued ++ used) (pending ++ used) rest where
  booted := h.booted.grows g
  newest := h.newest.imp_right g.mem
  known n hn := by
    rw [hq]
    exact (List.mem_append.mp hn).elim (fun hn => List.mem_append_left _ (h.known n hn))
      fun hn => List.mem_append_right _ hn
  paid n hn := (h.paid n (hh ▸ hn)).imp_right fun hn => List.mem_append_left _ hn
  unpaid n hn := by
    rw [hh]
    rcases List.mem_append.mp hn with hn | hn
    · exact ⟨List.mem_append_left _ (h.unpaid n hn).1, (h.unpaid n hn).2⟩
    · exact ⟨List.mem_append_right _ hn, (h.waiting n (List.mem_append_left _ hn)).2⟩
  nodup := by
    refine List.nodup_append.mpr ⟨h.nodup, (List.nodup_append.mp hnodup).1, ?_⟩
    rintro n hn _ hm rfl
    exact (h.waiting n (List.mem_append_left _ hm)).1 hn
  waiting n hn := by
    obtain ⟨hp, hhanded⟩ := h.waiting n (List.mem_append_right _ hn)
    refine ⟨fun hmem => ?_, hh ▸ hhanded⟩
    rcases List.mem_append.mp hmem with hmem | hmem
    · exact hp hmem
    · exact (List.nodup_append.mp hnodup).2.2 n hmem n hn rfl

theorem Sys.Queues.tail {n : Nat} (h : s.Queues since top queued (n :: pending) backlog) :
    s.Queues since top queued pending backlog where
  booted := h.booted
  newest := h.newest
  known := h.known
  paid := h.paid
  unpaid m hm := h.unpaid m (List.mem_cons_of_mem _ hm)
  nodup := (List.nodup_cons.mp h.nodup).2
  waiting m hm := ⟨fun hp => (h.waiting m hm).1 (List.mem_cons_of_mem _ hp), (h.waiting m hm).2⟩

theorem CatchUp.Ok.increasing {c : CatchUp} (h : c.Ok s since top backlog) :
    backlog.Pairwise (· < ·) := by
  cases c with
  | idle => exact Sys.Waits.increasing h
  | scanning => exact h.1 ▸ .nil
  | asking => exact h.1 ▸ .nil
  | found => exact h.1 ▸ .nil
  | raising => exact h.1.increasing

/-- The catch-up stays where it is while its backlog is queued. -/
theorem CatchUp.Ok.queue {c : CatchUp} {used rest : List Nat}
    (h : c.Ok s since top (used ++ rest)) (g : s.Grows s') (ha : s'.archives = s.archives)
    (hq : s'.queued = s.queued ++ used) (hbooted : s.UpTo since)
    (hnewest : top ≤ since ∨ top ∈ s.archives) :
    c.Ok s' since top rest ∧ ∀ r ∈ used.max?, s'.UpTo r := by
  have hempty : used ++ rest = [] → rest = [] ∧ ∀ r ∈ used.max?, s'.UpTo r := by
    intro hnil
    obtain ⟨rfl, rfl⟩ := List.append_eq_nil_iff.mp hnil
    exact ⟨rfl, by simp⟩
  cases c with
  | idle => exact Sys.Waits.queue h g ha hq
  | scanning w => exact ⟨⟨(hempty h.1).1, h.2⟩, (hempty h.1).2⟩
  | asking c => exact ⟨⟨(hempty h.1).1, h.2.grows g hnewest⟩, (hempty h.1).2⟩
  | found logs => exact ⟨⟨(hempty h.1).1, h.2.grows g hbooted hnewest⟩, (hempty h.1).2⟩
  | raising raised start =>
    obtain ⟨hw, hr⟩ := h.1.queue g ha hq
    exact ⟨⟨hw, fun r hr' => (h.2 r hr').grows g⟩, hr⟩

end

end PulseNull.GraphExtract
