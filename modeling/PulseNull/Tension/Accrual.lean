import Mathlib.Algebra.Order.Floor.Defs
import PulseNull.Machine
import PulseNull.Tension.Discharge

/-! Accrual over exact rationals: what ticks add to a thread, over the time it has existed. Times are
nanoseconds. -/
namespace PulseNull.Tension.Accrual

/-- One tick period, in nanoseconds. -/
def period : ℚ := 1200000000000

def maxTicks : ℚ := 72
def maxTensionQ : ℚ := 1000

/-- The weight of the hours untouched: any function between its bounds. -/
structure AgeWeight where
  weight : ℚ → ℚ
  low : ∀ h, 1 ≤ weight h
  high : ∀ h, weight h ≤ 64

structure Config where
  baseRate : ℚ
  ageWeight : AgeWeight
  workCredit : ℚ

/-- What the update law reads and writes of a thread. -/
structure Thread where
  id : Bytes
  label : Bytes
  origin : ThreadOrigin
  createdAt : Time
  lastTouched : Time
  tension : ℚ
  live : Bool
  lastWorkedCycle : Option Nat

structure Store where
  threads : List Thread
  cyclesRun : Nat
  lastTickAt : Option Time

def clampQ (x lo hi : ℚ) : ℚ := min (max x lo) hi

variable (src : Source) (config : Config)

namespace Store

def find (s : Store) (id : Bytes) : Option Thread := s.threads.find? (·.id = id)

def modify (s : Store) (id : Bytes) (f : Thread → Thread) : Store :=
  { s with threads := modifyFirst (·.id = id) f s.threads }

def sameThread (draft : ThreadDraft) (t : Thread) : Bool :=
  t.live && (t.origin = draft.origin || src.normalizeLabel t.label = src.normalizeLabel draft.label)

/-- A new thread starts without tension, and one already open is left as it is. -/
def openThread (s : Store) (draft : ThreadDraft) (now : Time) : Store :=
  if s.threads.any (sameThread src draft) then s
  else { s with threads := s.threads ++
    [⟨src.mint (s.threads.map Thread.id), draft.label, draft.origin, now, now, 0, true, none⟩] }

/-- The periods since the last tick, at most a day's. -/
def tickPeriodsSince (s : Store) (now : Time) : ℚ :=
  match s.lastTickAt with
  | none => 1
  | some previous => clampQ (numSeconds (now - previous) / 60 / 20) 0 maxTicks

def hoursUntouched (t : Thread) (now : Time) : ℚ := max (numSeconds (now - t.lastTouched) / 3600) 0

def accrue (s : Store) (now : Time) (t : Thread) : Thread :=
  if t.live then
    { t with tension := clampQ (t.tension + max config.baseRate 0 *
        config.ageWeight.weight (hoursUntouched t now) * s.tickPeriodsSince now) 0 maxTensionQ }
  else t

def tick (s : Store) (now : Time) : Store :=
  { s with threads := s.threads.map (s.accrue config now), lastTickAt := some now }

/-- One discharge a cycle, of a live thread. -/
def creditWork (s : Store) (id : Bytes) (now : Time) : Store :=
  match s.find id with
  | none => s
  | some t =>
    if !t.live || t.lastWorkedCycle = some s.cyclesRun then s
    else s.modify id fun t => { t with
      tension := clampQ (t.tension - max config.workCredit 0) 0 maxTensionQ
      lastTouched := now
      lastWorkedCycle := some s.cyclesRun }

def resolve (s : Store) (id : Bytes) : Store := s.modify id fun t => { t with live := false }

def recordCycle (s : Store) : Store := { s with cyclesRun := satSucc 64 s.cyclesRun }

end Store

inductive Op where
  | openThread (draft : ThreadDraft) (now : Time)
  | tick (now : Time)
  | creditWork (id : Bytes) (now : Time)
  | resolve (id : Bytes)
  | recordCycle

def Op.apply (s : Store) : Op → Store
  | .openThread draft now => s.openThread src draft now
  | .tick now => s.tick config now
  | .creditWork id now => s.creditWork config id now
  | .resolve id => s.resolve id
  | .recordCycle => s.recordCycle

/-- The store, what each thread has accrued, the time each has been charged from, and the latest
tick. -/
structure Sys where
  store : Store
  accrued : Bytes → ℚ
  charged : Bytes → Option ℚ
  latest : Option Time

def tensionOf (s : Store) (id : Bytes) : ℚ := ((s.find id).map Thread.tension).getD 0

/-- The time a first tick charges from. -/
def chargedFrom (s : Store) (now : Time) : ℚ := now - s.tickPeriodsSince now * period

def Sys.step (s : Sys) : Op → Sys
  | .tick now =>
    { store := s.store.tick config now
      accrued := fun id => s.accrued id + (tensionOf (s.store.tick config now) id - tensionOf s.store id)
      charged := fun id =>
        if (s.store.find id).any Thread.live then (s.charged id).or (some (chargedFrom s.store now))
        else s.charged id
      latest := some (s.latest.elim now (max now)) }
  | op => { s with store := op.apply src config s.store }

def accrual : Machine Sys Op := ⟨⟨⟨[], 0, none⟩, fun _ => 0, fun _ => none, none⟩, Sys.step src config⟩

/-- The periods from the creation of a thread, the last one begun counted whole. -/
def lived (t : Thread) (until_ : Time) : ℕ := ⌈((until_ : ℚ) - t.createdAt) / period⌉₊

/-- No thread has accrued more than the highest rate over the periods it existed; and a tick neither
lowers tension nor moves a resolved thread. -/
structure Sys.Fair (s : Sys) : Prop where
  bounded : ∀ id t, s.store.find id = some t → s.accrued id ≤
    max config.baseRate 0 * 64 * (s.latest.elim 0 (lived t) : ℕ)
  upward : ∀ now, ∀ t ∈ s.store.threads, t.tension ≤ (s.store.accrue config now t).tension ∧
    (t.live = false → s.store.accrue config now t = t)

/-- A tick over live threads is not earlier than the one before, and the time from which a live
thread is charged fills no more periods than have begun since its creation. -/
def Meets (s : Sys) : Op → Prop
  | .tick now => ∀ id t, s.store.find id = some t → t.live = true →
      (∀ previous, s.store.lastTickAt = some previous → previous ≤ now) ∧
      ((now : ℚ) - (s.charged id).getD (chargedFrom s.store now)) / period ≤ lived t now
  | _ => True

/-! Arithmetic. -/

variable {src : Source} {config : Config}

theorem period_pos : 0 < period := by norm_num [period]

theorem clampQ_le {x lo hi : ℚ} (h : lo ≤ x) : clampQ x lo hi ≤ x :=
  (min_le_left _ _).trans (max_le le_rfl h)

theorem le_clampQ {x lo hi : ℚ} (h : lo ≤ hi) : lo ≤ clampQ x lo hi := le_min (le_max_right _ _) h

theorem clampQ_mono {x lo hi : ℚ} {a : ℚ} (hx : a ≤ x) (hhi : a ≤ hi) : a ≤ clampQ x lo hi :=
  le_min (hx.trans (le_max_left _ _)) hhi

theorem rate_nonneg (config : Config) : 0 ≤ max config.baseRate 0 * 64 :=
  mul_nonneg (le_max_right _ _) (by norm_num)

theorem tickPeriods_nonneg (s : Store) (now : Time) : 0 ≤ s.tickPeriodsSince now := by
  unfold Store.tickPeriodsSince
  split
  · exact zero_le_one
  · exact le_clampQ (by norm_num [maxTicks])

/-- Whole seconds are no more than the time they are of. -/
theorem numSeconds_le {span : Time} (h : 0 ≤ span) : (numSeconds span : ℚ) * 1000000000 ≤ span := by
  have hz : numSeconds span * 1000000000 ≤ span := by
    unfold numSeconds
    rw [Int.tdiv_eq_ediv_of_nonneg h]
    exact Int.ediv_mul_le span (by norm_num)
  exact_mod_cast hz

theorem numSeconds_nonneg {span : Time} (h : 0 ≤ span) : (0 : ℚ) ≤ numSeconds span := by
  have hz : 0 ≤ numSeconds span := Int.tdiv_nonneg h (by norm_num)
  exact_mod_cast hz

/-- A tick charges no more than the time since the last one. -/
theorem tickPeriods_le {s : Store} {previous now : Time} (hs : s.lastTickAt = some previous)
    (h : previous ≤ now) : s.tickPeriodsSince now * period ≤ now - previous := by
  have hspan : 0 ≤ now - previous := sub_nonneg.mpr h
  have hsec := numSeconds_le hspan
  have hle : s.tickPeriodsSince now ≤ numSeconds (now - previous) / 60 / 20 := by
    rw [Store.tickPeriodsSince, hs]
    exact clampQ_le (div_nonneg (div_nonneg (numSeconds_nonneg hspan) (by norm_num)) (by norm_num))
  calc s.tickPeriodsSince now * period
      ≤ numSeconds (now - previous) / 60 / 20 * period := by gcongr; exact period_pos.le
    _ = numSeconds (now - previous) * 1000000000 := by rw [period]; ring
    _ ≤ ((now - previous : Time) : ℚ) := hsec
    _ = now - previous := by push_cast; ring

theorem lived_mono (t : Thread) {a b : Time} (h : a ≤ b) : lived t a ≤ lived t b := by
  unfold lived
  apply Nat.ceil_mono
  have : (a : ℚ) ≤ b := by exact_mod_cast h
  gcongr
  exact period_pos.le

/-- One accrual: the tension goes up, by no more than the highest rate over the periods. -/
theorem accrue_tension (s : Store) (now : Time) {t : Thread} (h0 : 0 ≤ t.tension)
    (h1 : t.tension ≤ maxTensionQ) :
    t.tension ≤ (s.accrue config now t).tension ∧ (s.accrue config now t).tension ≤ maxTensionQ ∧
      (s.accrue config now t).tension - t.tension ≤
        max config.baseRate 0 * 64 * s.tickPeriodsSince now := by
  have hp := tickPeriods_nonneg s now
  have hr : 0 ≤ max config.baseRate 0 := le_max_right _ _
  unfold Store.accrue
  split
  · have hw := config.ageWeight.low (Store.hoursUntouched t now)
    have hadd : 0 ≤ max config.baseRate 0 * config.ageWeight.weight (Store.hoursUntouched t now) *
        s.tickPeriodsSince now := mul_nonneg (mul_nonneg hr (by linarith)) hp
    refine ⟨clampQ_mono (by linarith) h1, min_le_right _ _, ?_⟩
    have hle : max config.baseRate 0 * config.ageWeight.weight (Store.hoursUntouched t now) *
        s.tickPeriodsSince now ≤ max config.baseRate 0 * 64 * s.tickPeriodsSince now := by
      gcongr
      exact config.ageWeight.high _
    have hclamp : clampQ (t.tension + max config.baseRate 0 *
        config.ageWeight.weight (Store.hoursUntouched t now) * s.tickPeriodsSince now) 0 maxTensionQ ≤
        t.tension + max config.baseRate 0 *
          config.ageWeight.weight (Store.hoursUntouched t now) * s.tickPeriodsSince now :=
      clampQ_le (by linarith)
    dsimp only
    linarith
  · refine ⟨le_rfl, h1, ?_⟩
    rw [sub_self]
    exact mul_nonneg (rate_nonneg config) hp

/-! Threads by their ids. -/

theorem find_map {s : Store} {f : Thread → Thread} (hf : ∀ t, (f t).id = t.id) (id : Bytes) :
    (s.threads.map f).find? (·.id = id) = (s.find id).map f := by
  rw [List.find?_map]
  simp only [Function.comp_def, hf]
  rfl

theorem find_modifyFirst {f : Thread → Thread} (hf : ∀ t, (f t).id = t.id) (id id' : Bytes)
    (ts : List Thread) : (modifyFirst (·.id = id) f ts).find? (·.id = id') =
      if id = id' then (ts.find? (·.id = id')).map f else ts.find? (·.id = id') := by
  induction ts with
  | nil => simp [modifyFirst]
  | cons t ts ih =>
    rw [modifyFirst]
    by_cases ht : t.id = id
    · rw [if_pos (by simpa using ht)]
      by_cases hid : id = id'
      · rw [if_pos hid, List.find?_cons_of_pos (by simp [hf, ht, hid]),
          List.find?_cons_of_pos (by simp [ht, hid])]
        rfl
      · rw [if_neg hid, List.find?_cons_of_neg (by simp [hf, ht, hid]),
          List.find?_cons_of_neg (by simp [ht, hid])]
    · rw [if_neg (by simpa using ht)]
      by_cases hid : t.id = id'
      · rw [List.find?_cons_of_pos (by simpa using hid), List.find?_cons_of_pos (by simpa using hid),
          if_neg fun h => ht (hid.trans h.symm)]
      · rw [List.find?_cons_of_neg (by simpa using hid), List.find?_cons_of_neg (by simpa using hid), ih]

theorem mem_modifyFirst {p : Thread → Bool} {f : Thread → Thread} {t : Thread} {ts : List Thread}
    (h : t ∈ modifyFirst p f ts) : t ∈ ts ∨ ∃ u ∈ ts, t = f u := by
  induction ts with
  | nil => exact .inl h
  | cons u ts ih =>
    rw [modifyFirst] at h
    split at h
    · rcases List.mem_cons.mp h with rfl | h
      · exact .inr ⟨u, List.mem_cons_self, rfl⟩
      · exact .inl (List.mem_cons_of_mem _ h)
    · rcases List.mem_cons.mp h with rfl | h
      · exact .inl List.mem_cons_self
      · rcases ih h with h | ⟨v, hv, he⟩
        · exact .inl (List.mem_cons_of_mem _ h)
        · exact .inr ⟨v, List.mem_cons_of_mem _ hv, he⟩

/-! The invariant. -/

/-- What a live thread has accrued fits the time it has been charged for, and that time fits the
periods of its life. -/
structure Charged (config : Config) (s : Sys) (id : Bytes) (t : Thread) (start : ℚ) (last : Time) :
    Prop where
  ticked : s.store.lastTickAt = some last
  order : start ≤ last
  rate : s.accrued id ≤ max config.baseRate 0 * 64 * ((last - start) / period)
  life : (last - start) / period ≤ lived t last

structure Sys.Inv (config : Config) (s : Sys) : Prop where
  tension : ∀ t ∈ s.store.threads, 0 ≤ t.tension ∧ t.tension ≤ maxTensionQ
  fresh : ∀ id, s.store.find id = none → s.accrued id = 0 ∧ s.charged id = none
  uncharged : ∀ id, s.charged id = none → s.accrued id = 0
  live : ∀ id t start, s.store.find id = some t → t.live = true → s.charged id = some start →
    ∃ last, Charged config s id t start last
  latest : ∀ last, s.store.lastTickAt = some last → ∃ latest, s.latest = some latest ∧ last ≤ latest
  bounded : ∀ id t, s.store.find id = some t → s.accrued id ≤
    max config.baseRate 0 * 64 * (s.latest.elim 0 (lived t) : ℕ)

variable {s : Sys}

theorem start_inv : (accrual src config).start.Inv config := by
  refine ⟨by simp [accrual], fun _ _ => ⟨rfl, rfl⟩, fun _ _ => rfl, ?_, ?_, ?_⟩
  · intro id t start h
    cases h
  · intro last h
    cases h
  · intro id t h
    cases h

/-- An operation that ticks nothing: each thread was there and no more alive, or is new. -/
theorem Sys.Inv.quiet (h : s.Inv config) {store : Store} (hlast : store.lastTickAt = s.store.lastTickAt)
    (ht : ∀ t ∈ store.threads, 0 ≤ t.tension ∧ t.tension ≤ maxTensionQ)
    (hgone : ∀ id, store.find id = none → s.store.find id = none)
    (hfound : ∀ id t', store.find id = some t' → s.store.find id = none ∨
      ∃ t, s.store.find id = some t ∧ t'.createdAt = t.createdAt ∧ (t'.live = true → t.live = true)) :
    Sys.Inv config { s with store := store } := by
  have same {t t' : Thread} (hc : t'.createdAt = t.createdAt) (u : Time) : lived t' u = lived t u := by
    unfold lived
    rw [hc]
  refine ⟨ht, fun id hid => h.fresh id (hgone id hid), h.uncharged, ?_, ?_, ?_⟩
  · intro id t' start hf hl hs
    rcases hfound id t' hf with hnone | ⟨t, htf, hc, hlive⟩
    · have hno := (h.fresh id hnone).2
      rw [show s.charged id = some start from hs] at hno
      cases hno
    · obtain ⟨last, hch⟩ := h.live id t start htf (hlive hl) hs
      exact ⟨last, hlast.trans hch.ticked, hch.order, hch.rate, by rw [same hc]; exact hch.life⟩
  · intro last hl
    exact h.latest last (hlast ▸ hl)
  · intro id t' hf
    rcases hfound id t' hf with hnone | ⟨t, htf, hc, -⟩
    · change s.accrued id ≤ _
      rw [(h.fresh id hnone).1]
      exact mul_nonneg (rate_nonneg config) (Nat.cast_nonneg _)
    · have hb := h.bounded id t htf
      rwa [← show s.latest.elim 0 (lived t') = s.latest.elim 0 (lived t) by
        cases s.latest with
        | none => rfl
        | some u => exact same hc u] at hb

/-- Changing the first thread of an id, but not when it was created. -/
theorem Sys.Inv.modified (h : s.Inv config) (id : Bytes) {f : Thread → Thread}
    (hf : ∀ t, (f t).id = t.id ∧ (f t).createdAt = t.createdAt ∧ ((f t).live = true → t.live = true))
    (ht : ∀ t, 0 ≤ t.tension → t.tension ≤ maxTensionQ →
      0 ≤ (f t).tension ∧ (f t).tension ≤ maxTensionQ) :
    Sys.Inv config { s with store := s.store.modify id f } := by
  have hfind (id' : Bytes) : (s.store.modify id f).find id' =
      if id = id' then (s.store.find id').map f else s.store.find id' :=
    find_modifyFirst (fun t => (hf t).1) id id' s.store.threads
  refine h.quiet rfl ?_ ?_ ?_
  · intro t hm
    rcases mem_modifyFirst hm with hm | ⟨u, hu, rfl⟩
    · exact h.tension t hm
    · exact ht u (h.tension u hu).1 (h.tension u hu).2
  · intro id' hn
    rw [hfind] at hn
    split at hn
    · exact Option.map_eq_none_iff.mp hn
    · exact hn
  · intro id' t' hs
    rw [hfind] at hs
    split at hs
    · obtain ⟨t, ht, rfl⟩ := Option.map_eq_some_iff.mp hs
      exact .inr ⟨t, ht, (hf t).2⟩
    · exact .inr ⟨t', hs, rfl, fun hl => hl⟩

theorem Sys.Inv.openThread (h : s.Inv config) (draft : ThreadDraft) (now : Time) :
    (s.step src config (.openThread draft now)).Inv config := by
  change Sys.Inv config { s with store := s.store.openThread src draft now }
  unfold Store.openThread
  split
  · exact h
  have hfind (id : Bytes) (t : Thread) (ht : t.id ∉ s.store.threads.map Thread.id) :
      (s.store.threads ++ [t]).find? (·.id = id) = if t.id = id then some t else s.store.find id := by
    rw [List.find?_append]
    by_cases hid : t.id = id
    · have hnone : s.store.threads.find? (·.id = id) = none := by
        rw [List.find?_eq_none]
        intro u hu heq
        exact ht (List.mem_map.mpr ⟨u, hu, (of_decide_eq_true heq).trans hid.symm⟩)
      rw [hnone, if_pos hid]
      simp [hid]
    · rw [if_neg hid]
      simp [hid, Store.find]
  have hfresh := src.fresh (s.store.threads.map Thread.id)
  refine h.quiet rfl ?_ ?_ ?_
  · intro t hm
    rcases List.mem_append.mp hm with hm | hm
    · exact h.tension t hm
    · rw [List.mem_singleton.mp hm]
      exact ⟨le_rfl, by norm_num [maxTensionQ]⟩
  · intro id hn
    rw [Store.find, hfind id _ hfresh] at hn
    split at hn
    · cases hn
    · exact hn
  · intro id t' hs
    rw [Store.find, hfind id _ hfresh] at hs
    split at hs
    · next hid =>
      refine .inl (List.find?_eq_none.mpr fun u hu heq => hfresh ?_)
      exact List.mem_map.mpr ⟨u, hu, (of_decide_eq_true heq).trans hid.symm⟩
    · exact .inr ⟨t', hs, rfl, fun hl => hl⟩

theorem Sys.Inv.creditWork (h : s.Inv config) (id : Bytes) (now : Time) :
    (s.step src config (.creditWork id now)).Inv config := by
  change Sys.Inv config { s with store := s.store.creditWork config id now }
  unfold Store.creditWork
  split
  · exact h
  split
  · exact h
  · refine h.modified id (fun t => ⟨rfl, rfl, fun hl => hl⟩) fun t _ _ => ?_
    exact ⟨le_clampQ (by norm_num [maxTensionQ]), min_le_right _ _⟩

theorem accrue_fields (store : Store) (now : Time) (t : Thread) :
    (store.accrue config now t).id = t.id ∧ (store.accrue config now t).createdAt = t.createdAt ∧
      (store.accrue config now t).live = t.live := by
  unfold Store.accrue
  split
  · exact ⟨rfl, rfl, rfl⟩
  · exact ⟨rfl, rfl, rfl⟩

/-- A tick, for one thread: what it accrues, and that it stays where it is. -/
theorem tensionOf_tick (h : s.Inv config) (now : Time) {id : Bytes} {t : Thread}
    (hf : s.store.find id = some t) :
    tensionOf (s.store.tick config now) id - tensionOf s.store id ≤
      max config.baseRate 0 * 64 * s.store.tickPeriodsSince now ∧
    (t.live = false → tensionOf (s.store.tick config now) id = tensionOf s.store id) := by
  have hfind : (s.store.tick config now).find id = some (s.store.accrue config now t) := by
    rw [Store.find, Store.tick, find_map (fun t => (accrue_fields s.store now t).1), hf]
    rfl
  obtain ⟨h0, h1⟩ := h.tension t (List.mem_of_find?_eq_some hf)
  unfold tensionOf
  rw [hfind, hf]
  refine ⟨(accrue_tension s.store now h0 h1).2.2, fun hl => ?_⟩
  simp [Store.accrue, hl]

/-- The time a live thread is charged from, after a tick, and what it has accrued since. -/
theorem Sys.Inv.charge (h : s.Inv config) {now : Time} (ok : Meets s (.tick now)) {id : Bytes}
    {t : Thread} (hf : s.store.find id = some t) (hl : t.live = true) :
    let start := (s.charged id).getD (chargedFrom s.store now)
    start ≤ now ∧ (s.step src config (.tick now)).accrued id ≤
      max config.baseRate 0 * 64 * ((now - start) / period) := by
  have hp := tickPeriods_nonneg s.store now
  have hgain := (tensionOf_tick h now hf).1
  dsimp only [Sys.step]
  cases hc : s.charged id with
  | none =>
    -- the first tick of the thread: it had accrued nothing
    simp only [Option.getD_none, chargedFrom]
    have hzero := h.uncharged id hc
    have hpp := mul_nonneg hp period_pos.le
    refine ⟨by linarith, ?_⟩
    have heq : ((now : ℚ) - (now - s.store.tickPeriodsSince now * period)) / period =
        s.store.tickPeriodsSince now := by
      rw [sub_sub_cancel, mul_div_assoc, div_self period_pos.ne', mul_one]
    rw [heq, hzero, zero_add]
    exact hgain
  | some start =>
    simp only [Option.getD_some]
    obtain ⟨last, hch⟩ := h.live id t start hf hl hc
    have hle := (ok id t hf hl).1 last hch.ticked
    have hcast : (last : ℚ) ≤ now := by exact_mod_cast hle
    have hsince := tickPeriods_le hch.ticked hle
    refine ⟨hch.order.trans hcast, ?_⟩
    have hper : s.store.tickPeriodsSince now ≤ (now - last) / period := by
      rw [le_div_iff₀ period_pos]
      exact hsince
    calc s.accrued id + (tensionOf (s.store.tick config now) id - tensionOf s.store id)
        ≤ max config.baseRate 0 * 64 * ((last - start) / period) +
            max config.baseRate 0 * 64 * s.store.tickPeriodsSince now := add_le_add hch.rate hgain
      _ ≤ max config.baseRate 0 * 64 * ((last - start) / period) +
            max config.baseRate 0 * 64 * ((now - last) / period) := by
          gcongr
      _ = max config.baseRate 0 * 64 * ((now - start) / period) := by ring

theorem Sys.Inv.tick (h : s.Inv config) {now : Time} (ok : Meets s (.tick now)) :
    (s.step src config (.tick now)).Inv config := by
  have hfind (id : Bytes) : (s.store.tick config now).find id =
      (s.store.find id).map (s.store.accrue config now) := by
    rw [Store.find, Store.tick, find_map fun t => (accrue_fields s.store now t).1]
  have hlatest : now ≤ s.latest.elim now (max now) := by
    cases s.latest with
    | none => exact le_rfl
    | some u => exact le_max_left _ _
  have hgone {id : Bytes} (hn : s.store.find id = none) :
      tensionOf (s.store.tick config now) id - tensionOf s.store id = 0 := by
    rw [tensionOf, tensionOf, hfind, hn]
    exact sub_self _
  have same (t : Thread) (u : Time) : lived (s.store.accrue config now t) u = lived t u := by
    rw [lived, lived, (accrue_fields s.store now t).2.1]
  refine ⟨?_, fun id hid => ?_, fun id hid => ?_, fun id t' start hs hl hc => ?_, fun last hl => ?_,
    fun id t' hs => ?_⟩
  · intro t hm
    obtain ⟨u, hu, rfl⟩ := List.mem_map.mp hm
    obtain ⟨h0, h1⟩ := h.tension u hu
    obtain ⟨hup, htop, -⟩ := accrue_tension s.store now h0 h1
    exact ⟨h0.trans hup, htop⟩
  · have hnone : s.store.find id = none := by
      have := (hfind id).symm.trans hid
      exact Option.map_eq_none_iff.mp this
    obtain ⟨ha, hc⟩ := h.fresh id hnone
    exact ⟨by simp only [Sys.step, ha, hgone hnone, zero_add], by simp [Sys.step, hnone, hc]⟩
  · have hc : s.charged id = none ∧ (s.store.find id).any Thread.live = false := by
      simp only [Sys.step] at hid
      split at hid
      · cases hcs : s.charged id <;> simp [hcs] at hid
      · next hno => exact ⟨hid, by simpa using hno⟩
    have hzero := h.uncharged id hc.1
    simp only [Sys.step, hzero, zero_add]
    cases hft : s.store.find id with
    | none => exact hgone hft
    | some t =>
      rw [hft] at hc
      rw [(tensionOf_tick h now hft).2 hc.2]
      exact sub_self _
  · obtain ⟨t, hf, rfl⟩ := Option.map_eq_some_iff.mp ((hfind id).symm.trans hs)
    have hlive : t.live = true := (accrue_fields s.store now t).2.2 ▸ hl
    have hstart : (s.charged id).getD (chargedFrom s.store now) = start := by
      simp only [Sys.step, hf, Option.any_some, hlive, if_true] at hc
      cases hcs : s.charged id <;> simp [hcs] at hc ⊢ <;> exact hc
    obtain ⟨horder, hrate⟩ := h.charge ok hf hlive
    rw [hstart] at horder hrate
    refine ⟨now, rfl, horder, hrate, ?_⟩
    rw [same]
    exact hstart ▸ (ok id t hf hlive).2
  · obtain rfl := Option.some.inj hl
    exact ⟨_, rfl, hlatest⟩
  · obtain ⟨t, hf, rfl⟩ := Option.map_eq_some_iff.mp ((hfind id).symm.trans hs)
    change _ ≤ max config.baseRate 0 * 64 *
      ((lived (s.store.accrue config now t) (s.latest.elim now (max now)) : ℕ) : ℚ)
    rw [same]
    cases hlive : t.live with
    | true =>
      obtain ⟨-, hrate⟩ := h.charge ok hf hlive
      have hmono : (lived t now : ℚ) ≤ (lived t (s.latest.elim now (max now)) : ℕ) := by
        exact_mod_cast lived_mono t hlatest
      exact hrate.trans (mul_le_mul_of_nonneg_left ((ok id t hf hlive).2.trans hmono)
        (rate_nonneg config))
    | false =>
      have hstay : (s.step src config (.tick now)).accrued id = s.accrued id := by
        simp [Sys.step, (tensionOf_tick h now hf).2 hlive]
      rw [hstay]
      refine (h.bounded id t hf).trans (mul_le_mul_of_nonneg_left ?_ (rate_nonneg config))
      cases s.latest with
      | none => exact Nat.cast_le.mpr (Nat.zero_le _)
      | some u => exact_mod_cast lived_mono t (le_max_right now u)

theorem Sys.Inv.step (h : s.Inv config) {op : Op} (ok : Meets s op) :
    (s.step src config op).Inv config := by
  cases op with
  | openThread draft now => exact h.openThread draft now
  | tick now => exact h.tick ok
  | creditWork id now => exact h.creditWork id now
  | resolve id =>
    exact h.modified id (fun t => ⟨rfl, rfl, fun hl => by cases hl⟩) fun t h0 h1 => ⟨h0, h1⟩
  | recordCycle =>
    exact h.quiet rfl h.tension (fun _ hn => hn) fun id t' hs => .inr ⟨t', hs, rfl, fun hl => hl⟩

/-- Where ticks over live threads keep their order and charge no thread for periods before it
existed, the accrual of each thread is bounded by its life. -/
theorem accrual_fair (h : (accrual src config).Runs Meets s) : s.Fair config := by
  have hinv : s.Inv config := h.invariant start_inv fun _ _ hs ok => hs.step ok
  refine ⟨hinv.bounded, fun now t ht => ?_⟩
  obtain ⟨h0, h1⟩ := hinv.tension t ht
  exact ⟨(accrue_tension s.store now h0 h1).1, fun hl => by simp [Store.accrue, hl]⟩

/-! A sample store, over the rate of the default configuration. -/

def sampleConfig : Config := ⟨1 / 20, ⟨fun _ => 1, fun _ => le_rfl, fun _ => by norm_num⟩, 1⟩

def sampleDraft : ThreadDraft := ⟨[97], [], .userRaised [97]⟩

def meetsCheck (s : Sys) : Op → Bool
  | .tick now => s.store.threads.all fun t => !t.live ||
      (s.store.lastTickAt.all (fun previous => decide (previous ≤ now)) &&
        decide (((now : ℚ) - (s.charged t.id).getD (chargedFrom s.store now)) / period ≤ lived t now))
  | _ => true

theorem meets_of_check (s : Sys) (op : Op) (h : meetsCheck s op = true) : Meets s op := by
  cases op with
  | tick now =>
    intro id t hf hl
    have ht := List.all_eq_true.mp h t (List.mem_of_find?_eq_some hf)
    have hid : t.id = id := by simpa using List.find?_some hf
    simp only [hl, Bool.not_true, Bool.false_or, Bool.and_eq_true, decide_eq_true_eq] at ht
    rw [hid] at ht
    exact ⟨fun previous hp => by simpa [hp] using ht.1, ht.2⟩
  | _ => trivial

/-- A thread over two ticks, its discharge and its end. -/
theorem accrual_fair_sample : ∃ s, (accrual longIds sampleConfig).Runs Meets s ∧
    s.Fair sampleConfig ∧ s.accrued [48] = 1 / 10 := by
  have hrun : ((accrual longIds sampleConfig).follow meetsCheck (accrual longIds sampleConfig).start
      [.tick 0, .openThread sampleDraft 600000000000, .tick 1200000000000, .creditWork [48] 1300000000000,
        .tick 2400000000000, .resolve [48], .tick 3600000000000]).map (fun s => s.accrued [48]) =
      some (1 / 10) := by decide +kernel
  obtain ⟨s, hs, hend⟩ := Option.map_eq_some_iff.mp hrun
  have h : (accrual longIds sampleConfig).Runs Meets s := .follow meets_of_check .start hs
  exact ⟨s, h, accrual_fair h, hend⟩

/-- A thread opened one second before the tick that catches up a day accrues for the whole day. -/
theorem unlived_day_charged : ∃ s, (accrual longIds sampleConfig).Runs (fun _ _ => True) s ∧
    s.accrued [48] = 72 / 20 ∧ ¬ s.Fair sampleConfig := by
  have hrun : ((accrual longIds sampleConfig).follow (fun _ _ => true)
      (accrual longIds sampleConfig).start [.tick 0, .openThread sampleDraft 86399000000000,
        .tick 86400000000000]).map (fun s => (s.accrued [48], (s.store.find [48]).map Thread.createdAt,
          s.latest)) = some (72 / 20, some 86399000000000, some 86400000000000) := by decide +kernel
  obtain ⟨s, hs, hend⟩ := Option.map_eq_some_iff.mp hrun
  obtain ⟨haccrued, hrest⟩ := Prod.mk.inj hend
  obtain ⟨hcreated, hlatest⟩ := Prod.mk.inj hrest
  obtain ⟨t, ht, hat⟩ := Option.map_eq_some_iff.mp hcreated
  refine ⟨s, .follow (fun _ _ _ => trivial) .start hs, haccrued, fun hx => ?_⟩
  have hb := hx.bounded [48] t ht
  have hlived : lived t 86400000000000 = 1 := by
    rw [lived, hat]
    decide +kernel
  rw [haccrued, hlatest, Option.elim_some, hlived] at hb
  norm_num [sampleConfig] at hb

end PulseNull.Tension.Accrual
