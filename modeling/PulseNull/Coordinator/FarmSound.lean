import PulseNull.Machine
import PulseNull.Coordinator.Farm

/-! What a farm reports: texts committed under the newest token of their subtask, every entry of the
spec once, and what was superseded and rejected. -/
namespace PulseNull.Coordinator.Farm
open Time (DateTime Duration)
open Text (ascii decimal)

/-- A text the executor returned in an attempt, committed while no higher token had been minted for
the lease, and no later attempt has begun. -/
def History.Live (h : History) (i attempts : Nat) (text : Bytes) : Prop :=
  ∃ a ∈ h.minted, a.sub = i ∧ a.attempt = attempts ∧ (a, text) ∈ h.answered ∧
    ⟨a, text, some a.token⟩ ∈ h.committed ∧ ∀ m ∈ h.minted, m.sub = i → m.token ≤ a.token

/-- What the farm reports is live, has every entry of the spec once, and counts right. -/
structure Sys.Truthful (spec : FarmSpec) (f : Plan) (s : Sys) (r : Report) : Prop where
  texts : ∀ res ∈ r.outcome.results, ∃ i < f.subtasks.length, f.subId i = res.subId ∧
    s.history.Live i res.attempts res.text
  entries : (r.outcome.results.map (·.subId) ++ r.outcome.failed).Perm (spec.subtasks.map (·.id))
  reclaims : r.outcome.reclaims = r.superseded
  lateFenced : r.outcome.lateFenced = r.rejected

/-- An attempt after the first follows one that stalled, and the counter does not wrap. -/
def Sys.MeetsCount (s : Sys) (c : Controller) : Prop :=
  match c.stage with
  | .raised a => 1 < a.attempt → s.stalledBefore c a.attempt ≠ [] ∧ s.reclaims + 1 < 2^32
  | _ => True

/-- What keeps a report right; others mint no token for the leases of the farm. -/
def Sys.Meets (f : Plan) (s : Sys) : Act → Prop
  | .count i => ∀ c ∈ s.controllers[i]?, s.MeetsCount c
  | .commit _ => s.lateFenced + 1 < 2^32
  | .other call => ∀ i < f.subtasks.length,
    (call.apply s.leases).watermark (f.resource i) = s.leases.watermark (f.resource i)
  | _ => True

instance (s : Sys) : (c : Controller) → Decidable (s.MeetsCount c)
  | ⟨.raised a, stalled, aborted⟩ => inferInstanceAs (Decidable (1 < a.attempt →
      s.stalledBefore ⟨.raised a, stalled, aborted⟩ a.attempt ≠ [] ∧ s.reclaims + 1 < 2^32))
  | ⟨.attempting _, _, _⟩ | ⟨.claimed _, _, _⟩ | ⟨.permit _, _, _⟩ | ⟨.joining _ _, _, _⟩
  | ⟨.releasing _ _, _, _⟩ | ⟨.taking _, _, _⟩ | ⟨.lingering _ _, _, _⟩ | ⟨.returned _, _, _⟩
  | ⟨.dropped, _, _⟩ => isTrue trivial

instance (f : Plan) (s : Sys) : (act : Act) → Decidable (s.Meets f act)
  | .count i => inferInstanceAs (Decidable (∀ c ∈ s.controllers[i]?, s.MeetsCount c))
  | .commit _ => inferInstanceAs (Decidable (s.lateFenced + 1 < 2^32))
  | .other call => inferInstanceAs (Decidable (∀ i < f.subtasks.length,
      (call.apply s.leases).watermark (f.resource i) = s.leases.watermark (f.resource i)))
  | .attempt .. | .raiseFence _ | .spawn _ | .join _ | .stall _ | .release .. | .take _ | .linger _
  | .drop _ | .answer .. | .cancel _ | .collect | .deadline | .finish => isTrue trivial

def run (f : Plan) (leases : LeaseTable) : Machine Sys Act := ⟨.start f leases, .step f⟩

/-! Names. -/

theorem decimal_inj {i j : Nat} (h : decimal i = decimal j) : i = j := by
  rw [← Text.digitsValue_decimal i, h, Text.digitsValue_decimal]

theorem Plan.resource_inj (f : Plan) {i j : Nat} (h : f.resource i = f.resource j) : i = j :=
  decimal_inj (List.append_cancel_left h)

/-- What is kept has distinct ids, none of them seen before. -/
theorem distinct_nodup (seen : List Bytes) (subs : List SubtaskSpec) :
    ((distinct seen subs).1.map (·.id)).Nodup ∧ ∀ sub ∈ (distinct seen subs).1, sub.id ∉ seen := by
  induction subs generalizing seen with
  | nil => exact ⟨.nil, by simp [distinct]⟩
  | cons sub rest ih =>
    unfold distinct
    split
    · exact ih seen
    · next hnew =>
      obtain ⟨hnodup, hout⟩ := ih (sub.id :: seen)
      refine ⟨List.nodup_cons.mpr ⟨fun hmem => ?_, hnodup⟩, fun other hother => ?_⟩
      · obtain ⟨other, hother, he⟩ := List.mem_map.mp hmem
        exact hout other hother (he ▸ List.mem_cons_self)
      · rcases List.mem_cons.mp hother with rfl | hother
        · exact hnew
        · exact fun hmem => hout other hother (List.mem_cons_of_mem _ hmem)

theorem distinct_perm (seen : List Bytes) (subs : List SubtaskSpec) :
    ((distinct seen subs).1.map (·.id) ++ (distinct seen subs).2).Perm (subs.map (·.id)) := by
  induction subs generalizing seen with
  | nil => exact .refl _
  | cons sub rest ih =>
    unfold distinct
    split
    · exact List.perm_middle.trans ((ih seen).cons sub.id)
    · exact (ih (sub.id :: seen)).cons sub.id

theorem Plan.subId_inj {f : Plan} (hnodup : (f.subtasks.map (·.id)).Nodup) {i j : Nat}
    (hi : i < f.subtasks.length) (hj : j < f.subtasks.length) (h : f.subId i = f.subId j) :
    i = j := by
  unfold Plan.subId at h
  rw [List.getElem?_eq_getElem hi, List.getElem?_eq_getElem hj] at h
  have hi' : i < (f.subtasks.map (·.id)).length := by rwa [List.length_map]
  have hj' : j < (f.subtasks.map (·.id)).length := by rwa [List.length_map]
  have hget : (f.subtasks.map (·.id))[i] = (f.subtasks.map (·.id))[j] := by simpa using h
  exact hnodup.getElem_inj_iff.mp hget

/-! The table. -/

theorem claim_cases (t : LeaseTable) (r h : Bytes) (ttl : Duration) (now : DateTime)
    (logged : Bool) : claim t r h ttl now logged = (t, none) ∨
      ∃ l, claim t r h ttl now logged = (t.grant l, some l) ∧ l.resourceId = r ∧
        t.nextToken r = .ok l.fencingToken := by
  unfold claim
  split
  · next staged lease ha =>
    obtain ⟨-, hr, -, -, hn, rfl⟩ := acquire_eq_ok ha
    split
    · exact .inr ⟨lease, rfl, hr, hn⟩
    · exact .inl rfl
  · exact .inl rfl

/-- The durable table grants as `claim` does, by whether the event got on the log. -/
theorem acquire_claim (chrono : Chrono) (d : DurableLeaseTable) (r h : Bytes) (ttl : Duration)
    (now : DateTime) (outcome : AppendOutcome) : ∃ logged,
      ((d.acquire chrono r h ttl now outcome).1.table,
        (d.acquire chrono r h ttl now outcome).2.toOption) = claim d.table r h ttl now logged := by
  unfold DurableLeaseTable.acquire DurableLeaseTable.stageAcquire claim
  cases ha : d.table.acquire r h ttl now with
  | error e => exact ⟨false, rfl⟩
  | ok granted =>
    obtain ⟨staged, lease⟩ := granted
    simp only [pure, Except.pure, bind, Except.bind, DurableLeaseTable.commit]
    generalize d.wal.append chrono _ outcome = appended
    obtain ⟨wal, _ | _⟩ := appended
    · exact ⟨false, rfl⟩
    · exact ⟨true, rfl⟩

@[simp] theorem unclaim_watermark (t : LeaseTable) (r' h r : Bytes) (logged : Bool) :
    (unclaim t r' h logged).watermark r = t.watermark r := by
  unfold unclaim
  split
  · next staged hr =>
    obtain ⟨_, -, -, rfl⟩ := release_eq_ok hr
    split <;> simp
  · rfl

/-- A token minted is above the watermark. -/
theorem nextToken_gt {t : LeaseTable} {r : Bytes} {token w : FencingToken}
    (h : t.nextToken r = .ok token) (hw : w ∈ t.watermark r) : w < token := by
  have hval := nextToken_eq_ok.mp h
  rw [Option.mem_def.mp hw] at hval
  exact Fin.lt_def.mpr (by simp only [Option.map_some, Option.getD_some] at hval; omega)

/-! The invariant. -/

/-- The attempt a controller is in, once it has a token. -/
def Stage.task : Stage → Option Attempt
  | .claimed a | .raised a | .permit a | .joining a _ | .releasing a _ | .taking a => some a
  | .attempting _ | .lingering _ _ | .returned _ | .dropped => none

/-- The text a controller has taken. -/
def Stage.taken : Stage → Option (Nat × Bytes)
  | .lingering attempt text => some (attempt, text)
  | .returned output => output
  | _ => none

/-- Tokens are unique for each subtask and at most the watermark; commits are of texts returned. -/
structure Tokens (f : Plan) (t : LeaseTable) (h : History) : Prop where
  minted : ∀ m ∈ h.minted, m.sub < f.subtasks.length ∧
    ∃ w ∈ t.watermark (f.resource m.sub), m.token ≤ w
  unique : ∀ m ∈ h.minted, ∀ m' ∈ h.minted, m.sub = m'.sub → m.token = m'.token → m = m'
  committed : ∀ c ∈ h.committed, c.task ∈ h.minted ∧ (c.task, c.text) ∈ h.answered ∧
    ∃ high, c.highest = some high ∧ c.task.token ≤ high ∧
      ∃ w ∈ t.watermark (f.resource c.task.sub), high ≤ w

def Child.Ok (h : History) (c : Child) : Prop :=
  c.task ∈ h.minted ∧ ∀ text, c.phase = .answered text → (c.task, text) ∈ h.answered

/-- What is stored for a subtask has been committed for it. -/
def Stored (f : Plan) (h : History) (results : FarmResults) : Prop :=
  ∀ i < f.subtasks.length, ∀ g token text, results (f.subId i) = some (g, some (token, text)) →
    ∃ c ∈ h.committed, c.task.sub = i ∧ c.task.token = token ∧ c.text = text

/-- A controller in an attempt has the newest token; what it has taken is live. -/
structure Stage.Ok (f : Plan) (t : LeaseTable) (h : History) (i : Nat) (stage : Stage) : Prop where
  task : ∀ a ∈ stage.task, a ∈ h.minted ∧ a.sub = i ∧ t.watermark (f.resource i) = some a.token
  taken : ∀ attempts text, stage.taken = some (attempts, text) → h.Live i attempts text

structure Sys.Inv (f : Plan) (s : Sys) : Prop where
  length : s.controllers.length = f.subtasks.length
  tokens : Tokens f s.leases s.history
  children : ∀ c ∈ s.children, c.Ok s.history
  stored : Stored f s.history s.results
  stages : ∀ (i : Nat) (c : Controller), s.controllers[i]? = some c → c.stage.Ok f s.leases s.history i
  results : ∀ res ∈ s.outcome.results, ∃ (i : Nat) (c : Controller), s.controllers[i]? = some c ∧
    f.subId i = res.subId ∧ c.stage = .returned (some (res.attempts, res.text))
  joined : s.joined ≤ f.subtasks.length
  entries : (s.outcome.results.map (·.subId) ++ s.outcome.failed).Perm
    ((f.subtasks.take s.joined).map (·.id) ++ f.dropped)
  reclaims : s.reclaims = s.history.superseded.length
  lateFenced : s.lateFenced = s.history.rejected.length
  report : ∀ r ∈ s.report, s.joined = f.subtasks.length ∧ r.outcome.results = s.outcome.results ∧
    r.outcome.failed = s.outcome.failed ∧ r.outcome.reclaims = r.superseded ∧
    r.outcome.lateFenced = r.rejected

/-! What later events leave. -/

/-- More may have happened, but no token has been minted for the subtask. -/
structure Later (f : Plan) (i : Nat) (t t' : LeaseTable) (h h' : History) : Prop where
  watermark : t'.watermark (f.resource i) = t.watermark (f.resource i)
  minted : h.minted ⊆ h'.minted
  fresh : ∀ m ∈ h'.minted, m.sub = i → m ∈ h.minted
  answered : h.answered ⊆ h'.answered
  committed : h.committed ⊆ h'.committed

section
variable {f : Plan} {t t' : LeaseTable} {h h' : History} {i : Nat}

theorem History.Live.later {attempts : Nat} {text : Bytes} (hl : h.Live i attempts text)
    (l : Later f i t t' h h') : h'.Live i attempts text := by
  obtain ⟨a, hmem, hsub, hattempt, hans, hcom, hnew⟩ := hl
  exact ⟨a, l.minted hmem, hsub, hattempt, l.answered hans, l.committed hcom,
    fun m hm hi => hnew m (l.fresh m hm hi) hi⟩

theorem Stage.Ok.later {stage : Stage} (hs : stage.Ok f t h i) (l : Later f i t t' h h') :
    stage.Ok f t' h' i where
  task a ha := by
    obtain ⟨hmem, hsub, hw⟩ := hs.task a ha
    exact ⟨l.minted hmem, hsub, l.watermark.trans hw⟩
  taken attempts text ht := (hs.taken attempts text ht).later l

theorem Stage.Ok.of_free {stage : Stage} (ht : stage.task = none) (hx : stage.taken = none) :
    stage.Ok f t h i where
  task a ha := by
    rw [ht] at ha
    exact nomatch ha
  taken attempts text h := by
    rw [hx] at h
    exact nomatch h

theorem Stage.Ok.of_task {stage stage' : Stage} {a : Attempt} (hs : stage.Ok f t h i)
    (ha : stage.task = some a) (ha' : stage'.task = some a) (hx : stage'.taken = none) :
    stage'.Ok f t h i where
  task b hb := hs.task b (ha.trans (ha'.symm.trans hb))
  taken attempts text h := by
    rw [hx] at h
    exact nomatch h

theorem Child.Ok.later {c : Child} (hc : c.Ok h) (hm : h.minted ⊆ h'.minted)
    (ha : h.answered ⊆ h'.answered) : c.Ok h' :=
  ⟨hm hc.1, fun text ht => ha (hc.2 text ht)⟩

/-- An aborted child is as before, but for the flag. -/
theorem mem_abort {children : List Child} {guards : List Nat} {c : Child}
    (hc : c ∈ abort children guards) : ∃ c₀ ∈ children, c.task = c₀.task ∧ c.phase = c₀.phase := by
  induction guards generalizing children with
  | nil => exact ⟨c, hc, rfl, rfl⟩
  | cons g guards ih =>
    obtain ⟨c₁, hc₁, htask, hphase⟩ := ih hc
    obtain ⟨k, hk⟩ := List.mem_iff_getElem?.mp hc₁
    rw [List.getElem?_modify] at hk
    obtain ⟨c₀, hc₀, he⟩ := Option.map_eq_some_iff.mp hk
    refine ⟨c₀, List.mem_of_getElem? hc₀, ?_⟩
    rw [htask, hphase, ← he]
    split <;> exact ⟨rfl, rfl⟩

theorem abort_ok {children : List Child} (hc : ∀ c ∈ children, c.Ok h) (guards : List Nat) :
    ∀ c ∈ abort children guards, c.Ok h := by
  intro c hmem
  obtain ⟨c₀, hmem₀, htask, hphase⟩ := mem_abort hmem
  unfold Child.Ok
  rw [htask, hphase]
  exact hc c₀ hmem₀

theorem set_ok {children : List Child} {k : Nat} {c : Child} (hcs : ∀ d ∈ children, d.Ok h)
    (hc : c.Ok h) : ∀ d ∈ children.set k c, d.Ok h := by
  intro d hmem
  rcases List.mem_or_eq_of_mem_set hmem with hmem | rfl
  · exact hcs d hmem
  · exact hc

/-! The steps. -/

variable {s s' : Sys}

/-- Nothing has happened. -/
theorem Later.refl : Later f i t t h h :=
  ⟨rfl, List.Subset.refl _, fun _ hm _ => hm, List.Subset.refl _, List.Subset.refl _⟩

/-- A controller that has not returned moves on. -/
theorem Sys.Inv.move (hs : s.Inv f) {c c' : Controller} (hc : s.controllers[i]? = some c)
    (hout : ∀ output, c.stage ≠ .returned output)
    (hcontrollers : s'.controllers = s.controllers.set i c') (hjoined : s'.joined = s.joined)
    (houtcome : s'.outcome = s.outcome) (hreport : s'.report = s.report)
    (htokens : Tokens f s'.leases s'.history) (hchildren : ∀ c ∈ s'.children, c.Ok s'.history)
    (hstored : Stored f s'.history s'.results) (hstage : c'.stage.Ok f s'.leases s'.history i)
    (hlater : ∀ j < f.subtasks.length, j ≠ i → Later f j s.leases s'.leases s.history s'.history)
    (hreclaims : s'.reclaims = s'.history.superseded.length)
    (hlate : s'.lateFenced = s'.history.rejected.length) : s'.Inv f where
  length := by rw [hcontrollers, List.length_set, hs.length]
  tokens := htokens
  children := hchildren
  stored := hstored
  stages j d hd := by
    rw [hcontrollers, List.getElem?_set] at hd
    split at hd
    · next hij =>
      split at hd
      · obtain rfl := Option.some.inj hd
        exact hij ▸ hstage
      · exact nomatch hd
    · next hij =>
      have hj : j < f.subtasks.length := hs.length ▸ (List.getElem?_eq_some_iff.mp hd).1
      exact (hs.stages j d hd).later (hlater j hj (Ne.symm hij))
  results res hres := by
    rw [houtcome] at hres
    obtain ⟨j, d, hd, hid, hstage⟩ := hs.results res hres
    have hij : i ≠ j := by
      rintro rfl
      obtain rfl := Option.some.inj (hc.symm.trans hd)
      exact hout _ hstage
    refine ⟨j, d, ?_, hid, hstage⟩
    rw [hcontrollers, List.getElem?_set_ne hij]
    exact hd
  joined := hjoined ▸ hs.joined
  entries := by
    rw [houtcome, hjoined]
    exact hs.entries
  reclaims := hreclaims
  lateFenced := hlate
  report r hr := by
    rw [hjoined, houtcome]
    exact hs.report r (hreport ▸ hr)

/-- Something happens, but no controller moves. -/
theorem Sys.Inv.steady (hs : s.Inv f) (hcontrollers : s'.controllers = s.controllers)
    (hjoined : s'.joined = s.joined) (houtcome : s'.outcome = s.outcome)
    (hreport : s'.report = s.report) (htokens : Tokens f s'.leases s'.history)
    (hchildren : ∀ c ∈ s'.children, c.Ok s'.history) (hstored : Stored f s'.history s'.results)
    (hlater : ∀ j < f.subtasks.length, Later f j s.leases s'.leases s.history s'.history)
    (hreclaims : s'.reclaims = s'.history.superseded.length)
    (hlate : s'.lateFenced = s'.history.rejected.length) : s'.Inv f where
  length := hcontrollers ▸ hs.length
  tokens := htokens
  children := hchildren
  stored := hstored
  stages j d hd := by
    rw [hcontrollers] at hd
    exact (hs.stages j d hd).later (hlater j (hs.length ▸ (List.getElem?_eq_some_iff.mp hd).1))
  results res hres := by
    rw [houtcome] at hres
    rw [hcontrollers]
    exact hs.results res hres
  joined := hjoined ▸ hs.joined
  entries := by
    rw [houtcome, hjoined]
    exact hs.entries
  reclaims := hreclaims
  lateFenced := hlate
  report r hr := by
    rw [hjoined, houtcome]
    exact hs.report r (hreport ▸ hr)

theorem Sys.Inv.leave (hs : s.Inv f) {c : Controller} (hc : s.controllers[i]? = some c)
    (hout : ∀ output, c.stage ≠ .returned output) {stage : Stage}
    (hstage : stage.Ok f s.leases s.history i) : (s.leave i c stage).Inv f :=
  hs.move hc hout rfl rfl rfl rfl hs.tokens (abort_ok hs.children _) hs.stored hstage
    (fun _ _ _ => .refl) hs.reclaims hs.lateFenced

theorem Tokens.same (ht : Tokens f t h)
    (hw : ∀ i < f.subtasks.length, t'.watermark (f.resource i) = t.watermark (f.resource i)) :
    Tokens f t' h where
  minted m hm := by
    obtain ⟨hlt, hle⟩ := ht.minted m hm
    exact ⟨hlt, hw m.sub hlt ▸ hle⟩
  unique := ht.unique
  committed c hc := by
    obtain ⟨hmem, hans, high, he, hle, hw'⟩ := ht.committed c hc
    exact ⟨hmem, hans, high, he, hle, hw c.task.sub (ht.minted _ hmem).1 ▸ hw'⟩

/-- The history with a token minted. -/
def History.mint (h : History) (a : Attempt) : History := { h with minted := h.minted ++ [a] }

theorem Tokens.mint (ht : Tokens f t h) (hi : i < f.subtasks.length) (attempt : Nat) {l : Lease}
    (hr : l.resourceId = f.resource i) (hn : t.nextToken (f.resource i) = .ok l.fencingToken) :
    Tokens f (t.grant l) (h.mint ⟨i, attempt, l.fencingToken⟩) := by
  have hgrow : ∀ j, ∀ w ∈ t.watermark (f.resource j),
      ∃ w' ∈ (t.grant l).watermark (f.resource j), w ≤ w' := by
    intro j w hw
    rw [grant_watermark, hr]
    split
    · next hj =>
      obtain rfl := f.resource_inj hj
      exact ⟨_, rfl, (nextToken_gt hn hw).le⟩
    · exact ⟨w, hw, le_rfl⟩
  have hnew : ∀ m ∈ h.minted, m.sub = i → m.token ≠ l.fencingToken := by
    rintro m hm rfl he
    obtain ⟨-, w, hw, hle⟩ := ht.minted m hm
    exact absurd (nextToken_gt hn hw) (not_lt.mpr (he ▸ hle))
  refine ⟨fun m hm => ?_, fun m hm m' hm' hsub htok => ?_, fun c hc => ?_⟩
  · rcases List.mem_append.mp hm with hm | hm
    · obtain ⟨hlt, w, hw, hle⟩ := ht.minted m hm
      obtain ⟨w', hw', hle'⟩ := hgrow m.sub w hw
      exact ⟨hlt, w', hw', hle.trans hle'⟩
    · obtain rfl := List.mem_singleton.mp hm
      exact ⟨hi, _, by simp [hr], le_rfl⟩
  · rcases List.mem_append.mp hm with hm | hm <;> rcases List.mem_append.mp hm' with hm' | hm'
    · exact ht.unique m hm m' hm' hsub htok
    · obtain rfl := List.mem_singleton.mp hm'
      exact absurd htok (hnew m hm hsub)
    · obtain rfl := List.mem_singleton.mp hm
      exact absurd htok.symm (hnew m' hm' hsub.symm)
    · exact (List.mem_singleton.mp hm).trans (List.mem_singleton.mp hm').symm
  · obtain ⟨hmem, hans, high, he, hle, w, hw, hle'⟩ := ht.committed c hc
    obtain ⟨w', hw', hww⟩ := hgrow c.task.sub w hw
    exact ⟨List.mem_append_left _ hmem, hans, high, he, hle, w', hw', hle'.trans hww⟩

theorem Sys.Inv.attempt (hs : s.Inv f) {c : Controller} (hc : s.controllers[i]? = some c)
    {k : Nat} (hstage : c.stage = .attempting k) (isolated : Bool) (now : DateTime) (logged : Bool) :
    (s.attempt f i c k isolated now logged).Inv f := by
  have hout : ∀ output, c.stage ≠ .returned output := by simp [hstage]
  have hi : i < f.subtasks.length := hs.length ▸ (List.getElem?_eq_some_iff.mp hc).1
  unfold Sys.attempt
  split
  · exact hs.leave hc hout (.of_free rfl rfl)
  · split
    · exact hs.leave hc hout (.of_free rfl rfl)
    · obtain he | ⟨l, he, hr, hn⟩ :=
        claim_cases s.leases (f.resource i) (f.holder k) f.caps.subtaskTtl now logged <;> rw [he]
      · exact hs.leave hc hout (.of_free rfl rfl)
      · have hmint := hs.tokens.mint hi k hr hn
        have hsub : s.history.minted ⊆ (s.history.mint ⟨i, k, l.fencingToken⟩).minted :=
          List.subset_append_left _ _
        refine hs.move hc hout rfl rfl rfl rfl hmint
          (fun d hd => (hs.children d hd).later hsub (List.Subset.refl _)) hs.stored
          ⟨fun a ha => ?_, fun _ _ ht => nomatch ht⟩ (fun j hj hij => ?_) hs.reclaims hs.lateFenced
        · obtain rfl := Option.some.inj ha
          exact ⟨List.mem_append_right _ (List.mem_singleton_self _), rfl, by simp [hr]⟩
        · refine ⟨?_, hsub, fun m hm hmj => ?_, List.Subset.refl _, List.Subset.refl _⟩
          · rw [grant_watermark, hr, if_neg fun he => hij (f.resource_inj he)]
          · refine (List.mem_append.mp hm).resolve_right fun hm => hij ?_
            rw [← hmj, List.mem_singleton.mp hm]

/-- An entry keeps what it stores under another guard. -/
theorem Stored.guard {results : FarmResults} (hst : Stored f h results) (subId : Bytes)
    (guard : FencedResource) :
    Stored f h (Function.update results subId (some (guard, (results.entry subId).2))) := by
  intro j hj g tok text hres
  rw [Function.update_apply] at hres
  split at hres
  · next he =>
    rw [Option.some.injEq, Prod.mk.injEq] at hres
    cases hold : results subId with
    | none =>
      simp only [FarmResults.entry, hold, Option.getD_none] at hres
      exact nomatch hres.2
    | some entry =>
      simp only [FarmResults.entry, hold, Option.getD_some] at hres
      exact hst j hj entry.1 tok text (by rw [he, hold, ← hres.2])
  · exact hst j hj g tok text hres

/-- What is committed is stored. -/
theorem Stored.commit {results : FarmResults} (hst : Stored f h results)
    (hnodup : (f.subtasks.map (·.id)).Nodup) {c : Commit} (hi : c.task.sub < f.subtasks.length)
    (guard : FencedResource) : Stored f { h with committed := h.committed ++ [c] }
      (Function.update results (f.subId c.task.sub)
        (some (guard, some (c.task.token, c.text)))) := by
  intro j hj g tok text hres
  rw [Function.update_apply] at hres
  split at hres
  · next hid =>
    obtain rfl := f.subId_inj hnodup hj hi hid
    simp only [Option.some.injEq, Prod.mk.injEq] at hres
    obtain ⟨-, rfl, rfl⟩ := hres
    exact ⟨c, List.mem_append_right _ (List.mem_singleton_self _), rfl, rfl, rfl⟩
  · obtain ⟨d, hd, hfacts⟩ := hst j hj g tok text hres
    exact ⟨d, List.mem_append_left _ hd, hfacts⟩

theorem Sys.Inv.count (hs : s.Inv f) {c : Controller} (hc : s.controllers[i]? = some c)
    {a : Attempt} (hstage : c.stage = .raised a) (hm : s.MeetsCount c) :
    (s.count f i c a).Inv f := by
  have hout : ∀ output, c.stage ≠ .returned output := by simp [hstage]
  have hok : (Stage.permit a).Ok f s.leases s.history i :=
    (hs.stages i c hc).of_task (by rw [hstage]; rfl) rfl rfl
  unfold Sys.count
  split
  · next hlt =>
    unfold Sys.MeetsCount at hm
    rw [hstage] at hm
    obtain ⟨hstalled, hwrap⟩ := hm hlt
    have hone : (s.stalledBefore c a.attempt).length = 1 := by
      refine le_antisymm ?_ (List.length_pos_iff.mpr hstalled)
      refine (List.length_filter_le _ _).trans ?_
      rw [List.length_map]
      cases c.stalled.bind (s.children[·]?) <;> simp
    have hreclaims : fetchAdd s.reclaims =
        (s.history.superseded ++ s.stalledBefore c a.attempt).length := by
      rw [List.length_append, hone, ← hs.reclaims]
      exact Nat.mod_eq_of_lt hwrap
    refine hs.move hc hout rfl rfl rfl rfl
      ⟨hs.tokens.minted, hs.tokens.unique, hs.tokens.committed⟩ ?_ hs.stored ⟨hok.task, hok.taken⟩
      (fun _ _ _ => ⟨rfl, List.Subset.refl _, fun _ hm _ => hm, List.Subset.refl _,
        List.Subset.refl _⟩) hreclaims hs.lateFenced
    intro d hd
    dsimp only at hd
    split at hd
    · exact abort_ok hs.children _ d hd
    · exact hs.children d hd
  · exact hs.move hc hout rfl rfl rfl rfl hs.tokens hs.children hs.stored hok (fun _ _ _ => .refl)
      hs.reclaims hs.lateFenced

/-- The text a controller takes under its own token is live. -/
theorem Tokens.live (ht : Tokens f t h) {results : FarmResults} (hst : Stored f h results)
    {a : Attempt} {text : Bytes} (hi : i < f.subtasks.length)
    (ha : a ∈ h.minted ∧ a.sub = i ∧ t.watermark (f.resource i) = some a.token)
    {g : FencedResource} (hres : results (f.subId i) = some (g, some (a.token, text))) :
    h.Live i a.attempt text := by
  obtain ⟨hmem, hsub, hw⟩ := ha
  obtain ⟨⟨task, text', highest⟩, hcom, hcsub, hctok, htext⟩ := hst i hi g a.token text hres
  obtain ⟨hcmem, hans, high, hhigh, hle, w, hw', hle'⟩ := ht.committed _ hcom
  dsimp only at hcsub hctok htext hcmem hans hhigh hle hw' hle'
  obtain rfl : task = a := ht.unique task hcmem a hmem (hcsub.trans hsub.symm) hctok
  subst htext hhigh
  have hwa : w = task.token := by
    rw [hcsub, hw] at hw'
    exact (Option.some.inj hw').symm
  have hhigh : high = task.token := le_antisymm (hle'.trans hwa.le) hle
  refine ⟨task, hmem, hsub, rfl, hans, hhigh ▸ hcom, fun m hm hmi => ?_⟩
  obtain ⟨-, w', hmw, hmle⟩ := ht.minted m hm
  rw [hmi, hw] at hmw
  exact hmle.trans (Option.some.inj hmw).ge

theorem takeIfToken_cases (r : FarmResults) (subId : Bytes) (token : FencingToken) :
    r.takeIfToken subId token = (r, none) ∨ ∃ g text, r subId = some (g, some (token, text)) ∧
      r.takeIfToken subId token = (Function.update r subId (some (g, none)), some text) := by
  unfold FarmResults.takeIfToken
  split
  · next g tok text hres =>
    split
    · next he => exact .inr ⟨g, text, he ▸ hres, rfl⟩
    · exact .inl rfl
  · exact .inl rfl

theorem Stored.taken {results : FarmResults} (hst : Stored f h results) (subId : Bytes)
    (g : FencedResource) : Stored f h (Function.update results subId (some (g, none))) := by
  intro j hj g' tok text hres
  rw [Function.update_apply] at hres
  split at hres
  · exact nomatch hres
  · exact hst j hj g' tok text hres

theorem Sys.Inv.take (hs : s.Inv f) {c : Controller} (hc : s.controllers[i]? = some c)
    {a : Attempt} (hstage : c.stage = .taking a) : (s.take f i c a).Inv f := by
  have hout : ∀ output, c.stage ≠ .returned output := by simp [hstage]
  have hi : i < f.subtasks.length := hs.length ▸ (List.getElem?_eq_some_iff.mp hc).1
  have htask := (hs.stages i c hc).task a (by rw [hstage]; rfl)
  unfold Sys.take
  obtain he | ⟨g, text, hres, he⟩ := takeIfToken_cases s.results (f.subId i) a.token <;> rw [he]
  · exact hs.move hc hout rfl rfl rfl rfl hs.tokens hs.children hs.stored (.of_free rfl rfl)
      (fun _ _ _ => .refl) hs.reclaims hs.lateFenced
  · have hlive := hs.tokens.live hs.stored hi htask hres
    dsimp only
    split
    · refine hs.move hc hout rfl rfl rfl rfl hs.tokens hs.children (hs.stored.taken _ g)
        ⟨fun _ ht => (nomatch ht), fun k text' ht => ?_⟩ (fun _ _ _ => .refl) hs.reclaims
        hs.lateFenced
      obtain ⟨rfl, rfl⟩ := Prod.mk.inj (Option.some.inj ht)
      exact hlive
    · refine hs.move hc hout rfl rfl rfl rfl hs.tokens (abort_ok hs.children _)
        (hs.stored.taken _ g) ⟨fun _ ht => (nomatch ht), fun k text' ht => ?_⟩
        (fun _ _ _ => .refl) hs.reclaims hs.lateFenced
      obtain ⟨rfl, rfl⟩ := Prod.mk.inj (Option.some.inj ht)
      exact hlive

theorem Sys.Inv.spawn (hs : s.Inv f) {c : Controller} (hc : s.controllers[i]? = some c)
    {a : Attempt} (hstage : c.stage = .permit a) : (s.spawn f i c a).Inv f := by
  have hout : ∀ output, c.stage ≠ .returned output := by simp [hstage]
  have hstages := hs.stages i c hc
  unfold Sys.spawn
  split
  · refine hs.move hc hout rfl rfl rfl rfl hs.tokens (fun d hd => ?_) hs.stored
      (hstages.of_task (by rw [hstage]; rfl) rfl rfl) (fun _ _ _ => .refl) hs.reclaims hs.lateFenced
    rcases List.mem_append.mp hd with hd | hd
    · exact hs.children d hd
    · obtain rfl := List.mem_singleton.mp hd
      exact ⟨(hstages.task a (by rw [hstage]; rfl)).1, fun _ h => nomatch h⟩
  · exact hs

theorem Sys.Inv.join (hs : s.Inv f) {c : Controller} (hc : s.controllers[i]? = some c)
    {a : Attempt} {child : Nat} (hstage : c.stage = .joining a child) :
    (s.join i c a child).Inv f := by
  have hout : ∀ output, c.stage ≠ .returned output := by simp [hstage]
  unfold Sys.join
  split
  · exact hs.move hc hout rfl rfl rfl rfl hs.tokens hs.children hs.stored
      ((hs.stages i c hc).of_task (by rw [hstage]; rfl) rfl rfl) (fun _ _ _ => .refl) hs.reclaims
      hs.lateFenced
  · exact hs

theorem Sys.Inv.release (hs : s.Inv f) {c : Controller} (hc : s.controllers[i]? = some c)
    {a : Attempt} {committed : Bool} (hstage : c.stage = .releasing a committed) (logged : Bool) :
    (s.release f i c a committed logged).Inv f := by
  have hout : ∀ output, c.stage ≠ .returned output := by simp [hstage]
  have hlater : ∀ j, Later f j s.leases
      (unclaim s.leases (f.resource i) (f.holder a.attempt) logged) s.history s.history :=
    fun j => ⟨unclaim_watermark _ _ _ _ _, List.Subset.refl _, fun _ hm _ => hm,
      List.Subset.refl _, List.Subset.refl _⟩
  have hstages := (hs.stages i c hc).later (hlater i)
  refine hs.move hc hout rfl rfl rfl rfl (hs.tokens.same fun _ _ => unclaim_watermark _ _ _ _ _)
    hs.children hs.stored ?_ (fun j _ _ => hlater j) hs.reclaims hs.lateFenced
  cases committed with
  | true => exact hstages.of_task (by rw [hstage]; rfl) rfl rfl
  | false => exact .of_free rfl rfl

theorem Sys.Inv.answer (hs : s.Inv f) {k : Nat} {c : Child} (hc : s.children[k]? = some c)
    (text : Option Bytes) : (s.answer k c text).Inv f := by
  obtain ⟨hminted, -⟩ := hs.children c (List.mem_of_getElem? hc)
  cases text with
  | none =>
    exact hs.steady rfl rfl rfl rfl hs.tokens
      (set_ok hs.children ⟨hminted, fun _ h => nomatch h⟩) hs.stored (fun _ _ => .refl) hs.reclaims
      hs.lateFenced
  | some text =>
    have hsub : s.history.answered ⊆ s.history.answered ++ [(c.task, text)] :=
      List.subset_append_left _ _
    refine hs.steady rfl rfl rfl rfl ⟨hs.tokens.minted, hs.tokens.unique, fun d hd => ?_⟩
      (set_ok (fun d hd => (hs.children d hd).later (List.Subset.refl _) hsub) ⟨hminted, ?_⟩)
      hs.stored (fun _ _ => ⟨rfl, List.Subset.refl _, fun _ hm _ => hm, hsub, List.Subset.refl _⟩)
      hs.reclaims hs.lateFenced
    · obtain ⟨hmem, hans, hhigh⟩ := hs.tokens.committed d hd
      exact ⟨hmem, hsub hans, hhigh⟩
    · rintro text' ⟨⟩
      exact List.mem_append_right _ (List.mem_singleton_self _)

theorem commit_cases (r : FarmResults) (subId : Bytes) (token : FencingToken) (text : Bytes) :
    (∃ g, r.commit subId token text =
      (Function.update r subId (some (g, some (token, text))), true)) ∨
    ∃ g, r.commit subId token text =
      (Function.update r subId (some (g, (r.entry subId).2)), false) := by
  simp only [FarmResults.commit]
  obtain ⟨_, _, _, he⟩ | ⟨_, he⟩ := accept_cases (r.entry subId).1 token <;> rw [he]
  · exact .inr ⟨_, rfl⟩
  · exact .inl ⟨_, rfl⟩

theorem Sys.Inv.commit (hs : s.Inv f) (hnodup : (f.subtasks.map (·.id)).Nodup) {k : Nat} {c : Child}
    (hc : s.children[k]? = some c) {text : Bytes} (hphase : c.phase = .answered text)
    (hwrap : s.lateFenced + 1 < 2^32) : (s.commit f k c text).Inv f := by
  obtain ⟨hminted, hans⟩ := hs.children c (List.mem_of_getElem? hc)
  obtain ⟨hlt, w, hw, hle⟩ := hs.tokens.minted c.task hminted
  unfold Sys.commit
  dsimp only
  obtain ⟨g, he⟩ | ⟨g, he⟩ := commit_cases s.results (f.subId c.task.sub) c.task.token text <;>
    simp only [he]
  · have hsub : s.history.committed ⊆ s.history.committed ++
        [⟨c.task, text, s.leases.watermark (f.resource c.task.sub)⟩] := List.subset_append_left _ _
    refine hs.steady rfl rfl rfl rfl ⟨hs.tokens.minted, hs.tokens.unique, fun d hd => ?_⟩
      (set_ok hs.children ⟨hminted, fun _ h => nomatch h⟩)
      (hs.stored.commit (c := ⟨c.task, text, _⟩) hnodup hlt g)
      (fun _ _ => ⟨rfl, List.Subset.refl _, fun _ hm _ => hm, List.Subset.refl _, hsub⟩)
      hs.reclaims hs.lateFenced
    rcases List.mem_append.mp hd with hd | hd
    · exact hs.tokens.committed d hd
    · obtain rfl := List.mem_singleton.mp hd
      exact ⟨hminted, hans text hphase, w, hw, hle, w, hw, le_rfl⟩
  · have hlate : fetchAdd s.lateFenced = (s.history.rejected ++ [c.task]).length := by
      rw [List.length_append, List.length_singleton, ← hs.lateFenced]
      exact Nat.mod_eq_of_lt hwrap
    exact hs.steady rfl rfl rfl rfl
      ⟨hs.tokens.minted, hs.tokens.unique, hs.tokens.committed⟩
      (set_ok hs.children ⟨hminted, fun _ h => nomatch h⟩) (hs.stored.guard _ g)
      (fun _ _ => ⟨rfl, List.Subset.refl _, fun _ hm _ => hm, List.Subset.refl _,
        List.Subset.refl _⟩) hs.reclaims hlate

/-! The join. -/

private theorem perm_result {α : Type} {a b c d : List α} (x : α) (h : (a ++ b).Perm (c ++ d)) :
    ((a ++ [x]) ++ b).Perm ((c ++ [x]) ++ d) := by
  rw [List.append_assoc, List.append_assoc]
  exact List.perm_middle.trans ((h.cons x).trans List.perm_middle.symm)

private theorem perm_failed {α : Type} {a b c d : List α} (x : α) (h : (a ++ b).Perm (c ++ d)) :
    (a ++ (b ++ [x])).Perm ((c ++ [x]) ++ d) := by
  rw [← List.append_assoc, List.append_assoc c]
  exact (List.perm_append_singleton x _).trans ((h.cons x).trans List.perm_middle.symm)

/-- The ids joined so far, and the next one. -/
theorem Plan.take_subId {k : Nat} (hk : k < f.subtasks.length) :
    (f.subtasks.take (k + 1)).map (·.id) = (f.subtasks.take k).map (·.id) ++ [f.subId k] := by
  rw [List.take_succ_eq_append_getElem hk, List.map_append, Plan.subId,
    List.getElem?_eq_getElem hk]
  rfl

theorem Sys.Inv.collect (hs : s.Inv f) {c : Controller} (hc : s.controllers[s.joined]? = some c)
    {output : Option (Nat × Bytes)} (hstage : c.stage = .returned output) :
    (s.collect f output).Inv f := by
  have hlt : s.joined < f.subtasks.length := hs.length ▸ (List.getElem?_eq_some_iff.mp hc).1
  refine ⟨hs.length, hs.tokens, hs.children, hs.stored, hs.stages, ?_, hlt, ?_, hs.reclaims,
    hs.lateFenced, fun r hr => absurd (hs.report r hr).1 hlt.ne⟩
  · intro res hres
    cases output with
    | none => exact hs.results res hres
    | some output =>
      rcases List.mem_append.mp hres with hres | hres
      · exact hs.results res hres
      · obtain rfl := List.mem_singleton.mp hres
        exact ⟨s.joined, c, hc, rfl, hstage⟩
  · change List.Perm _ ((f.subtasks.take (s.joined + 1)).map (·.id) ++ f.dropped)
    rw [f.take_subId hlt]
    cases output with
    | none => exact perm_failed _ hs.entries
    | some output =>
      simp only [Sys.collect, List.map_append, List.map_singleton]
      exact perm_result _ hs.entries

theorem Sys.Inv.cut (hs : s.Inv f) {c : Controller} (hc : s.controllers[s.joined]? = some c)
    (hout : ∀ output, c.stage ≠ .returned output) : (s.cut f c).Inv f := by
  have hlt : s.joined < f.subtasks.length := hs.length ▸ (List.getElem?_eq_some_iff.mp hc).1
  have hmove : Sys.Inv f { s with
      controllers := s.controllers.set s.joined { c with aborted := true } } :=
    hs.move hc hout rfl rfl rfl rfl hs.tokens hs.children hs.stored (hs.stages _ c hc)
      (fun _ _ _ => .refl) hs.reclaims hs.lateFenced
  refine ⟨hmove.length, hs.tokens, hs.children, hs.stored, hmove.stages, hmove.results, hlt, ?_,
    hs.reclaims, hs.lateFenced, fun r hr => absurd (hs.report r hr).1 hlt.ne⟩
  change List.Perm _ ((f.subtasks.take (s.joined + 1)).map (·.id) ++ f.dropped)
  rw [f.take_subId hlt]
  exact perm_failed _ hs.entries

theorem Sys.Inv.finish (hs : s.Inv f) : s.finish.Inv f := by
  unfold Sys.finish
  split
  · next h =>
    refine ⟨hs.length, hs.tokens, hs.children, hs.stored, hs.stages, hs.results, hs.joined,
      hs.entries, hs.reclaims, hs.lateFenced, ?_⟩
    rintro r ⟨⟩
    exact ⟨h.1.trans hs.length, rfl, rfl, hs.reclaims, hs.lateFenced⟩
  · exact hs

/-! Runs. -/

theorem Sys.Inv.controller (hs : s.Inv f) {step : Controller → Stage → Sys}
    (h : ∀ c, s.controllers[i]? = some c → (step c c.stage).Inv f) : (s.controller i step).Inv f := by
  unfold Sys.controller
  split
  · next c hc => exact h c hc
  · exact hs

theorem Sys.Inv.child (hs : s.Inv f) {step : Child → Phase → Sys}
    (h : ∀ c, s.children[i]? = some c → (step c c.phase).Inv f) : (s.child i step).Inv f := by
  unfold Sys.child
  split
  · next c hc => exact h c hc
  · exact hs

theorem Sys.Inv.step (hs : s.Inv f) (hnodup : (f.subtasks.map (·.id)).Nodup) (act : Act)
    (hm : s.Meets f act) : (s.step f act).Inv f := by
  unfold Sys.step
  cases act with
  | attempt i isolated now logged =>
    refine hs.controller fun c hc => ?_
    split
    · next k hstage => exact hs.attempt hc hstage isolated now logged
    · exact hs
  | raiseFence i =>
    refine hs.controller fun c hc => ?_
    split
    · next a hstage =>
      exact hs.move hc (by simp [hstage]) rfl rfl rfl rfl hs.tokens hs.children
        (hs.stored.guard _ _) ((hs.stages i c hc).of_task (by rw [hstage]; rfl) rfl rfl)
        (fun _ _ _ => .refl) hs.reclaims hs.lateFenced
    · exact hs
  | count i =>
    refine hs.controller fun c hc => ?_
    split
    · next a hstage => exact hs.count hc hstage (hm c hc)
    · exact hs
  | spawn i =>
    refine hs.controller fun c hc => ?_
    split
    · next a hstage => exact hs.spawn hc hstage
    · exact hs
  | join i =>
    refine hs.controller fun c hc => ?_
    split
    · next a child hstage => exact hs.join hc hstage
    · exact hs
  | stall i =>
    refine hs.controller fun c hc => ?_
    split
    · next a child hstage =>
      exact hs.move hc (by simp [hstage]) rfl rfl rfl rfl hs.tokens (abort_ok hs.children _)
        hs.stored (.of_free rfl rfl) (fun _ _ _ => .refl) hs.reclaims hs.lateFenced
    · exact hs
  | release i logged =>
    refine hs.controller fun c hc => ?_
    split
    · next a committed hstage => exact hs.release hc hstage logged
    · exact hs
  | take i =>
    refine hs.controller fun c hc => ?_
    split
    · next a hstage => exact hs.take hc hstage
    · exact hs
  | linger i =>
    refine hs.controller fun c hc => ?_
    split
    · next attempt text hstage =>
      refine hs.leave hc (by simp [hstage]) ⟨fun _ h => (nomatch h), fun k text' ht => ?_⟩
      exact (hs.stages i c hc).taken k text' (by rw [hstage]; exact ht)
    · exact hs
  | drop i =>
    refine hs.controller fun c hc => ?_
    split
    · exact hs
    · next hstage =>
      split
      · exact hs.leave hc (fun output he => hstage output he) (.of_free rfl rfl)
      · exact hs
  | answer k text =>
    refine hs.child fun c hc => ?_
    split
    · exact hs.answer hc text
    · exact hs
  | commit k =>
    refine hs.child fun c hc => ?_
    split
    · next text hphase => exact hs.commit hnodup hc hphase hm
    · exact hs
  | cancel k =>
    refine hs.child fun c hc => ?_
    split
    · exact hs
    · split
      · exact hs.answer hc none
      · exact hs
  | collect =>
    refine hs.controller fun c hc => ?_
    split
    · next output hstage => exact hs.collect hc hstage
    · exact hs
  | deadline =>
    refine hs.controller fun c hc => ?_
    split
    · exact hs
    · next hstage => exact hs.cut hc fun output he => hstage output he
  | finish => exact hs.finish
  | other call =>
    exact hs.steady rfl rfl rfl rfl (hs.tokens.same hm) hs.children hs.stored
      (fun j hj => ⟨hm j hj, List.Subset.refl _, fun _ hm _ => hm, List.Subset.refl _,
        List.Subset.refl _⟩) hs.reclaims hs.lateFenced

theorem Sys.Inv.start (f : Plan) (leases : LeaseTable) : (Sys.start f leases).Inv f where
  length := List.length_map _
  tokens := ⟨fun _ h => (nomatch h), fun _ h => (nomatch h), fun _ h => nomatch h⟩
  children _ h := nomatch h
  stored _ _ _ _ _ h := nomatch h
  stages i c hc := by
    obtain ⟨_, -, rfl⟩ := List.mem_map.mp (List.mem_of_getElem? hc)
    exact .of_free rfl rfl
  results _ h := nomatch h
  joined := Nat.zero_le _
  entries := .refl _
  reclaims := rfl
  lateFenced := rfl
  report _ h := nomatch h

end

/-- In every run whose steps meet the condition the report is true. -/
theorem report_truthful {tenureHolder : Bytes} {spec : FarmSpec} {caps : FarmCaps}
    {leases : LeaseTable} {s : Sys} (hspec : spec.subtasks.length ≤ maxSubtasks)
    (h : (run (.new tenureHolder spec caps) leases).Runs
      (Sys.Meets (.new tenureHolder spec caps)) s) :
    ∀ r ∈ s.report, s.Truthful spec (.new tenureHolder spec caps) r := by
  intro r hr
  have hinv := h.invariant (I := Sys.Inv (.new tenureHolder spec caps)) (.start _ _)
    fun _ act hs hm => hs.step (distinct_nodup [] _).1 act hm
  obtain ⟨hjoined, hresults, hfailed, hreclaims, hlate⟩ := hinv.report r hr
  refine ⟨fun res hres => ?_, ?_, hreclaims, hlate⟩
  · obtain ⟨i, c, hc, hid, hstage⟩ := hinv.results res (hresults ▸ hres)
    exact ⟨i, hinv.length ▸ (List.getElem?_eq_some_iff.mp hc).1, hid,
      (hinv.stages i c hc).taken _ _ (by rw [hstage]; rfl)⟩
  · rw [hresults, hfailed]
    refine hinv.entries.trans ?_
    rw [hjoined, List.take_length]
    have hperm := distinct_perm [] (spec.subtasks.take maxSubtasks)
    rw [List.take_of_length_le hspec] at hperm
    simp only [Plan.new, List.take_of_length_le hspec]
    exact hperm

/-- Two attempts of ten seconds; a reclaimed child is left to run. -/
def sampleCaps : FarmCaps := ⟨3, 2, ⟨10, 0⟩, false⟩

def sampleSpec (ids : List String) : FarmSpec :=
  ⟨"f1".toList, ids.map fun id => ⟨ascii id, ascii "prompt"⟩⟩

def samplePlan (ids : List String) : Plan := .new (ascii "tenure") (sampleSpec ids) sampleCaps

def sampleStart : DateTime := .epoch

/-- When the first lease has expired. -/
def sampleExpiry : DateTime := ⟨10000000000, by decide, by decide⟩

/-- The first controller begins an attempt. -/
def sampleAttempt (now : DateTime) : List Act :=
  [.attempt 0 false now true, .raiseFence 0, .count 0, .spawn 0]

/-- The child of the first controller has ended; its text is taken. -/
def sampleTake : List Act := [.join 0, .release 0 true, .take 0]

/-- The first child stalls and commits after it was superseded. -/
def stalledRun : List Act :=
  sampleAttempt sampleStart ++ [.stall 0] ++ sampleAttempt sampleExpiry ++
    [.answer 0 (some (ascii "late")), .commit 0, .answer 1 (some (ascii "text")), .commit 1] ++
    sampleTake ++ [.linger 0, .collect, .finish]

theorem report_truthful_sample : ∃ s r, (run (samplePlan ["a", "a"]) .new).Runs
    (Sys.Meets (samplePlan ["a", "a"])) s ∧ r ∈ s.report ∧
    s.Truthful (sampleSpec ["a", "a"]) (samplePlan ["a", "a"]) r ∧
    r = ⟨⟨[⟨ascii "a", ascii "text", 2⟩], [ascii "a"], 1, 1⟩, 1, 1⟩ := by
  have hrun : ((run (samplePlan ["a", "a"]) .new).follow
      (fun s act => decide (s.Meets (samplePlan ["a", "a"]) act)) (.start (samplePlan ["a", "a"]) .new)
      stalledRun).map Sys.report =
      some (some ⟨⟨[⟨ascii "a", ascii "text", 2⟩], [ascii "a"], 1, 1⟩, 1, 1⟩) := by
    decide +kernel
  obtain ⟨s, hs, hreport⟩ := Option.map_eq_some_iff.mp hrun
  have hruns : (run (samplePlan ["a", "a"]) .new).Runs (Sys.Meets (samplePlan ["a", "a"])) s :=
    .follow (fun _ _ hc => of_decide_eq_true hc) .start hs
  exact ⟨s, _, hruns, hreport, report_truthful (by decide) hruns _ hreport, rfl⟩

/-- The first child fails; the attempt after it is no reclaim. -/
def retriedRun : List Act :=
  sampleAttempt sampleStart ++ [.answer 0 none, .join 0, .release 0 true] ++
    sampleAttempt sampleStart ++ [.answer 1 (some (ascii "text")), .commit 1] ++ sampleTake ++
    [.collect, .finish]

/-- A retry is counted as a reclaim, though no child has stalled. -/
theorem retry_counts_as_reclaim : ¬∀ tenureHolder spec caps leases s,
    spec.subtasks.length ≤ maxSubtasks →
    (run (.new tenureHolder spec caps) leases).Runs (fun _ _ => True) s →
    ∀ r ∈ s.report, s.Truthful spec (.new tenureHolder spec caps) r := by
  intro hclaim
  have hrun : ((run (samplePlan ["a"]) .new).follow (fun _ _ => true) (.start (samplePlan ["a"]) .new)
      retriedRun).map Sys.report =
      some (some ⟨⟨[⟨ascii "a", ascii "text", 2⟩], [], 0, 1⟩, 0, 0⟩) := by
    decide +kernel
  obtain ⟨s, hs, hreport⟩ := Option.map_eq_some_iff.mp hrun
  have htruth := hclaim (ascii "tenure") (sampleSpec ["a"]) sampleCaps .new s (by decide)
    (.follow (fun _ _ _ => trivial) .start hs) _ hreport
  exact absurd htruth.reclaims (by decide)

end PulseNull.Coordinator.Farm
