import PulseNull.Scheduler.IntentRuns

/-! No intent is lost or resurrected while every load finds a file it can read and the newest
queue is the last to be installed. -/
namespace PulseNull.Scheduler
open Time (DateTime)
open Coordinator (DurableLeaseTable FencingToken AppendOutcome Chrono)
variable {pending : List Intent} {accepted withdrawn executed : List Bytes}
  {proven completed : List Completion} {tasks : List Task} {memory : Option IntentQueue}
  {installed writes : Nat} {assigning : List (Nat × IntentQueue)} {s : Sys}

/-! What is pending, and what happened to it. -/

structure Books (pending : List Intent) (accepted withdrawn : List Bytes)
    (completed : List Completion) : Prop where
  seen : ∀ i ∈ pending, i.id ∈ accepted
  kept : ∀ id ∈ accepted, id ∉ withdrawn → (∀ c ∈ completed, c.id ≠ id) → ∃ i ∈ pending, i.id = id
  gone : ∀ c ∈ completed, ∀ i ∈ pending, i.id ≠ c.id
  done : ∀ c ∈ completed, c.id ∈ accepted

theorem Books.push (h : Books pending accepted withdrawn completed) {intent : Intent}
    (fresh : intent.id ∉ accepted) :
    Books (pending ++ [intent]) (accepted ++ [intent.id]) withdrawn completed where
  seen i hi := by
    rcases List.mem_append.mp hi with hi | hi
    · exact List.mem_append_left _ (h.seen i hi)
    · rw [List.mem_singleton.mp hi]
      exact List.mem_append_right _ (List.mem_singleton_self _)
  kept id hid hw hc := by
    rcases List.mem_append.mp hid with hid | hid
    · obtain ⟨i, hi, rfl⟩ := h.kept id hid hw hc
      exact ⟨i, List.mem_append_left _ hi, rfl⟩
    · exact ⟨intent, List.mem_append_right _ (List.mem_singleton_self _),
        (List.mem_singleton.mp hid).symm⟩
  gone c hc i hi := by
    rcases List.mem_append.mp hi with hi | hi
    · exact h.gone c hc i hi
    · rw [List.mem_singleton.mp hi]
      intro heq
      exact fresh (heq ▸ h.done c hc)
  done c hc := List.mem_append_left _ (h.done c hc)

/-- A removal is accounted for: what it drops was withdrawn or is completed. -/
theorem Books.drop (h : Books pending accepted withdrawn completed) (keep : Intent → Bool)
    (hand : List Bytes) (ends : List Completion)
    (dropped : ∀ i ∈ pending, keep i = false → i.id ∈ hand ∨ ∃ c ∈ ends, c.id = i.id)
    (ended : ∀ c ∈ ends, c.id ∈ accepted ∧ ∀ i, i.id = c.id → keep i = false) :
    Books (pending.filter keep) accepted (withdrawn ++ hand) (completed ++ ends) where
  seen i hi := h.seen i (List.mem_of_mem_filter hi)
  kept id hid hw hc := by
    obtain ⟨hw, hh⟩ := not_or.mp (mt List.mem_append.mpr hw)
    obtain ⟨i, hi, rfl⟩ := h.kept id hid hw fun c hc' => hc c (List.mem_append_left _ hc')
    refine ⟨i, List.mem_filter.mpr ⟨hi, ?_⟩, rfl⟩
    by_contra hk
    rcases dropped i hi (by simpa using hk) with hd | ⟨c, hce, heq⟩
    · exact hh hd
    · exact hc c (List.mem_append_right _ hce) heq
  gone c hc i hi heq := by
    obtain ⟨hi, hk⟩ := List.mem_filter.mp hi
    rcases List.mem_append.mp hc with hc | hc
    · exact h.gone c hc i hi heq
    · simp [(ended c hc).2 i heq] at hk
  done c hc := by
    rcases List.mem_append.mp hc with hc | hc
    · exact h.done c hc
    · exact (ended c hc).1

/-! The shared copy and what is to be installed in it. -/

/-- What the daemon holds was accepted. -/
def Held (accepted : List Bytes) (memory : Option IntentQueue)
    (assigning : List (Nat × IntentQueue)) : Prop :=
  ∀ q, memory = some q ∨ (∃ n, (n, q) ∈ assigning) → ∀ i ∈ q.intents, i.id ∈ accepted

theorem Held.add (h : Held accepted memory assigning) {q : IntentQueue} {n : Nat}
    (seen : ∀ i ∈ q.intents, i.id ∈ accepted) : Held accepted memory (assigning ++ [(n, q)]) := by
  intro q' hq' i hi
  rcases hq' with hq' | ⟨m, hm⟩
  · exact h q' (.inl hq') i hi
  · rcases List.mem_append.mp hm with hm | hm
    · exact h q' (.inr ⟨m, hm⟩) i hi
    · obtain ⟨-, rfl⟩ := Prod.mk.inj (List.mem_singleton.mp hm)
      exact seen i hi

theorem Held.abort (h : Held accepted memory assigning) (k : Nat) :
    Held accepted memory (assigning.eraseIdx k) := by
  intro q hq
  exact h q (hq.imp_right fun ⟨n, hn⟩ => ⟨n, List.mem_of_mem_eraseIdx hn⟩)

theorem Held.set (h : Held accepted memory assigning) {q : IntentQueue}
    (seen : ∀ i ∈ q.intents, i.id ∈ accepted) : Held accepted (some q) assigning := by
  intro q' hq'
  rcases hq' with hq' | hq'
  · obtain rfl := Option.some.inj hq'
    exact seen
  · exact h q' (.inr hq')

/-- The queue of the daemon's last write is what is pending, wherever it is. -/
structure Installs (pending : List Intent) (memory : Option IntentQueue) (installed : Nat)
    (assigning : List (Nat × IntentQueue)) (writes : Nat) : Prop where
  newest : ∀ w ∈ assigning, w.1 = writes → w.2.intents = pending
  current : ∀ q, memory = some q → installed = writes → q.intents = pending
  bound : (∀ w ∈ assigning, w.1 ≤ writes) ∧ (memory.isSome → installed ≤ writes)
  rest : memory.isSome → assigning = [] → installed = writes
  down : memory = none → assigning = []

/-- A write: what it merged is the newest queue under way. -/
theorem Installs.write (h : Installs pending memory installed assigning writes)
    (up : memory.isSome) (q : IntentQueue) :
    Installs q.intents memory installed (assigning ++ [(writes + 1, q)]) (writes + 1) where
  newest w hw heq := by
    rcases List.mem_append.mp hw with hw | hw
    · have := h.bound.1 w hw
      omega
    · rw [List.mem_singleton.mp hw]
  current q' hq' heq := by
    have := h.bound.2 up
    omega
  bound := by
    refine ⟨fun w hw => ?_, fun _ => (h.bound.2 up).trans (Nat.le_succ _)⟩
    rcases List.mem_append.mp hw with hw | hw
    · exact (h.bound.1 w hw).trans (Nat.le_succ _)
    · rw [List.mem_singleton.mp hw]
  rest _ hnil := by simp at hnil
  down hnone := by simp [hnone] at up

/-- A load to be installed. -/
theorem Installs.load (h : Installs pending memory installed assigning writes)
    (up : memory.isSome) {q : IntentQueue} (hq : q.intents = pending) :
    Installs pending memory installed (assigning ++ [(writes, q)]) writes where
  newest w hw heq := by
    rcases List.mem_append.mp hw with hw | hw
    · exact h.newest w hw heq
    · rw [List.mem_singleton.mp hw]
      exact hq
  current := h.current
  bound := by
    refine ⟨fun w hw => ?_, h.bound.2⟩
    rcases List.mem_append.mp hw with hw | hw
    · exact h.bound.1 w hw
    · rw [List.mem_singleton.mp hw]
  rest _ hnil := by simp at hnil
  down hnone := by simp [hnone] at up

theorem Installs.assign (h : Installs pending memory installed assigning writes) {k : Nat}
    {w : Nat × IntentQueue} (hw : assigning[k]? = some w)
    (last : assigning.eraseIdx k = [] → w.1 = writes) :
    Installs pending (some w.2) w.1 (assigning.eraseIdx k) writes where
  newest w' hw' := h.newest w' (List.mem_of_mem_eraseIdx hw')
  current q hq heq := by
    obtain rfl := Option.some.inj hq
    exact h.newest w (List.mem_of_getElem? hw) heq
  bound := ⟨fun w' hw' => h.bound.1 w' (List.mem_of_mem_eraseIdx hw'),
    fun _ => h.bound.1 w (List.mem_of_getElem? hw)⟩
  rest _ hnil := last hnil
  down hnone := by cases hnone

theorem Installs.abort (h : Installs pending memory installed assigning writes) {k : Nat}
    (last : assigning.eraseIdx k = [] → installed = writes) :
    Installs pending memory installed (assigning.eraseIdx k) writes where
  newest w hw := h.newest w (List.mem_of_mem_eraseIdx hw)
  current := h.current
  bound := ⟨fun w hw => h.bound.1 w (List.mem_of_mem_eraseIdx hw), h.bound.2⟩
  rest _ hnil := last hnil
  down hnone := by simp [h.down hnone]

/-- The copy a daemon starts with. -/
theorem Installs.boot (h : Installs pending none installed assigning writes) {q : IntentQueue}
    (hq : q.intents = pending) : Installs pending (some q) writes assigning writes where
  newest := h.newest
  current q' hq' _ := by
    obtain rfl := Option.some.inj hq'
    exact hq
  bound := ⟨h.bound.1, fun _ => le_rfl⟩
  rest _ _ := rfl
  down hnone := by cases hnone

/-- While the daemon is down there is no copy to keep. -/
theorem Installs.off (pending : List Intent) (installed writes : Nat) :
    Installs pending none installed [] writes where
  newest w hw := by simp at hw
  current q hq := by cases hq
  bound := by simp
  rest := by simp
  down _ := rfl

/-- A write of the command line, while the daemon is down or without effect. -/
theorem Installs.cliWrite (h : Installs pending memory installed assigning writes)
    {pending' : List Intent} (off : memory = none ∨ pending' = pending) :
    Installs pending' memory installed assigning writes := by
  rcases off with off | rfl
  · rw [off, h.down off]
    exact .off _ _ _
  · exact h

/-! The executions. -/

structure Fenced (accepted : List Bytes) (tasks : List Task) (executed : List Bytes)
    (proven completed : List Completion) : Prop where
  seen : ∀ t ∈ tasks, t.intent.id ∈ accepted
  ran : ∀ t ∈ tasks, t.stage ≠ .claimed → t.intent.id ∈ executed
  renewed : ∀ t ∈ tasks, ∀ token, t.stage = .proven token →
    (⟨t.intent.id, t.holder, token⟩ : Completion) ∈ proven
  fenced : ∀ c ∈ completed, c.id ∈ executed ∧ c ∈ proven

theorem Fenced.mono (h : Fenced accepted tasks executed proven completed) {accepted' : List Bytes}
    (hsub : accepted ⊆ accepted') : Fenced accepted' tasks executed proven completed :=
  { h with seen := fun t ht => hsub (h.seen t ht) }

/-- Tasks may go, and one may come or be replaced that is accounted for. -/
theorem Fenced.retask (h : Fenced accepted tasks executed proven completed) {tasks' : List Task}
    {executed' : List Bytes} {proven' : List Completion} (he : executed ⊆ executed')
    (hp : proven ⊆ proven')
    (hnew : ∀ t ∈ tasks', t ∈ tasks ∨ (t.intent.id ∈ accepted ∧
      (t.stage ≠ .claimed → t.intent.id ∈ executed') ∧
      ∀ token, t.stage = .proven token →
        (⟨t.intent.id, t.holder, token⟩ : Completion) ∈ proven')) :
    Fenced accepted tasks' executed' proven' completed where
  seen t ht := by
    rcases hnew t ht with ht | ⟨hs, -, -⟩
    · exact h.seen t ht
    · exact hs
  ran t ht hc := by
    rcases hnew t ht with ht | ⟨-, hr, -⟩
    · exact he (h.ran t ht hc)
    · exact hr hc
  renewed t ht token htok := by
    rcases hnew t ht with ht | ⟨-, -, hr⟩
    · exact hp (h.renewed t ht token htok)
    · exact hr token htok
  fenced c hc := ⟨he (h.fenced c hc).1, hp (h.fenced c hc).2⟩

theorem Fenced.erase (h : Fenced accepted tasks executed proven completed) (k : Nat) :
    Fenced accepted (tasks.eraseIdx k) executed proven completed :=
  h.retask (List.Subset.refl _) (List.Subset.refl _) fun _ ht => .inl (List.mem_of_mem_eraseIdx ht)

theorem Fenced.complete (h : Fenced accepted tasks executed proven completed) {c : Completion}
    (hc : c.id ∈ executed ∧ c ∈ proven) : Fenced accepted tasks executed proven (completed ++ [c]) :=
  { h with
    fenced := fun c' hc' => by
      rcases List.mem_append.mp hc' with hc' | hc'
      · exact h.fenced c' hc'
      · rw [List.mem_singleton.mp hc']
        exact hc }

/-! The invariant. -/

structure Sys.Inv (s : Sys) : Prop where
  books : Books s.file.pending s.accepted s.withdrawn s.completed
  held : Held s.accepted s.memory s.assigning
  fenced : Fenced s.accepted s.tasks s.executed s.proven s.completed
  read : s.overwritten = []

def Sys.Installed (s : Sys) : Prop :=
  Installs s.file.pending s.memory s.installed s.assigning s.writes

theorem Sys.start_inv (file : QueueFile) (leases : DurableLeaseTable) :
    (Sys.start file leases).Inv where
  books :=
    { seen := fun i hi => List.mem_map_of_mem hi
      kept := fun id hid _ _ => List.mem_map.mp hid
      gone := fun c hc => by cases hc
      done := fun c hc => by cases hc }
  held q hq := by simp [Sys.start] at hq
  fenced := by constructor <;> intro _ h <;> cases h
  read := rfl

/-- A saved update of the daemon, of a file that can be read. -/
theorem update_saved (apply : IntentQueue → IntentQueue) (hb : s.file.broken = false) :
    s.update apply true = { s with
      file := ⟨some (apply (.load s.file)), true, true⟩
      writes := s.writes + 1
      assigning := s.assigning ++ [(s.writes + 1, apply (.load s.file))] } := by
  simp [Sys.update, saveDelta, IntentQueue.save, Sys.wrote, Sys.merged, hb]

theorem cliUpdate_saved (apply : IntentQueue → IntentQueue) (hb : s.file.broken = false) :
    s.cliUpdate apply true = { s with file := ⟨some (apply (.load s.file)), true, true⟩ } := by
  simp [Sys.cliUpdate, saveDelta, IntentQueue.save, Sys.wrote, hb]

/-- A full queue and a description held twice leave the queue; else the intent is at its end. -/
theorem push_cases (q : IntentQueue) (intent : Intent) (maxSize : Nat) :
    q.push intent maxSize = (⟨q.intents ++ [intent]⟩, true) ∨
      q.push intent maxSize = (q, false) := by
  unfold IntentQueue.push
  split
  · exact .inr rfl
  · split
    · exact .inr rfl
    · exact .inl rfl

theorem Sys.Inv.write (h : s.Inv) {q : IntentQueue} {accepted : List Bytes}
    {completed : List Completion} {tasks : List Task} (sub : s.accepted ⊆ accepted)
    (books : Books q.intents accepted s.withdrawn completed)
    (fenced : Fenced accepted tasks s.executed s.proven completed) :
    Sys.Inv { s with
      file := ⟨some q, true, true⟩, writes := s.writes + 1
      assigning := s.assigning ++ [(s.writes + 1, q)]
      accepted := accepted, completed := completed, tasks := tasks } where
  books := books
  held := Held.add (fun q hq i hi => sub (h.held q hq i hi)) books.seen
  fenced := fenced
  read := h.read

theorem Sys.Inv.cliWrite (h : s.Inv) {q : IntentQueue} {accepted withdrawn : List Bytes}
    (sub : s.accepted ⊆ accepted) (books : Books q.intents accepted withdrawn s.completed) :
    Sys.Inv { s with
      file := ⟨some q, true, true⟩, accepted := accepted, withdrawn := withdrawn } where
  books := books
  held q hq i hi := sub (h.held q hq i hi)
  fenced := h.fenced.mono sub
  read := h.read

/-- The books after a push into the file's queue. -/
theorem Sys.Inv.pushed (h : s.Inv) {intent : Intent} {maxSize : Nat}
    (hb : s.file.broken = false) (fresh : s.accepts intent maxSize true = true →
      intent.id ∉ s.accepted) :
    Books ((IntentQueue.load s.file).push intent maxSize).1.intents
      (if s.accepts intent maxSize true then s.accepted ++ [intent.id] else s.accepted)
      s.withdrawn s.completed := by
  rcases push_cases (.load s.file) intent maxSize with hp | hp
  · have hacc : s.accepts intent maxSize true = true := by simp [Sys.accepts, hp]
    rw [if_pos hacc, hp, load_eq hb]
    exact h.books.push (fresh hacc)
  · rw [if_neg (by simp [Sys.accepts, hp]), hp, load_eq hb]
    exact h.books

theorem Sys.Inv.submit (h : s.Inv) {intent : Intent} {maxSize : Nat} {written : Bool}
    (ok : Reads s (.submit intent maxSize written)) :
    (if s.accepts intent maxSize written then
      (s.update (fun q => (q.push intent maxSize).1) written).accept intent.id
     else s.update (fun q => (q.push intent maxSize).1) written).Inv := by
  cases written with
  | false => exact h
  | true =>
    have hbooks := h.pushed (ok.1 rfl) ok.2
    rw [update_saved _ (ok.1 rfl)]
    split at hbooks
    · next hacc =>
      rw [if_pos hacc]
      exact h.write (List.subset_append_left _ _) hbooks
        (h.fenced.mono (List.subset_append_left _ _))
    · next hacc =>
      rw [if_neg hacc]
      exact h.write (List.Subset.refl _) hbooks h.fenced

theorem Sys.Inv.cliAdd (h : s.Inv) {intent : Intent} {maxSize : Nat} {written : Bool}
    (ok : Reads s (.cliAdd intent maxSize written)) :
    (if s.accepts intent maxSize written then
      (s.cliUpdate (fun q => (q.push intent maxSize).1) written).accept intent.id
     else s.cliUpdate (fun q => (q.push intent maxSize).1) written).Inv := by
  cases written with
  | false => exact h
  | true =>
    have hbooks := h.pushed (ok.1 rfl) ok.2
    rw [cliUpdate_saved _ (ok.1 rfl)]
    split at hbooks
    · next hacc =>
      rw [if_pos hacc]
      exact h.cliWrite (List.subset_append_left _ _) hbooks
    · next hacc =>
      rw [if_neg hacc]
      exact h.cliWrite (List.Subset.refl _) hbooks

theorem Sys.Inv.cliRemove (h : s.Inv) {id : Bytes} {written : Bool}
    (ok : Reads s (.cliRemove id written)) :
    (if written then
      (s.cliUpdate (fun q => q.removeById id) written).withdraw (s.loaded.filter (· = id))
     else s.cliUpdate (fun q => q.removeById id) written).Inv := by
  cases written with
  | false => exact h
  | true =>
    have hload := load_eq (ok rfl)
    rw [if_pos rfl, cliUpdate_saved _ (ok rfl)]
    refine h.cliWrite (List.Subset.refl _) ?_
    rw [IntentQueue.removeById, hload]
    have := h.books.drop (fun i => i.id ≠ id) (s.loaded.filter (· = id)) []
      (fun i hi hk => .inl ?_) (fun c hc => by cases hc)
    · simpa using this
    · have hid : i.id = id := by simpa using hk
      exact List.mem_filter.mpr ⟨List.mem_map.mpr ⟨i, hload ▸ hi, rfl⟩, by simpa using hid⟩

theorem Sys.Inv.cliClear (h : s.Inv) {written : Bool} (ok : Reads s (.cliClear written)) :
    (if written then (s.cliUpdate IntentQueue.clear written).withdraw s.loaded
     else s.cliUpdate IntentQueue.clear written).Inv := by
  cases written with
  | false => exact h
  | true =>
    rw [if_pos rfl, cliUpdate_saved _ (ok rfl)]
    refine h.cliWrite (List.Subset.refl _) ?_
    have := h.books.drop (fun _ => false) s.loaded []
      (fun i hi _ => .inl (List.mem_map.mpr ⟨i, (load_eq (ok rfl)).symm ▸ hi, rfl⟩))
      (fun c hc => by cases hc)
    simpa [IntentQueue.clear, IntentQueue.empty] using this

theorem Sys.Inv.claim (h : s.Inv) {queue : IntentQueue} (hq : s.memory = some queue)
    {chrono : Chrono} {holder : Bytes} {now : DateTime} {outcome : AppendOutcome}
    {leases : DurableLeaseTable} {intent : Intent}
    (hc : claimNextIntent chrono holder now outcome s.leases queue.sortedCandidates =
      (leases, some intent)) :
    Sys.Inv { s with leases := leases, tasks := s.tasks ++ [⟨holder, intent, .claimed⟩] } := by
  refine { h with fenced := ?_ }
  refine h.fenced.retask (List.Subset.refl _) (List.Subset.refl _) fun t ht => ?_
  refine (List.mem_append.mp ht).imp_right fun ht => ?_
  obtain rfl := List.mem_singleton.mp ht
  have hmem := mem_sortedCandidates.mp (claimNextIntent_mem hc)
  exact ⟨h.held queue (.inl hq) intent hmem, fun hne => absurd rfl hne, fun _ hp => by cases hp⟩

/-- A task moves on to `stage`. -/
theorem Sys.Inv.advance (h : s.Inv) {k : Nat} {t : Task} (ht : s.tasks[k]? = some t) {stage : Stage}
    {executed : List Bytes} {proven : List Completion} {leases : DurableLeaseTable}
    (he : s.executed ⊆ executed) (hp : s.proven ⊆ proven) (hran : t.intent.id ∈ executed)
    (hproven : ∀ token, stage = .proven token →
      (⟨t.intent.id, t.holder, token⟩ : Completion) ∈ proven) :
    Sys.Inv { s with
      tasks := s.tasks.set k { t with stage := stage }
      leases := leases, executed := executed, proven := proven } := by
  refine { h with fenced := ?_ }
  refine h.fenced.retask he hp fun t' ht' => ?_
  refine (List.mem_or_eq_of_mem_set ht').imp_right fun heq => ?_
  subst heq
  exact ⟨h.fenced.seen t (List.mem_of_getElem? ht), fun _ => hran, hproven⟩

theorem Sys.Inv.release (h : s.Inv) (k : Nat) (leases : DurableLeaseTable) :
    Sys.Inv { s with leases := leases, tasks := s.tasks.eraseIdx k } :=
  { h with fenced := h.fenced.erase k }

theorem Sys.Inv.complete (h : s.Inv) {k : Nat} {written : Bool} (ok : Reads s (.complete k written))
    {t : Task} (ht : s.tasks[k]? = some t) {token : FencingToken} (hstage : t.stage = .proven token) :
    ((s.setTask k { t with stage := .recorded }).record ⟨t.intent.id, t.holder, token⟩ written).Inv := by
  have hmem := List.mem_of_getElem? ht
  have hran := h.fenced.ran t hmem (by simp [hstage])
  have hrec : Sys.Inv (s.setTask k { t with stage := .recorded }) :=
    h.advance ht (List.Subset.refl _) (List.Subset.refl _) hran (fun _ hp => by cases hp)
  cases written with
  | false => exact hrec
  | true =>
    have hb : (s.setTask k { t with stage := .recorded }).file.broken = false := ok rfl
    unfold Sys.record
    rw [if_pos rfl, update_saved _ hb]
    refine hrec.write (List.Subset.refl _) ?_
      (hrec.fenced.complete ⟨hran, h.fenced.renewed t hmem token hstage⟩)
    rw [IntentQueue.removeById, load_eq hb]
    have := hrec.books.drop (fun i => i.id ≠ t.intent.id) [] [⟨t.intent.id, t.holder, token⟩]
      (fun i _ hk => .inr ⟨_, List.mem_singleton_self _, by simpa using Eq.symm (by simpa using hk)⟩)
      (fun c hc => ?_)
    · simpa using this
    · rw [List.mem_singleton.mp hc]
      exact ⟨h.fenced.seen t hmem, fun i hi => by simpa using hi⟩

/-- A load finds what is pending, or nothing. -/
theorem Sys.Inv.load_seen (h : s.Inv) : ∀ i ∈ (IntentQueue.load s.file).intents, i.id ∈ s.accepted := by
  intro i hi
  cases hb : s.file.broken with
  | false => exact h.books.seen i (load_eq hb ▸ hi)
  | true => simp [IntentQueue.load, hb, IntentQueue.empty] at hi

theorem Sys.Inv.step {chrono : Chrono} {inRange : Bytes → Bool} {s' : Sys} {act : Act} (h : s.Inv)
    (ok : Reads s act) (hs : s.step chrono inRange act = some s') : s'.Inv := by
  cases act with
  | submit intent maxSize written =>
    obtain ⟨_, -, hs⟩ := Option.bind_eq_some_iff.mp hs
    obtain rfl := Option.some.inj hs
    exact h.submit ok
  | cliAdd intent maxSize written =>
    obtain rfl := Option.some.inj hs
    exact h.cliAdd ok
  | cliRemove id written =>
    obtain rfl := Option.some.inj hs
    exact h.cliRemove ok
  | cliClear written =>
    obtain rfl := Option.some.inj hs
    exact h.cliClear ok
  | assign k =>
    obtain ⟨w, hw, hs⟩ := Option.bind_eq_some_iff.mp hs
    obtain rfl := Option.some.inj hs
    have hseen := h.held w.2 (.inr ⟨w.1, List.mem_of_getElem? hw⟩)
    exact { h with held := (Held.abort h.held k).set hseen }
  | claim holder now outcome =>
    obtain ⟨queue, hq, hs⟩ := Option.bind_eq_some_iff.mp hs
    split at hs
    · next hc =>
      obtain rfl := Option.some.inj hs
      exact h.claim hq hc
    · obtain rfl := Option.some.inj hs
      exact { h with }
  | execute k =>
    obtain ⟨t, ht, hs⟩ := Option.bind_eq_some_iff.mp hs
    split at hs
    · obtain rfl := Option.some.inj hs
      exact h.advance ht (List.subset_append_left _ _) (List.Subset.refl _)
        (List.mem_append_right _ (List.mem_singleton_self _)) (fun _ hp => by cases hp)
    · cases hs
  | prove k now =>
    obtain ⟨t, ht, hs⟩ := Option.bind_eq_some_iff.mp hs
    split at hs
    · next hstage =>
      split at hs
      · obtain rfl := Option.some.inj hs
        have hran := h.fenced.ran t (List.mem_of_getElem? ht) (by simp [hstage])
        refine h.advance ht (List.Subset.refl _) (List.subset_append_left _ _) hran fun token hp => ?_
        obtain rfl := Stage.proven.inj hp
        exact List.mem_append_right _ (List.mem_singleton_self _)
      · obtain rfl := Option.some.inj hs
        exact h.release k _
    · cases hs
  | complete k written =>
    obtain ⟨_, -, hs⟩ := Option.bind_eq_some_iff.mp hs
    obtain ⟨t, ht, hs⟩ := Option.bind_eq_some_iff.mp hs
    split at hs
    · next token hstage =>
      obtain rfl := Option.some.inj hs
      exact h.complete ok ht hstage
    · cases hs
  | release k now outcome =>
    obtain ⟨t, ht, hs⟩ := Option.bind_eq_some_iff.mp hs
    split at hs
    · obtain rfl := Option.some.inj hs
      exact h.release k _
    · cases hs
  | sweep intentId holder now outcome =>
    obtain rfl := Option.some.inj hs
    exact { h with }
  | reconcile =>
    obtain ⟨_, -, hs⟩ := Option.bind_eq_some_iff.mp hs
    obtain rfl := Option.some.inj hs
    exact { h with held := Held.add h.held h.load_seen }
  | abortAssign k =>
    obtain rfl := Option.some.inj hs
    exact { h with held := Held.abort h.held k }
  | abortTask k =>
    obtain rfl := Option.some.inj hs
    exact h.release k _
  | disturb readable parses =>
    obtain rfl := Option.some.inj hs
    exact { h with }
  | stop =>
    obtain rfl := Option.some.inj hs
    exact { h with
      held := fun q hq => by simp at hq
      fenced := h.fenced.retask (List.Subset.refl _) (List.Subset.refl _) fun t ht => by cases ht }
  | boot =>
    simp only [Sys.step] at hs
    split at hs
    · obtain rfl := Option.some.inj hs
      exact { h with held := Held.set h.held h.load_seen }
    · cases hs

/-! The copy. -/

theorem Sys.Installed.update (h : s.Installed) (up : s.memory.isSome)
    (apply : IntentQueue → IntentQueue) {written : Bool} (hb : written = true → s.file.broken = false) :
    (s.update apply written).Installed := by
  cases written with
  | false => exact h
  | true =>
    rw [update_saved _ (hb rfl)]
    exact Installs.write h up _

theorem Sys.Installed.cliUpdate (h : s.Installed) {apply : IntentQueue → IntentQueue}
    {written : Bool} (hb : written = true → s.file.broken = false) (off : written = true →
      s.memory = none ∨ (apply (.load s.file)).intents = (IntentQueue.load s.file).intents) :
    (s.cliUpdate apply written).Installed := by
  cases written with
  | false => exact h
  | true =>
    rw [cliUpdate_saved _ (hb rfl)]
    rw [load_eq (hb rfl)] at off
    exact Installs.cliWrite h (off rfl)

theorem Sys.Installed.step {chrono : Chrono} {inRange : Bytes → Bool} {s' : Sys} {act : Act}
    (h : s.Installed) (reads : Reads s act) (ok : Orders s act)
    (hs : s.step chrono inRange act = some s') : s'.Installed := by
  cases act with
  | submit intent maxSize written =>
    obtain ⟨_, hq, hs⟩ := Option.bind_eq_some_iff.mp hs
    obtain rfl := Option.some.inj hs
    have hup := h.update (by simp [hq]) (fun q => (q.push intent maxSize).1) reads.1
    split
    · exact hup
    · exact hup
  | cliAdd intent maxSize written =>
    obtain rfl := Option.some.inj hs
    have hup : (s.cliUpdate (fun q => (q.push intent maxSize).1) written).Installed := by
      refine h.cliUpdate reads.1 fun hw => ?_
      rcases push_cases (.load s.file) intent maxSize with hp | hp
      · exact .inl (ok (by simp [Sys.accepts, hp, hw]))
      · exact .inr (by rw [hp])
    split
    · exact hup
    · exact hup
  | cliRemove id written =>
    obtain rfl := Option.some.inj hs
    have hup : (s.cliUpdate (fun q => q.removeById id) written).Installed := by
      refine h.cliUpdate reads fun hw => (ok hw).imp_right fun hne => ?_
      rw [IntentQueue.removeById, load_eq (reads hw)]
      exact List.filter_eq_self.mpr fun i hi => by simpa using hne i hi
    split
    · exact hup
    · exact hup
  | cliClear written =>
    obtain rfl := Option.some.inj hs
    have hup : (s.cliUpdate IntentQueue.clear written).Installed := by
      refine h.cliUpdate reads fun hw => (ok hw).imp_right fun hnil => ?_
      rw [load_eq (reads hw), hnil]
      rfl
    split
    · exact hup
    · exact hup
  | assign k =>
    obtain ⟨w, hw, hs⟩ := Option.bind_eq_some_iff.mp hs
    obtain rfl := Option.some.inj hs
    exact Installs.assign h hw fun hnil => ok hnil w hw
  | claim holder now outcome =>
    obtain ⟨queue, hq, hs⟩ := Option.bind_eq_some_iff.mp hs
    split at hs
    · obtain rfl := Option.some.inj hs
      exact h
    · obtain rfl := Option.some.inj hs
      exact h
  | execute k =>
    obtain ⟨t, ht, hs⟩ := Option.bind_eq_some_iff.mp hs
    split at hs
    · obtain rfl := Option.some.inj hs
      exact h
    · cases hs
  | prove k now =>
    obtain ⟨t, ht, hs⟩ := Option.bind_eq_some_iff.mp hs
    split at hs
    · split at hs
      · obtain rfl := Option.some.inj hs
        exact h
      · obtain rfl := Option.some.inj hs
        exact h
    · cases hs
  | complete k written =>
    obtain ⟨_, hq, hs⟩ := Option.bind_eq_some_iff.mp hs
    obtain ⟨t, ht, hs⟩ := Option.bind_eq_some_iff.mp hs
    split at hs
    · next token hstage =>
      obtain rfl := Option.some.inj hs
      have hset : (s.setTask k { t with stage := .recorded }).Installed := h
      have hup := hset.update (by simp [Sys.setTask, hq]) (fun q => q.removeById t.intent.id) reads
      unfold Sys.record
      dsimp only
      split
      · exact hup
      · exact hup
    · cases hs
  | release k now outcome =>
    obtain ⟨t, ht, hs⟩ := Option.bind_eq_some_iff.mp hs
    split at hs
    · obtain rfl := Option.some.inj hs
      exact h
    · cases hs
  | sweep intentId holder now outcome =>
    obtain rfl := Option.some.inj hs
    exact h
  | reconcile =>
    obtain ⟨_, hq, hs⟩ := Option.bind_eq_some_iff.mp hs
    obtain rfl := Option.some.inj hs
    exact Installs.load h (by simp [hq]) (load_eq ok)
  | abortAssign k =>
    obtain rfl := Option.some.inj hs
    exact Installs.abort h ok
  | abortTask k =>
    obtain rfl := Option.some.inj hs
    exact h
  | disturb readable parses =>
    obtain rfl := Option.some.inj hs
    exact h
  | stop =>
    obtain rfl := Option.some.inj hs
    exact .off _ _ _
  | boot =>
    simp only [Sys.step] at hs
    split at hs
    · next hnone _ =>
      obtain rfl := Option.some.inj hs
      unfold Sys.Installed at h
      rw [hnone] at h
      exact h.boot (load_eq ok)
    · cases hs

/-! Runs. -/

variable {chrono : Chrono} {inRange : Bytes → Bool} {file : QueueFile} {leases : DurableLeaseTable}

theorem Sys.Inv.run (h : Runs chrono inRange Reads (.start file leases) s) : s.Inv := by
  induction h with
  | start => exact Sys.start_inv file leases
  | step act _ ok hs ih => exact ih.step ok hs

theorem Sys.Installed.run
    (h : Runs chrono inRange (fun s act => Reads s act ∧ Orders s act) (.start file leases) s) :
    s.Installed := by
  induction h with
  | start => exact .off _ _ _
  | step act _ ok hs ih => exact ih.step ok.1 ok.2 hs

/-- While no update meets a broken file and accepted ids are new, no intent is lost or resurrected;
if the copy is kept in order as well, it is the file's queue whenever nothing is left to install. -/
theorem intents_sound :
    (Runs chrono inRange Reads (.start file leases) s → s.Durable) ∧
      (Runs chrono inRange (fun s act => Reads s act ∧ Orders s act) (.start file leases) s →
        s.AtRest) := by
  refine ⟨fun h => ?_, fun h q hq hnil => ?_⟩
  · have hinv := Sys.Inv.run h
    exact ⟨hinv.books.kept, hinv.fenced.fenced, hinv.books.gone, hinv.read⟩
  · have hins := Sys.Installed.run h
    exact hins.current q hq (hins.rest (by simp [hq]) hnil)

/-! A sample pulse: no file yet, and an empty lease log. -/

def sampleStart : Sys := .start ⟨none, true, true⟩ ⟨.new, ⟨[], false⟩⟩

def sampleIntent (id : Bytes) : Intent :=
  ⟨id, id, [], .userCli, .normal, .epoch, none, .silent, 0⟩

/-- The state after `acts`, each of them checked first. -/
def Sys.follow (chrono : Chrono) (inRange : Bytes → Bool) (check : Sys → Act → Bool) (s : Sys)
    (acts : List Act) : Option Sys :=
  acts.foldlM (fun s act => if check s act then s.step chrono inRange act else none) s

theorem Runs.follow {check : Sys → Act → Bool} {ok : Sys → Act → Prop}
    (hok : ∀ s act, check s act = true → ok s act) {s₀ s s' : Sys} (h : Runs chrono inRange ok s₀ s)
    {acts : List Act} (hs : s.follow chrono inRange check acts = some s') :
    Runs chrono inRange ok s₀ s' := by
  induction acts generalizing s with
  | nil => exact Option.some.inj hs ▸ h
  | cons act acts ih =>
    rw [Sys.follow, List.foldlM_cons] at hs
    obtain ⟨next, hnext, hs⟩ := Option.bind_eq_some_iff.mp hs
    split at hnext
    · next hc => exact ih (h.step act (hok s act hc) hnext) hs
    · cases hnext

instance (s : Sys) : (act : Act) → Decidable (Reads s act)
  | .submit _ _ _ | .cliAdd _ _ _ => inferInstanceAs (Decidable (_ ∧ _))
  | .cliRemove _ _ | .cliClear _ | .complete _ _ => inferInstanceAs (Decidable (_ → _))
  | .assign _ | .claim _ _ _ | .execute _ | .prove _ _ | .release _ _ _ | .sweep _ _ _ _
  | .reconcile | .abortAssign _ | .abortTask _ | .disturb _ _ | .stop | .boot =>
    inferInstanceAs (Decidable True)

instance (s : Sys) : (act : Act) → Decidable (Orders s act)
  | .cliAdd _ _ _ | .cliRemove _ _ | .cliClear _ | .assign _ | .abortAssign _ =>
    inferInstanceAs (Decidable (_ → _))
  | .reconcile | .boot => inferInstanceAs (Decidable (_ = _))
  | .submit _ _ _ | .complete _ _ | .claim _ _ _ | .execute _ | .prove _ _ | .release _ _ _
  | .sweep _ _ _ _ | .abortTask _ | .disturb _ _ | .stop => inferInstanceAs (Decidable True)

/-- An intent is queued and run to its completion, and another is queued. -/
def sampleRun : List Act :=
  [.boot, .submit (sampleIntent [97]) 20 true, .assign 0,
    .claim [119] .epoch .synced, .execute 0, .prove 0 ⟨1, by decide, by decide⟩,
    .submit (sampleIntent [98]) 20 true, .complete 0 true, .assign 0, .assign 0,
    .release 0 ⟨2, by decide, by decide⟩ .synced]

def sampleEnd : Option Sys :=
  sampleStart.follow .counted (fun _ => true) (fun s act => Reads s act ∧ Orders s act) sampleRun

theorem intents_sound_sample : ∃ s, sampleEnd = some s ∧ s.Durable ∧ s.AtRest ∧
    s.completed.map Completion.id = [[97]] ∧ s.file.pending = [sampleIntent [98]] := by
  obtain ⟨s, hs⟩ := Option.isSome_iff_exists.mp (show sampleEnd.isSome by decide +kernel)
  have hdone : sampleEnd.map (fun s => (s.completed.map Completion.id, s.file.pending)) =
    some ([[97]], [sampleIntent [98]]) := by decide +kernel
  rw [hs, Option.map_some, Option.some.injEq, Prod.mk.injEq] at hdone
  refine ⟨s, hs, intents_sound.1 (.follow ?_ .start hs), intents_sound.2 (.follow ?_ .start hs), hdone⟩
  · intro s act h
    exact (of_decide_eq_true h).1
  · intro s act h
    exact of_decide_eq_true h

/-- The state after `acts`, and that they lead to it. -/
theorem follow_any {acts : List Act} {s : Sys} (hs : sampleStart.follow .counted (fun _ => true)
    (fun _ _ => true) acts = some s) :
    Runs .counted (fun _ => true) (fun _ _ => True) sampleStart s :=
  .follow (fun _ _ _ => trivial) .start hs

/-- The file cannot be read when the second intent is queued: the first is gone. And two writers
that install their queues in the other order leave the copy behind the file. -/
theorem unread_queue_replaced :
    (∃ s, Runs .counted (fun _ => true) (fun _ _ => True) sampleStart s ∧
      (s.accepted, s.withdrawn, s.completed, s.file.pending) =
        ([[97], [98]], [], [], [sampleIntent [98]])) ∧
    (∃ s, Runs .counted (fun _ => true) (fun _ _ => True) sampleStart s ∧
      (s.memory, s.assigning, s.file.pending) =
        (some ⟨[sampleIntent [97]]⟩, [], [sampleIntent [97], sampleIntent [98]])) := by
  have lost : (sampleStart.follow .counted (fun _ => true) (fun _ _ => true)
      [.boot, .submit (sampleIntent [97]) 20 true, .assign 0, .disturb false true,
        .submit (sampleIntent [98]) 20 true, .assign 0]).map
        (fun s => (s.accepted, s.withdrawn, s.completed, s.file.pending)) =
      some ([[97], [98]], [], [], [sampleIntent [98]]) := by decide +kernel
  have behind : (sampleStart.follow .counted (fun _ => true) (fun _ _ => true)
      [.boot, .submit (sampleIntent [97]) 20 true, .submit (sampleIntent [98]) 20 true, .assign 1,
        .assign 0]).map (fun s => (s.memory, s.assigning, s.file.pending)) =
      some (some ⟨[sampleIntent [97]]⟩, [], [sampleIntent [97], sampleIntent [98]]) := by
    decide +kernel
  obtain ⟨s, hs, hlost⟩ := Option.map_eq_some_iff.mp lost
  obtain ⟨t, ht, hbehind⟩ := Option.map_eq_some_iff.mp behind
  exact ⟨⟨s, follow_any hs, hlost⟩, ⟨t, follow_any ht, hbehind⟩⟩

end PulseNull.Scheduler
