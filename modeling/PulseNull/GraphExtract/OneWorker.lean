import PulseNull.GraphExtract.Extract

/-! One worker: `running` counts those there are and those about to start. -/
namespace PulseNull.GraphExtract

/-- Whether the catch-up is about to start a worker. -/
def CatchUp.starts : CatchUp → Nat
  | .raising _ start => start.toNat
  | _ => 0

def Life.OneWorker (life : Life) : Prop :=
  life.workers.length + life.enqueues.countP (·.2) + life.catchUp.starts = life.queue.running.toNat

theorem startWorker_length (start : Bool) (workers : List Worker) :
    (startWorker start workers).length = workers.length + start.toNat := by
  cases start <;> simp [startWorker]

theorem Life.OneWorker.new (since top : Nat) (catchUp : Bool) :
    (Life.new since top catchUp).OneWorker := by
  cases catchUp <;> rfl

/-- A worker there is stands alone, and no start is under way. -/
theorem Life.OneWorker.single {life : Life} (h : life.OneWorker) {i : Nat} {w : Worker}
    (hi : life.workers[i]? = some w) : i = 0 ∧ life.workers = [w] ∧ life.queue.running = true ∧
      life.enqueues.countP (·.2) = 0 ∧ life.catchUp.starts = 0 := by
  unfold Life.OneWorker at h
  obtain ⟨hlt, hw⟩ := List.getElem?_eq_some_iff.mp hi
  have hle := Bool.toNat_le life.queue.running
  obtain ⟨v, hv⟩ := List.length_eq_one_iff.mp (show life.workers.length = 1 by omega)
  obtain rfl : i = 0 := by omega
  have hrun : life.queue.running = true := by
    cases hr : life.queue.running with
    | true => rfl
    | false =>
      rw [hr] at h
      simp only [Bool.toNat_false] at h
      omega
  refine ⟨rfl, ?_, hrun, by omega, by omega⟩
  simpa [hv] using hw

private theorem countP_erase_start {calls : List (Nat × Bool)} {call : Nat × Bool}
    (h : call ∈ calls) :
    (calls.erase call).countP (·.2) + call.2.toNat = calls.countP (·.2) := by
  rw [(List.perm_cons_erase h).countP_eq, List.countP_cons]
  cases call.2 <;> simp

/-- What sets `running` starts a worker unless it was set. -/
private theorem toNat_start (running more : Bool) :
    (running || more).toNat = running.toNat + (more && !running).toNat := by
  cases running <;> cases more <;> rfl

/-- Every step keeps to one worker. -/
theorem Step.oneWorker {limit : Nat} {s s' : Sys} {act : Act} (hs : Step limit s act s')
    (h : ∀ life ∈ s.life, life.OneWorker) : ∀ life ∈ s'.life, life.OneWorker := by
  intro life' hl'
  cases hs with
  | idle | write | refused | day => exact h life' hl'
  | firstBoot | boot =>
    obtain rfl := Option.some.inj hl'
    exact .new _ _ _
  | @pushed life n hl =>
    obtain rfl := Option.some.inj hl'
    have := h _ hl
    have hrun := toNat_start life.queue.running true
    rw [Bool.or_true, Bool.true_and] at hrun
    unfold Life.OneWorker at this ⊢
    rw [List.countP_append, List.countP_singleton]
    dsimp only
    rw [hrun, ← this]
    cases life.queue.running with
    | true => simp
    | false =>
      simp only [Bool.not_false, if_true, Bool.toNat_true]
      omega
  | enqueued hl hc =>
    obtain rfl := Option.some.inj hl'
    have := h _ hl
    have hcount := countP_erase_start hc
    unfold Life.OneWorker at this ⊢
    rw [startWorker_length]
    dsimp only
    omega
  | scan hl hc | answer hl hc =>
    obtain rfl := Option.some.inj hl'
    have := h _ hl
    unfold Life.OneWorker at this ⊢
    rw [hc] at this
    exact this
  | admits hl hc =>
    obtain rfl := Option.some.inj hl'
    have := h _ hl
    unfold Life.OneWorker at this ⊢
    rw [hc] at this
    simp only [CatchUp.starts] at this ⊢
    rw [toNat_start]
    omega
  | caughtUp hl hc =>
    obtain rfl := Option.some.inj hl'
    have := h _ hl
    unfold Life.OneWorker at this ⊢
    rw [hc] at this
    rw [startWorker_length]
    simp only [CatchUp.starts] at this ⊢
    omega
  | took hl hi | chosen hl hi | skipped hl hi | handed hl hi | finish hl hi =>
    obtain rfl := Option.some.inj hl'
    have := h _ hl
    unfold Life.OneWorker at this ⊢
    rw [List.length_set]
    exact this
  | ended hl hi =>
    obtain rfl := Option.some.inj hl'
    obtain ⟨rfl, hw, -, hcount, hstart⟩ := (h _ hl).single hi
    unfold Life.OneWorker
    simp [hw, hcount, hstart]
  | panic hl hi =>
    obtain rfl := Option.some.inj hl'
    obtain ⟨rfl, hw, -, hcount, hstart⟩ := (h _ hl).single (List.getElem?_eq_getElem hi)
    unfold Life.OneWorker
    rw [hw]
    simp [hcount, hstart]
  | crash => exact nomatch hl'

end PulseNull.GraphExtract
