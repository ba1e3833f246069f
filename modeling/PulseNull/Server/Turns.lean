import Mathlib

/-! The turn runner: submissions that check, register, run and end in any order of their atomic
steps, while it refuses new turns and drains. -/
namespace PulseNull.Server.Turns

/-- Where a turn is. From `counted` on it holds its flight, which is released where it is dropped:
`looked` has seen the closed flag and is about to drop it. -/
inductive Stage where
  | submitted | checked | slotted | counted | looked | entered | running | ended
  deriving DecidableEq

/-- The turn is registered as in flight. -/
def Stage.flight : Stage → Bool
  | .counted | .looked | .entered | .running => true
  | .submitted | .checked | .slotted | .ended => false

/-- The turn has been let in. -/
def Stage.started : Stage → Bool
  | .entered | .running => true
  | _ => false

/-- A call of `drain`: whether new turns were refused when it was made, and what it returned. -/
structure Drain where
  refusing : Bool
  outcome : Option Bool
  deriving DecidableEq

structure Sys where
  closed : Bool
  inFlight : Nat
  turns : List Stage
  drains : List Drain

/-- How a turn leaves: it returns, fails, panics, or its task is dropped. -/
inductive Leaving where
  | returned | failed | panicked | aborted
  deriving DecidableEq

inductive Act where
  | submit
  | isClosed (turn : Nat)
  | slot (turn : Nat)
  | fetchAdd (turn : Nat)
  | loadClosed (turn : Nat)
  | state (turn : Nat)
  | leave (turn : Nat) (how : Leaving)
  | refuseNew
  | drain
  | loadCount (drain : Nat) (timedOut : Bool)

def Sys.move (s : Sys) (turn : Nat) (stage : Stage) : Sys := { s with turns := s.turns.set turn stage }

/-- One atomic step. A submission checks the flag, takes its token and slot, counts itself, looks at
the flag again, and waits for the bind, looking at the flag once more. A drain looks at the count when
it starts, when it is notified and when its time is up; here whenever it may. -/
def Sys.step (s : Sys) : Act → Sys
  | .submit => { s with turns := s.turns ++ [.submitted] }
  | .isClosed turn =>
    if s.turns[turn]? = some .submitted then s.move turn (if s.closed then .ended else .checked) else s
  | .slot turn => if s.turns[turn]? = some .checked then s.move turn .slotted else s
  | .fetchAdd turn =>
    if s.turns[turn]? = some .slotted then { s.move turn .counted with inFlight := s.inFlight + 1 } else s
  | .loadClosed turn =>
    if s.turns[turn]? = some .counted then s.move turn (if s.closed then .looked else .entered) else s
  | .state turn =>
    if s.turns[turn]? = some .entered then s.move turn (if s.closed then .looked else .running) else s
  | .leave turn how =>
    match s.turns[turn]? with
    | none => s
    | some stage =>
      if how = .returned ∧ stage ≠ .running then s
      else { s.move turn .ended with
        inFlight := if stage.flight then s.inFlight - 1 else s.inFlight }
  | .refuseNew => { s with closed := true }
  | .drain => { s with drains := s.drains ++ [⟨s.closed, none⟩] }
  | .loadCount drain timedOut =>
    match s.drains[drain]? with
    | some ⟨refusing, none⟩ =>
      if s.inFlight = 0 then { s with drains := s.drains.set drain ⟨refusing, some true⟩ }
      else if timedOut then { s with drains := s.drains.set drain ⟨refusing, some false⟩ }
      else s
    | _ => s

/-- The state after the steps, of a fresh runner. -/
def run (acts : List Act) : Sys := acts.foldl Sys.step ⟨false, 0, [], []⟩

/-- Some drain that was called while new turns were refused has returned true. -/
def Sys.drained (s : Sys) : Prop := ⟨true, some true⟩ ∈ s.drains

/-- The count is that of the registered turns; and once drained, no turn is in or gets in. -/
structure Sys.Sound (s : Sys) : Prop where
  count : s.inFlight = s.turns.countP Stage.flight
  still : s.drained → ∀ more : List Act, ∀ stage ∈ (more.foldl Sys.step s).turns, stage.started = false

structure Sys.Inv (s : Sys) : Prop where
  count : s.inFlight = s.turns.countP Stage.flight
  refusing : ∀ d ∈ s.drains, d.refusing = true → s.closed = true
  still : s.drained → ∀ stage ∈ s.turns, stage.started = false

variable {s : Sys}

theorem start_inv : Sys.Inv ⟨false, 0, [], []⟩ :=
  ⟨rfl, nofun, fun _ => nofun⟩

/-- What a turn's move does to the count. -/
theorem countP_move {turn : Nat} {before after : Stage} (h : s.turns[turn]? = some before) :
    (s.move turn after).turns.countP Stage.flight + before.flight.toNat =
      s.turns.countP Stage.flight + after.flight.toNat := by
  obtain ⟨hlt, hget⟩ := List.getElem?_eq_some_iff.mp h
  have hpos (hb : before.flight = true) : 0 < s.turns.countP Stage.flight :=
    List.countP_pos_iff.mpr ⟨before, hget ▸ List.getElem_mem hlt, hb⟩
  unfold Sys.move
  dsimp only
  rw [List.countP_set hlt, hget]
  cases hb : before.flight with
  | false => cases after.flight <;> rfl
  | true =>
    have hone := hpos hb
    cases after.flight
    · simp
      omega
    · simp
      omega

/-- A move that keeps the count right and lets no turn in once drained. -/
theorem Sys.Inv.move (h : s.Inv) {turn : Nat} {before after : Stage} {inFlight : Nat}
    (ht : s.turns[turn]? = some before)
    (hcount : inFlight + before.flight.toNat = s.inFlight + after.flight.toNat)
    (hstill : s.closed = true → after.started = false ∨ before.started = true) :
    Sys.Inv { s.move turn after with inFlight := inFlight } := by
  have hmove := @countP_move s turn before after ht
  refine ⟨?_, h.refusing, fun hd stage hm => ?_⟩
  · have := h.count
    dsimp only
    omega
  · have hclosed := h.refusing _ hd rfl
    rcases List.mem_or_eq_of_mem_set hm with hm | rfl
    · exact h.still hd stage hm
    · rcases hstill hclosed with hs | hs
      · exact hs
      · have hb := h.still hd before (List.mem_of_getElem? ht)
        rw [hs] at hb
        cases hb

theorem Sys.Inv.leave (h : s.Inv) {turn : Nat} {stage : Stage} (ht : s.turns[turn]? = some stage) :
    Sys.Inv { s.move turn .ended with
      inFlight := if stage.flight then s.inFlight - 1 else s.inFlight } := by
  refine h.move ht ?_ fun _ => .inl rfl
  cases hf : stage.flight with
  | false => rfl
  | true =>
    have hpos : 0 < s.inFlight := by
      rw [h.count]
      exact List.countP_pos_iff.mpr ⟨stage, List.mem_of_getElem? ht, hf⟩
    simp [Stage.flight]
    omega

/-- A drain returns true only when nothing is in flight, and nothing in flight is nothing let in. -/
theorem Sys.Inv.loaded (h : s.Inv) {drain : Nat} {refusing outcome : Bool}
    (hd : s.drains[drain]? = some ⟨refusing, none⟩) (hz : outcome = true → s.inFlight = 0) :
    Sys.Inv { s with drains := s.drains.set drain ⟨refusing, some outcome⟩ } := by
  refine ⟨h.count, fun d hm hr => ?_, fun hdrained stage hm => ?_⟩
  · rcases List.mem_or_eq_of_mem_set hm with hm | rfl
    · exact h.refusing d hm hr
    · exact h.refusing _ (List.mem_of_getElem? hd) hr
  · rcases List.mem_or_eq_of_mem_set hdrained with hin | heq
    · exact h.still hin stage hm
    · have hzero : s.turns.countP Stage.flight = 0 := by
        rw [← h.count]
        exact hz (Option.some.inj (Drain.mk.inj heq).2).symm
      have hno := List.countP_eq_zero.mp hzero stage hm
      cases stage <;> simp_all [Stage.flight, Stage.started]

theorem Sys.Inv.step (h : s.Inv) (act : Act) : (s.step act).Inv := by
  cases act with
  | submit =>
    refine ⟨?_, h.refusing, fun hd stage hm => ?_⟩
    · simp [Sys.step, h.count, Stage.flight]
    · rcases List.mem_append.mp hm with hm | hm
      · exact h.still hd stage hm
      · rw [List.mem_singleton.mp hm]
        rfl
  | isClosed turn =>
    simp only [Sys.step]
    split
    · next ht =>
      refine h.move ht ?_ fun hc => ?_
      · cases s.closed <;> rfl
      · simp [hc, Stage.started]
    · exact h
  | slot turn =>
    simp only [Sys.step]
    split
    · next ht => exact h.move ht rfl fun _ => .inl rfl
    · exact h
  | fetchAdd turn =>
    simp only [Sys.step]
    split
    · next ht => exact h.move ht rfl fun _ => .inl rfl
    · exact h
  | loadClosed turn =>
    simp only [Sys.step]
    split
    · next ht =>
      refine h.move ht ?_ fun hc => ?_
      · cases s.closed <;> rfl
      · simp [hc, Stage.started]
    · exact h
  | state turn =>
    simp only [Sys.step]
    split
    · next ht =>
      refine h.move ht ?_ fun hc => .inr rfl
      cases s.closed <;> rfl
    · exact h
  | leave turn how =>
    simp only [Sys.step]
    split
    · exact h
    next stage ht =>
    split
    · exact h
    · exact h.leave ht
  | refuseNew => exact ⟨h.count, fun _ _ _ => rfl, h.still⟩
  | drain =>
    refine ⟨h.count, fun d hm hr => ?_, fun hd => h.still ?_⟩
    · rcases List.mem_append.mp hm with hm | hm
      · exact h.refusing d hm hr
      · rw [List.mem_singleton.mp hm] at hr
        exact hr
    · rcases List.mem_append.mp hd with hd | hd
      · exact hd
      · cases (Drain.mk.inj (List.mem_singleton.mp hd)).2
  | loadCount drain timedOut =>
    simp only [Sys.step]
    split
    next refusing hd =>
      split
      · next hz => exact h.loaded hd fun _ => hz
      · split
        · exact h.loaded hd nofun
        · exact h
    · exact h

theorem Sys.Inv.steps (h : s.Inv) (acts : List Act) : (acts.foldl Sys.step s).Inv :=
  List.foldlRecOn acts Sys.step h fun _ hs act _ => hs.step act

/-- No drain that has returned changes its answer. -/
theorem drained_step (h : s.drained) (act : Act) : (s.step act).drained := by
  have keep {drain : Nat} {d : Drain} (hd : ∃ refusing, s.drains[drain]? = some ⟨refusing, none⟩) :
      (⟨true, some true⟩ : Drain) ∈ s.drains.set drain d := by
    obtain ⟨refusing, hd⟩ := hd
    obtain ⟨i, hi⟩ := List.mem_iff_getElem?.mp h
    refine List.mem_iff_getElem?.mpr ⟨i, ?_⟩
    rw [List.getElem?_set]
    split
    · next heq =>
      rw [heq, hi] at hd
      cases hd
    · exact hi
  cases act with
  | drain => exact List.mem_append_left _ h
  | loadCount drain timedOut =>
    simp only [Sys.step]
    split
    · next refusing hd =>
      split
      · exact keep ⟨refusing, hd⟩
      · split
        · exact keep ⟨refusing, hd⟩
        · exact h
    · exact h
  | submit => exact h
  | refuseNew => exact h
  | leave turn how =>
    simp only [Sys.step]
    split
    · exact h
    · split <;> exact h
  | isClosed turn => simp only [Sys.step]; split <;> exact h
  | slot turn => simp only [Sys.step]; split <;> exact h
  | fetchAdd turn => simp only [Sys.step]; split <;> exact h
  | loadClosed turn => simp only [Sys.step]; split <;> exact h
  | state turn => simp only [Sys.step]; split <;> exact h

/-- In every interleaving: the count is right, and a drain that answers true after new turns were
refused is the end of turns. -/
theorem drain_sound (acts : List Act) : (run acts).Sound := by
  have hinv : (run acts).Inv := start_inv.steps acts
  refine ⟨hinv.count, fun hd more => ?_⟩
  have hstill : (more.foldl Sys.step (run acts)).drained :=
    List.foldlRecOn (motive := Sys.drained) more Sys.step hd fun _ hs act _ => drained_step hs act
  exact (hinv.steps more).still hstill

/-- A turn that had passed its first check is counted after the refusal, and turned away. -/
example : ((run [.submit, .isClosed 0, .slot 0, .refuseNew, .fetchAdd 0, .drain, .loadCount 0 false,
    .loadClosed 0, .leave 0 .failed, .loadCount 0 false]).turns,
    (run [.submit, .isClosed 0, .slot 0, .refuseNew, .fetchAdd 0, .drain, .loadCount 0 false,
      .loadClosed 0, .leave 0 .failed, .loadCount 0 false]).drains) =
    ([.ended], [⟨true, some true⟩]) := by decide

end PulseNull.Server.Turns
