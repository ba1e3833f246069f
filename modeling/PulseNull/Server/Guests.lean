import PulseNull.Text.Chars
import PulseNull.TokenBucket
import PulseNull.Tracked

/-! The ledger of a plugin's guest turns: the day's total, the turns of each call and the token
bucket of each sender. -/
namespace PulseNull.Server.Guests

/-- Calls, and senders, tracked at once. -/
def maxTracked : ℕ := 1024

inductive GuestKind where
  | call
  | sender
  deriving DecidableEq

inductive GuestRefusal where
  | dailyBudgetSpent
  | callTurnsSpent
  | senderRateLimited
  deriving DecidableEq

/-- `[plugin_turns]`; a count of `0` turns its cap off. -/
structure PluginTurnsConfig where
  dailyTurns : UInt32
  voiceTurnsPerCall : UInt32
  guestBurst : UInt32
  guestPerMinute : ℚ

structure CallUse where
  turns : ℕ
  seen : ℚ
  deriving DecidableEq

/-- Days are counted, and times are in seconds. -/
structure GuestLedger where
  day : Option ℤ
  turnsToday : ℕ
  calls : Tracked Bytes CallUse
  senders : Tracked Bytes (TokenBucket ℚ)

def GuestLedger.new : GuestLedger := ⟨none, 0, ∅, ∅⟩

/-- One request for a turn. `first`: of the keys seen the longest ago, the one that a walk over the
hash map meets first. -/
structure Turn where
  who : Bytes
  kind : GuestKind
  now : ℚ
  today : ℤ
  first : Bytes
  deriving DecidableEq

/-- A 32-bit count that wraps. -/
def succ (n : ℕ) : ℕ := (n + 1) % 2 ^ 32

def takeCallTurn (calls : Tracked Bytes CallUse) (turn : Turn) (cap : ℕ) :
    Except GuestRefusal Unit × Tracked Bytes CallUse :=
  let calls := Tracked.room maxTracked CallUse.seen calls turn.first turn.who
  let call := (calls.lookup turn.who).getD ⟨0, turn.now⟩
  if 0 < cap ∧ cap ≤ call.turns then
    (.error .callTurnsSpent, calls.insert turn.who ⟨call.turns, turn.now⟩)
  else (.ok (), calls.insert turn.who ⟨succ call.turns, turn.now⟩)

def takeSenderToken (senders : Tracked Bytes (TokenBucket ℚ)) (turn : Turn)
    (limits : PluginTurnsConfig) : Except GuestRefusal Unit × Tracked Bytes (TokenBucket ℚ) :=
  if limits.guestBurst = 0 then (.ok (), senders)
  else
    let burst : ℚ := limits.guestBurst.toNat
    let senders := Tracked.room maxTracked TokenBucket.seen senders turn.first turn.who
    let bucket := (senders.lookup turn.who).getD ⟨burst, turn.now⟩
    let asked := bucket.ask (limits.guestPerMinute / 60) burst turn.now
    (if asked.1 then .ok () else .error .senderRateLimited, senders.insert turn.who asked.2)

/-- A new day starts from zero. -/
def GuestLedger.on (ledger : GuestLedger) (today : ℤ) : GuestLedger :=
  if ledger.day = some today then ledger else { ledger with day := some today, turnsToday := 0 }

def GuestLedger.count (ledger : GuestLedger) (answer : Except GuestRefusal Unit) : GuestLedger :=
  if answer.isOk then { ledger with turnsToday := succ ledger.turnsToday } else ledger

def GuestLedger.admits (ledger : GuestLedger) (limits : PluginTurnsConfig) (turn : Turn) :
    Except GuestRefusal Unit × GuestLedger :=
  let ledger := ledger.on turn.today
  if 0 < limits.dailyTurns.toNat ∧ limits.dailyTurns.toNat ≤ ledger.turnsToday then
    (.error .dailyBudgetSpent, ledger)
  else match turn.kind with
    | .call =>
      let (answer, calls) := takeCallTurn ledger.calls turn limits.voiceTurnsPerCall.toNat
      (answer, { ledger with calls := calls }.count answer)
    | .sender =>
      let (answer, senders) := takeSenderToken ledger.senders turn limits
      (answer, { ledger with senders := senders }.count answer)

/-- The ledger after some requests. -/
def GuestLedger.after (ledger : GuestLedger) (limits : PluginTurnsConfig) : List Turn → GuestLedger
  | [] => ledger
  | turn :: turns => (ledger.admits limits turn).2.after limits turns

/-- The turns that were admitted. -/
def GuestLedger.admitted (ledger : GuestLedger) (limits : PluginTurnsConfig) : List Turn → List Turn
  | [] => []
  | turn :: turns =>
    (if (ledger.admits limits turn).1.isOk then [turn] else []) ++
      (ledger.admits limits turn).2.admitted limits turns

/-- No request of the run makes the ledger forget the call. -/
def GuestLedger.KeepsCall (ledger : GuestLedger) (limits : PluginTurnsConfig) (who : Bytes) :
    List Turn → Prop
  | [] => True
  | turn :: turns => (who ∈ ledger.calls → who ∈ (ledger.admits limits turn).2.calls) ∧
      (ledger.admits limits turn).2.KeepsCall limits who turns

def GuestLedger.KeepsSender (ledger : GuestLedger) (limits : PluginTurnsConfig) (who : Bytes) :
    List Turn → Prop
  | [] => True
  | turn :: turns => (who ∈ ledger.senders → who ∈ (ledger.admits limits turn).2.senders) ∧
      (ledger.admits limits turn).2.KeepsSender limits who turns

/-- The turns spent on a day, as far as the ledger knows. -/
def GuestLedger.spent (ledger : GuestLedger) (day : ℤ) : ℕ :=
  if ledger.day = some day then ledger.turnsToday else 0

def GuestLedger.turnsOf (ledger : GuestLedger) (who : Bytes) : ℕ :=
  ((ledger.calls.lookup who).map CallUse.turns).getD 0

/-- The requests for turns of one call. -/
def ofCall (who : Bytes) (turn : Turn) : Bool := turn.kind = .call ∧ turn.who = who
def ofSender (who : Bytes) (turn : Turn) : Bool := turn.kind = .sender ∧ turn.who = who

/-- What the caps promise of a run of requests. -/
structure Holds (limits : PluginTurnsConfig) (turns : List Turn) : Prop where
  daily : limits.dailyTurns ≠ 0 → ∀ day,
    (GuestLedger.new.admitted limits turns).countP (·.today = day) ≤ limits.dailyTurns.toNat
  call : limits.voiceTurnsPerCall ≠ 0 → ∀ who, GuestLedger.new.KeepsCall limits who turns →
    (GuestLedger.new.admitted limits turns).countP (ofCall who) ≤ limits.voiceTurnsPerCall.toNat
  /-- The requests made in any time `since` to `since + span`. -/
  sender : limits.guestBurst ≠ 0 → ∀ early during late, turns = early ++ during ++ late →
    ∀ who since span, 0 ≤ span → (∀ turn ∈ during, since ≤ turn.now ∧ turn.now ≤ since + span) →
    (GuestLedger.new.after limits early).KeepsSender limits who during →
    (((GuestLedger.new.after limits early).admitted limits during).countP (ofSender who) : ℚ) ≤
      limits.guestBurst.toNat + max limits.guestPerMinute 0 * span / 60

/-- Calls are not forgotten while no more than the tracked number of them ask. -/
def Few (turns : List Turn) : Prop :=
  ((turns.filter (·.kind = .call)).map (·.who)).dedup.length ≤ maxTracked

/-- What the requests of others do to a guest's entry: nothing, or a newcomer takes the place of the
oldest. -/
structure LeavesOthers (ledger later : GuestLedger) (turn : Turn) : Prop where
  calls : ∀ who, ofCall who turn = false → later.calls.lookup who = ledger.calls.lookup who ∨
    (later.calls.lookup who = none ∧ (turn.kind = .call ∧ turn.who ∉ ledger.calls) ∧
      Tracked.Oldest maxTracked CallUse.seen ledger.calls who)
  senders : ∀ who, ofSender who turn = false → later.senders.lookup who = ledger.senders.lookup who ∨
    (later.senders.lookup who = none ∧ (turn.kind = .sender ∧ turn.who ∉ ledger.senders) ∧
      Tracked.Oldest maxTracked TokenBucket.seen ledger.senders who)

/-! What one request does. -/

variable {ledger : GuestLedger} {limits : PluginTurnsConfig} {turn : Turn} {turns : List Turn}
  {who : Bytes}

def GuestLedger.dailySpent (ledger : GuestLedger) (limits : PluginTurnsConfig) (today : ℤ) : Prop :=
  0 < limits.dailyTurns.toNat ∧ limits.dailyTurns.toNat ≤ ledger.spent today

theorem on_turnsToday (ledger : GuestLedger) (today : ℤ) :
    (ledger.on today).turnsToday = ledger.spent today := by
  unfold GuestLedger.on GuestLedger.spent
  split <;> rfl

@[simp] theorem on_day (ledger : GuestLedger) (today : ℤ) : (ledger.on today).day = some today := by
  unfold GuestLedger.on
  split
  · assumption
  · rfl

@[simp] theorem on_calls (ledger : GuestLedger) (today : ℤ) : (ledger.on today).calls = ledger.calls := by
  unfold GuestLedger.on
  split <;> rfl

@[simp] theorem on_senders (ledger : GuestLedger) (today : ℤ) :
    (ledger.on today).senders = ledger.senders := by
  unfold GuestLedger.on
  split <;> rfl

section
variable (ledger : GuestLedger) (answer : Except GuestRefusal Unit)

@[simp] theorem count_day : (ledger.count answer).day = ledger.day := by
  unfold GuestLedger.count
  split <;> rfl

@[simp] theorem count_calls : (ledger.count answer).calls = ledger.calls := by
  unfold GuestLedger.count
  split <;> rfl

@[simp] theorem count_senders : (ledger.count answer).senders = ledger.senders := by
  unfold GuestLedger.count
  split <;> rfl

theorem count_turnsToday : (ledger.count answer).turnsToday =
    if answer.isOk then succ ledger.turnsToday else ledger.turnsToday := by
  unfold GuestLedger.count
  split <;> rfl
end

theorem admit_spent (h : ledger.dailySpent limits turn.today) :
    ledger.admits limits turn = (.error .dailyBudgetSpent, ledger.on turn.today) := by
  unfold GuestLedger.admits
  exact if_pos (by rw [on_turnsToday]; exact h)

theorem admit_call (h : ¬ ledger.dailySpent limits turn.today) (hk : turn.kind = .call) :
    ledger.admits limits turn =
      ((takeCallTurn ledger.calls turn limits.voiceTurnsPerCall.toNat).1,
        { ledger.on turn.today with
          calls := (takeCallTurn ledger.calls turn limits.voiceTurnsPerCall.toNat).2 }.count
            (takeCallTurn ledger.calls turn limits.voiceTurnsPerCall.toNat).1) := by
  unfold GuestLedger.admits
  rw [if_neg (by rw [on_turnsToday]; exact h), hk]
  simp only [on_calls]

theorem admit_sender (h : ¬ ledger.dailySpent limits turn.today) (hk : turn.kind = .sender) :
    ledger.admits limits turn = ((takeSenderToken ledger.senders turn limits).1,
      { ledger.on turn.today with senders := (takeSenderToken ledger.senders turn limits).2 }.count
        (takeSenderToken ledger.senders turn limits).1) := by
  unfold GuestLedger.admits
  rw [if_neg (by rw [on_turnsToday]; exact h), hk]
  simp only [on_senders]

@[simp] theorem admit_day (ledger : GuestLedger) (limits : PluginTurnsConfig) (turn : Turn) :
    (ledger.admits limits turn).2.day = some turn.today := by
  by_cases h : ledger.dailySpent limits turn.today
  · simp [admit_spent h]
  cases hk : turn.kind with
  | call => simp [admit_call h hk]
  | sender => simp [admit_sender h hk]

/-- Only an admitted turn is counted for the day. -/
theorem admit_turnsToday (ledger : GuestLedger) (limits : PluginTurnsConfig) (turn : Turn) :
    (ledger.admits limits turn).2.turnsToday =
      if (ledger.admits limits turn).1.isOk then succ (ledger.spent turn.today)
      else ledger.spent turn.today := by
  by_cases h : ledger.dailySpent limits turn.today
  · simp [admit_spent h, on_turnsToday, Except.isOk, Except.toBool]
  cases hk : turn.kind with
  | call => simp [admit_call h hk, count_turnsToday, on_turnsToday]
  | sender => simp [admit_sender h hk, count_turnsToday, on_turnsToday]

theorem admit_ok_daily (h : (ledger.admits limits turn).1.isOk = true) :
    ¬ ledger.dailySpent limits turn.today := by
  intro hs
  rw [admit_spent hs] at h
  cases h

/-- The answer for a call, and its count after it. -/
theorem takeCallTurn_self (calls : Tracked Bytes CallUse) (turn : Turn) (cap : ℕ) :
    ∃ use, use = (calls.lookup turn.who).getD ⟨0, turn.now⟩ ∧
      ((takeCallTurn calls turn cap).1.isOk = decide ¬(0 < cap ∧ cap ≤ use.turns)) ∧
      (takeCallTurn calls turn cap).2.lookup turn.who = some
        ⟨if (takeCallTurn calls turn cap).1.isOk then succ use.turns else use.turns, turn.now⟩ := by
  refine ⟨_, rfl, ?_⟩
  unfold takeCallTurn
  simp only [Tracked.room_lookup_self]
  split
  · next h => simp [h, Except.isOk, Except.toBool]
  · next h => exact ⟨(decide_eq_true h).symm, AList.lookup_insert _⟩

theorem takeCallTurn_other (calls : Tracked Bytes CallUse) (cap : ℕ) (hne : who ≠ turn.who) :
    (takeCallTurn calls turn cap).2.lookup who =
      (Tracked.room maxTracked CallUse.seen calls turn.first turn.who).lookup who := by
  unfold takeCallTurn
  simp only
  split <;> exact AList.lookup_insert_ne hne

section
variable (senders : Tracked Bytes (TokenBucket ℚ)) (turn : Turn) (hburst : limits.guestBurst ≠ 0)
include hburst

/-- The answer for a sender is that of its bucket, a full one when it has none. -/
theorem takeSenderToken_self : ∃ asked, asked = TokenBucket.ask (limits.guestPerMinute / 60)
      (limits.guestBurst.toNat : ℚ)
      ((senders.lookup turn.who).getD ⟨limits.guestBurst.toNat, turn.now⟩) turn.now ∧
      (takeSenderToken senders turn limits).1.isOk = asked.1 ∧
      (takeSenderToken senders turn limits).2.lookup turn.who = some asked.2 := by
  refine ⟨_, rfl, ?_⟩
  unfold takeSenderToken
  rw [if_neg hburst]
  simp only [Tracked.room_lookup_self, AList.lookup_insert, and_true]
  split
  · next h => rw [h]; rfl
  · next h => rw [Bool.eq_false_iff.mpr h]; rfl

theorem takeSenderToken_other (hne : who ≠ turn.who) :
    (takeSenderToken senders turn limits).2.lookup who =
      (Tracked.room maxTracked TokenBucket.seen senders turn.first turn.who).lookup who := by
  unfold takeSenderToken
  rw [if_neg hburst]
  exact AList.lookup_insert_ne hne
end

/-! Entries of others. -/

theorem admit_leaves (ledger : GuestLedger) (limits : PluginTurnsConfig) (turn : Turn) :
    LeavesOthers ledger (ledger.admits limits turn).2 turn := by
  by_cases h : ledger.dailySpent limits turn.today
  · rw [admit_spent h]
    exact ⟨fun _ _ => .inl (by rw [on_calls]), fun _ _ => .inl (by rw [on_senders])⟩
  cases hk : turn.kind with
  | call =>
    rw [admit_call h hk]
    refine ⟨fun who hw => ?_, fun _ _ => .inl (by rw [count_senders, on_senders])⟩
    have hne : who ≠ turn.who := fun heq => by simp [ofCall, hk, heq] at hw
    rw [count_calls, takeCallTurn_other _ _ hne]
    exact (Tracked.room_lookup _ _).imp_right fun hx => ⟨hx.1, ⟨hk, hx.2.1⟩, hx.2.2⟩
  | sender =>
    rw [admit_sender h hk]
    refine ⟨fun _ _ => .inl (by rw [count_calls, on_calls]), fun who hw => ?_⟩
    have hne : who ≠ turn.who := fun heq => by simp [ofSender, hk, heq] at hw
    rw [count_senders]
    by_cases hburst : limits.guestBurst = 0
    · exact .inl (by rw [takeSenderToken, if_pos hburst])
    · rw [takeSenderToken_other _ _ hburst hne]
      exact (Tracked.room_lookup _ _).imp_right fun hx => ⟨hx.1, ⟨hk, hx.2.1⟩, hx.2.2⟩

/-- A guest's answer hangs on the day's total and its own entry. -/
theorem admit_congr {ledger' : GuestLedger} (hday : ledger.spent turn.today = ledger'.spent turn.today)
    (hcall : ledger.calls.lookup turn.who = ledger'.calls.lookup turn.who)
    (hsender : ledger.senders.lookup turn.who = ledger'.senders.lookup turn.who) :
    (ledger.admits limits turn).1 = (ledger'.admits limits turn).1 := by
  by_cases h : ledger.dailySpent limits turn.today
  · have h' : ledger'.dailySpent limits turn.today := by
      rwa [GuestLedger.dailySpent, ← hday]
    rw [admit_spent h, admit_spent h']
  have h' : ¬ ledger'.dailySpent limits turn.today := by
    rwa [GuestLedger.dailySpent, ← hday]
  cases hk : turn.kind with
  | call =>
    rw [admit_call h hk, admit_call h' hk]
    simp only [takeCallTurn, Tracked.room_lookup_self, hcall]
    split <;> rfl
  | sender =>
    rw [admit_sender h hk, admit_sender h' hk]
    simp only [takeSenderToken, Tracked.room_lookup_self, hsender]
    split <;> rfl

/-- A refused turn is counted neither for the day nor for any call. -/
theorem refused_uncounted (h : (ledger.admits limits turn).1.isOk = false) :
    (ledger.admits limits turn).2.spent turn.today = ledger.spent turn.today ∧
      ∀ who, (ledger.admits limits turn).2.turnsOf who = ledger.turnsOf who := by
  refine ⟨by simp [GuestLedger.spent, admit_turnsToday, h], fun who => ?_⟩
  by_cases hd : ledger.dailySpent limits turn.today
  · simp [admit_spent hd, GuestLedger.turnsOf]
  cases hk : turn.kind with
  | sender => simp [admit_sender hd hk, GuestLedger.turnsOf]
  | call =>
    rw [admit_call hd hk] at h ⊢
    obtain ⟨use, huse, hok, hself⟩ := takeCallTurn_self ledger.calls turn limits.voiceTurnsPerCall.toNat
    simp only [GuestLedger.turnsOf, count_calls]
    rw [h] at hok hself
    -- a call that is refused has an entry, so nothing is forgotten for it
    have hspent : 0 < limits.voiceTurnsPerCall.toNat ∧ limits.voiceTurnsPerCall.toNat ≤ use.turns := by
      simpa using hok.symm
    have hmem : turn.who ∈ ledger.calls := by
      by_contra hnew
      rw [AList.lookup_eq_none.mpr hnew] at huse
      rw [huse] at hspent
      simp only [Option.getD_none] at hspent
      omega
    by_cases hw : who = turn.who
    · obtain ⟨old, hold⟩ := Option.isSome_iff_exists.mp (AList.lookup_isSome.mpr hmem)
      rw [hold, Option.getD_some] at huse
      rw [hw, hself, hold, huse]
      rfl
    · rw [takeCallTurn_other _ _ hw, Tracked.room, if_pos hmem]

/-! Runs. A count is kept of what was admitted so far. -/

@[simp] theorem countP_answer (ok : Bool) (p : Turn → Bool) (turn : Turn) :
    (if ok then [turn] else []).countP p = (ok && p turn).toNat := by
  cases ok <;> cases h : p turn <;> simp [h]

/-- The day's total, with `n` turns admitted on `day`. -/
structure ByDay (limits : PluginTurnsConfig) (ledger : GuestLedger) (day : ℤ) (n : ℕ)
    (turns : List Turn) : Prop where
  le : n ≤ limits.dailyTurns.toNat
  today : ledger.day = some day → n = ledger.turnsToday
  past : ledger.day ≠ some day → n ≠ 0 → ∀ turn ∈ turns, day < turn.today
  later : ∀ d, ledger.day = some d → ∀ turn ∈ turns, d ≤ turn.today

theorem ByDay.admits {day : ℤ} {n : ℕ} (h : ByDay limits ledger day n (turn :: turns))
    (hset : limits.dailyTurns ≠ 0) (hlater : ∀ t ∈ turns, turn.today ≤ t.today) :
    ByDay limits (ledger.admits limits turn).2 day
      (n + ((ledger.admits limits turn).1.isOk && decide (turn.today = day)).toNat) turns := by
  have hlt := limits.dailyTurns.toNat_lt
  have hpos : 0 < limits.dailyTurns.toNat := by
    have : limits.dailyTurns.toNat ≠ 0 := fun h0 => hset (UInt32.toNat_inj.mp h0)
    omega
  have hdays : ∀ d, (ledger.admits limits turn).2.day = some d → ∀ t ∈ turns, d ≤ t.today := by
    intro d hd t ht
    rw [admit_day] at hd
    exact Option.some.inj hd ▸ hlater t ht
  by_cases htoday : turn.today = day
  · -- the count of the day goes on, or the day begins
    have hn : n = ledger.spent turn.today := by
      unfold GuestLedger.spent
      split
      · next hd => exact h.today (htoday ▸ hd)
      · next hd =>
        by_contra hn
        exact absurd htoday (h.past (htoday ▸ hd) hn turn (by simp)).ne'
    have hcount : (ledger.admits limits turn).2.turnsToday = n +
        ((ledger.admits limits turn).1.isOk && decide (turn.today = day)).toNat ∧
        n + ((ledger.admits limits turn).1.isOk && decide (turn.today = day)).toNat ≤
          limits.dailyTurns.toNat := by
      rw [admit_turnsToday, ← hn]
      cases hok : (ledger.admits limits turn).1.isOk with
      | false => simp [h.le]
      | true =>
        have hfree := admit_ok_daily hok
        rw [GuestLedger.dailySpent, ← hn] at hfree
        simp only [if_true, succ, htoday, decide_true, Bool.and_self, Bool.toNat_true]
        omega
    exact ⟨hcount.2, fun _ => hcount.1.symm, fun hd => absurd (htoday ▸ admit_day ..) hd, hdays⟩
  · simp only [htoday, decide_false, Bool.and_false, Bool.toNat_false, Nat.add_zero]
    refine ⟨h.le, fun hd => ?_, fun _ hn t ht => ?_, hdays⟩
    · rw [admit_day] at hd
      exact absurd (Option.some.inj hd) htoday
    · by_cases hd : ledger.day = some day
      · have := h.later day hd turn (by simp)
        have := hlater t ht
        omega
      · exact h.past hd hn t (by simp [ht])

theorem ByDay.run {day : ℤ} {n : ℕ} (h : ByDay limits ledger day n turns)
    (hset : limits.dailyTurns ≠ 0) (hord : turns.Pairwise fun a b => a.today ≤ b.today) :
    n + (ledger.admitted limits turns).countP (·.today = day) ≤ limits.dailyTurns.toNat := by
  induction turns generalizing ledger n with
  | nil => exact h.le
  | cons turn turns ih =>
    obtain ⟨hlater, hord⟩ := List.pairwise_cons.mp hord
    have hnext := ih (h.admits hset hlater) hord
    rw [GuestLedger.admitted, List.countP_append, countP_answer]
    omega

/-- A call's count, with `n` of its turns admitted. -/
structure ByCall (cap : ℕ) (ledger : GuestLedger) (who : Bytes) (n : ℕ) : Prop where
  le : n ≤ cap
  absent : who ∉ ledger.calls → n = 0
  present : ∀ use, ledger.calls.lookup who = some use → use.turns = n

private theorem mem_of_lookup {V : Type} {m : Tracked Bytes V} {v : V} (h : m.lookup who = some v) :
    who ∈ m :=
  AList.lookup_isSome.mp (by rw [h]; rfl)

theorem ByCall.admits {n : ℕ} (h : ByCall limits.voiceTurnsPerCall.toNat ledger who n)
    (hset : limits.voiceTurnsPerCall ≠ 0)
    (hkeeps : who ∈ ledger.calls → who ∈ (ledger.admits limits turn).2.calls) :
    ByCall limits.voiceTurnsPerCall.toNat (ledger.admits limits turn).2 who
      (n + ((ledger.admits limits turn).1.isOk && ofCall who turn).toNat) := by
  have hlt := limits.voiceTurnsPerCall.toNat_lt
  have hpos : 0 < limits.voiceTurnsPerCall.toNat := by
    have : limits.voiceTurnsPerCall.toNat ≠ 0 := fun h0 => hset (UInt32.toNat_inj.mp h0)
    omega
  cases hown : ofCall who turn with
  | false =>
    simp only [Bool.and_false, Bool.toNat_false, Nat.add_zero]
    rcases (admit_leaves ledger limits turn).calls who hown with heq | ⟨hnone, -, -, use, huse, -⟩
    · refine ⟨h.le, fun hnew => h.absent fun hmem => hnew (hkeeps hmem), fun use huse => ?_⟩
      exact h.present use (heq ▸ huse)
    · exact absurd (hkeeps (mem_of_lookup huse)) (AList.lookup_eq_none.mp hnone)
  | true =>
    obtain ⟨hk, rfl⟩ : turn.kind = .call ∧ turn.who = who := by simpa [ofCall] using hown
    by_cases hd : ledger.dailySpent limits turn.today
    · simp only [admit_spent hd, Except.isOk, Except.toBool, Bool.false_and, Bool.toNat_false,
        Nat.add_zero]
      exact ⟨h.le, by simpa using h.absent, by simpa using h.present⟩
    rw [admit_call hd hk]
    obtain ⟨use, huse, hok, hself⟩ := takeCallTurn_self ledger.calls turn limits.voiceTurnsPerCall.toNat
    have hn : use.turns = n := by
      rw [huse]
      cases hl : ledger.calls.lookup turn.who with
      | none => exact (h.absent (AList.lookup_eq_none.mp hl)).symm
      | some old => exact h.present old hl
    rw [hn] at hok hself
    rw [Bool.and_true]
    have hle := h.le
    refine ⟨?_, fun hnew => ?_, fun new hnew => ?_⟩
    · rw [hok]
      by_cases hcap : limits.voiceTurnsPerCall.toNat ≤ n <;> simp [hpos, hcap] <;> omega
    · exact absurd (mem_of_lookup hself) (by simpa using hnew)
    · rw [count_calls] at hnew
      obtain rfl := Option.some.inj (hself.symm.trans hnew)
      simp only [hok]
      by_cases hcap : limits.voiceTurnsPerCall.toNat ≤ n <;> simp [hpos, hcap, succ]
      omega

theorem ByCall.run {n : ℕ} (h : ByCall limits.voiceTurnsPerCall.toNat ledger who n)
    (hset : limits.voiceTurnsPerCall ≠ 0) (hkeeps : ledger.KeepsCall limits who turns) :
    n + (ledger.admitted limits turns).countP (ofCall who) ≤ limits.voiceTurnsPerCall.toNat := by
  induction turns generalizing ledger n with
  | nil => exact h.le
  | cons turn turns ih =>
    have hnext := ih (h.admits hset hkeeps.1) hkeeps.2
    rw [GuestLedger.admitted, List.countP_append, countP_answer]
    omega

/-- A sender's bucket, with `n` of its turns admitted since `since`, none of them after `last`. -/
structure BySender (limits : PluginTurnsConfig) (ledger : GuestLedger) (who : Bytes) (since last : ℚ)
    (n : ℕ) (turns : List Turn) : Prop where
  absent : who ∉ ledger.senders → n = 0
  present : ∀ b, ledger.senders.lookup who = some b → (∀ turn ∈ turns, b.seen ≤ turn.now) ∧
    (n ≠ 0 → b.seen ≤ last) ∧
      b.Account (limits.guestPerMinute / 60) (limits.guestBurst.toNat : ℚ) since n

theorem BySender.admits {since last : ℚ} {n : ℕ}
    (h : BySender limits ledger who since last n (turn :: turns)) (hset : limits.guestBurst ≠ 0)
    (hsince : since ≤ turn.now) (hlast : turn.now ≤ last) (hlater : ∀ t ∈ turns, turn.now ≤ t.now)
    (hkeeps : who ∈ ledger.senders → who ∈ (ledger.admits limits turn).2.senders) :
    BySender limits (ledger.admits limits turn).2 who since last
      (n + ((ledger.admits limits turn).1.isOk && ofSender who turn).toNat) turns := by
  have hsame {later : GuestLedger} (heq : later.senders.lookup who = ledger.senders.lookup who) :
      BySender limits later who since last n turns := by
    refine ⟨fun hnew => h.absent ?_, fun b hb => ?_⟩
    · rw [← AList.lookup_eq_none] at hnew ⊢
      exact heq ▸ hnew
    · obtain ⟨hseen, hrest⟩ := h.present b (heq ▸ hb)
      exact ⟨fun t ht => hseen t (by simp [ht]), hrest⟩
  cases hown : ofSender who turn with
  | false =>
    simp only [Bool.and_false, Bool.toNat_false, Nat.add_zero]
    rcases (admit_leaves ledger limits turn).senders who hown with heq | ⟨hnone, -, -, b, hb, -⟩
    · exact hsame heq
    · exact absurd (hkeeps (mem_of_lookup hb)) (AList.lookup_eq_none.mp hnone)
  | true =>
    obtain ⟨hk, rfl⟩ : turn.kind = .sender ∧ turn.who = who := by simpa [ofSender] using hown
    by_cases hd : ledger.dailySpent limits turn.today
    · simp only [admit_spent hd, Except.isOk, Except.toBool, Bool.false_and, Bool.toNat_false,
        Nat.add_zero]
      exact hsame (by rw [on_senders])
    rw [admit_sender hd hk]
    obtain ⟨asked, hasked, hok, hself⟩ := takeSenderToken_self ledger.senders turn hset
    rw [Bool.and_true, hok]
    refine ⟨fun hnew => ?_, fun b hb => ?_⟩
    · exact absurd (mem_of_lookup hself) (by simpa using hnew)
    rw [count_senders] at hb
    obtain rfl := Option.some.inj (hself.symm.trans hb)
    have hburst : (0 : ℚ) ≤ limits.guestBurst.toNat := Nat.cast_nonneg _
    have hacc : asked.2.Account (limits.guestPerMinute / 60) (limits.guestBurst.toNat : ℚ) since
        (n + asked.1.toNat) := by
      rw [hasked]
      cases hl : ledger.senders.lookup turn.who with
      | none =>
        obtain rfl := h.absent (AList.lookup_eq_none.mp hl)
        have hfull : TokenBucket.Account (limits.guestPerMinute / 60) (limits.guestBurst.toNat : ℚ)
            since 0 ⟨(limits.guestBurst.toNat : ℚ), turn.now⟩ := ⟨fun h0 => absurd rfl h0⟩
        exact hfull.ask hburst le_rfl hsince
      | some b =>
        obtain ⟨hseen, -, hb⟩ := h.present b hl
        exact hb.ask hburst (hseen turn (by simp)) hsince
    have hseen : asked.2.seen = turn.now := by rw [hasked, TokenBucket.ask_seen]
    exact ⟨fun t ht => hseen ▸ hlater t ht, fun _ => hseen ▸ hlast, hacc⟩

theorem BySender.run {since last : ℚ} {n : ℕ} (h : BySender limits ledger who since last n turns)
    (hset : limits.guestBurst ≠ 0) (hspan : since ≤ last)
    (htimes : ∀ turn ∈ turns, since ≤ turn.now ∧ turn.now ≤ last)
    (hord : turns.Pairwise fun a b => a.now ≤ b.now) (hkeeps : ledger.KeepsSender limits who turns) :
    (n + (ledger.admitted limits turns).countP (ofSender who) : ℚ) ≤
      limits.guestBurst.toNat + max (limits.guestPerMinute / 60) 0 * (last - since) := by
  have hburst : (0 : ℚ) ≤ limits.guestBurst.toNat := Nat.cast_nonneg _
  induction turns generalizing ledger n with
  | nil =>
    rw [GuestLedger.admitted, List.countP_nil, Nat.cast_zero, add_zero]
    by_cases hn : n = 0
    · rw [hn, Nat.cast_zero]
      exact add_nonneg hburst (mul_nonneg (le_max_right _ _) (sub_nonneg.mpr hspan))
    · have hmem : who ∈ ledger.senders := by_contra fun hnew => hn (h.absent hnew)
      obtain ⟨b, hb⟩ := Option.isSome_iff_exists.mp (AList.lookup_isSome.mpr hmem)
      obtain ⟨-, hseen, hacc⟩ := h.present b hb
      exact hacc.le hburst (hseen hn) hspan
  | cons turn turns ih =>
    obtain ⟨hlater, hord⟩ := List.pairwise_cons.mp hord
    obtain ⟨hsince, hlast⟩ := htimes turn (by simp)
    have hnext := ih (h.admits hset hsince hlast hlater hkeeps.1)
      (fun t ht => htimes t (by simp [ht])) hord hkeeps.2
    rw [GuestLedger.admitted, List.countP_append, countP_answer]
    rw [Nat.cast_add] at hnext
    rw [Nat.cast_add, ← add_assoc]
    exact hnext

/-- No bucket was seen later than the last request. -/
theorem seen_after {time : ℚ} (h : ∀ who b, ledger.senders.lookup who = some b → b.seen ≤ time)
    (htimes : ∀ turn ∈ turns, turn.now ≤ time) :
    ∀ who b, (ledger.after limits turns).senders.lookup who = some b → b.seen ≤ time := by
  induction turns generalizing ledger with
  | nil => exact h
  | cons turn turns ih =>
    refine ih (fun who b hb => ?_) fun t ht => htimes t (by simp [ht])
    cases hown : ofSender who turn with
    | false =>
      rcases (admit_leaves ledger limits turn).senders who hown with heq | ⟨hnone, -⟩
      · exact h who b (heq ▸ hb)
      · exact nomatch hnone.symm.trans hb
    | true =>
      obtain ⟨hk, rfl⟩ : turn.kind = .sender ∧ turn.who = who := by simpa [ofSender] using hown
      by_cases hd : ledger.dailySpent limits turn.today
      · rw [admit_spent hd, on_senders] at hb
        exact h _ b hb
      rw [admit_sender hd hk, count_senders] at hb
      by_cases hset : limits.guestBurst = 0
      · rw [takeSenderToken, if_pos hset] at hb
        exact h _ b hb
      · obtain ⟨asked, hasked, -, hself⟩ := takeSenderToken_self ledger.senders turn hset
        obtain rfl := Option.some.inj (hself.symm.trans hb)
        rw [hasked, TokenBucket.ask_seen]
        exact htimes turn (by simp)

/-- A key of a call after a request was there before, or is the one that asks. -/
theorem mem_calls_admits (h : who ∈ (ledger.admits limits turn).2.calls) :
    who ∈ ledger.calls ∨ ofCall who turn = true := by
  cases hown : ofCall who turn with
  | true => exact .inr rfl
  | false =>
    refine .inl (AList.lookup_isSome.mp ?_)
    rcases (admit_leaves ledger limits turn).calls who hown with heq | ⟨hnone, -⟩
    · exact heq ▸ AList.lookup_isSome.mpr h
    · exact absurd h (AList.lookup_eq_none.mp hnone)

/-- A call keeps its entry when it asks itself. -/
theorem mem_calls_own (hown : ofCall who turn = true) (hmem : who ∈ ledger.calls) :
    who ∈ (ledger.admits limits turn).2.calls := by
  obtain ⟨hk, rfl⟩ : turn.kind = .call ∧ turn.who = who := by simpa [ofCall] using hown
  by_cases hd : ledger.dailySpent limits turn.today
  · simpa [admit_spent hd] using hmem
  · obtain ⟨use, -, -, hself⟩ := takeCallTurn_self ledger.calls turn limits.voiceTurnsPerCall.toNat
    simpa [admit_call hd hk] using mem_of_lookup hself

private theorem keepsCall_of_keys {used : List Bytes} (hused : used.length ≤ maxTracked)
    (hkeys : ∀ k ∈ ledger.calls, k ∈ used)
    (hturns : ∀ turn ∈ turns, turn.kind = .call → turn.who ∈ used) :
    ledger.KeepsCall limits who turns := by
  induction turns generalizing ledger with
  | nil => trivial
  | cons turn turns ih =>
    refine ⟨fun hmem => ?_, ih (fun k hk => ?_) fun t ht => hturns t (by simp [ht])⟩
    · cases hown : ofCall who turn with
      | true => exact mem_calls_own hown hmem
      | false =>
        rcases (admit_leaves ledger limits turn).calls who hown with heq | ⟨-, ⟨hk, hnew⟩, hfull, -⟩
        · exact AList.lookup_isSome.mp (heq ▸ AList.lookup_isSome.mpr hmem)
        -- the newcomer is one key more than those tracked
        have hsub : turn.who :: ledger.calls.keys ⊆ used :=
          List.cons_subset.mpr ⟨hturns turn (by simp) hk, fun k hk => hkeys k hk⟩
        have hnodup : (turn.who :: ledger.calls.keys).Nodup :=
          List.nodup_cons.mpr ⟨hnew, ledger.calls.keys_nodup⟩
        have hlen := (hnodup.subperm hsub).length_le
        have heq : ledger.calls.keys.length = ledger.calls.entries.length := List.length_map _
        rw [List.length_cons] at hlen
        omega
    · rcases mem_calls_admits hk with hold | hown
      · exact hkeys k hold
      · obtain ⟨hkind, rfl⟩ : turn.kind = .call ∧ turn.who = k := by simpa [ofCall] using hown
        exact hturns turn (by simp) hkind

theorem few_kept (h : Few turns) (who : Bytes) : GuestLedger.new.KeepsCall limits who turns := by
  refine keepsCall_of_keys h (fun k hk => absurd hk (AList.notMem_empty k)) fun turn ht hk => ?_
  exact List.mem_dedup.mpr (List.mem_map.mpr ⟨turn, List.mem_filter.mpr ⟨ht, by simpa using hk⟩, rfl⟩)

/-- What the ledger promises of a run and of one request. -/
structure Sound (limits : PluginTurnsConfig) (turns : List Turn) : Prop extends Holds limits turns where
  few : Few turns → ∀ who, GuestLedger.new.KeepsCall limits who turns
  refused : ∀ (ledger : GuestLedger) (turn : Turn), (ledger.admits limits turn).1.isOk = false →
    (ledger.admits limits turn).2.spent turn.today = ledger.spent turn.today ∧
      ∀ who, (ledger.admits limits turn).2.turnsOf who = ledger.turnsOf who
  others : ∀ (ledger : GuestLedger) (turn : Turn),
    LeavesOthers ledger (ledger.admits limits turn).2 turn
  own : ∀ (ledger ledger' : GuestLedger) (turn : Turn),
    ledger.spent turn.today = ledger'.spent turn.today →
    ledger.calls.lookup turn.who = ledger'.calls.lookup turn.who →
    ledger.senders.lookup turn.who = ledger'.senders.lookup turn.who →
    (ledger.admits limits turn).1 = (ledger'.admits limits turn).1

theorem new_absent (who : Bytes) : who ∉ GuestLedger.new.calls ∧ who ∉ GuestLedger.new.senders :=
  ⟨AList.notMem_empty who, AList.notMem_empty who⟩

theorem sender_bound {early during late : List Turn} {since span : ℚ}
    (hord : (early ++ during ++ late).Pairwise fun a b => a.now ≤ b.now)
    (hset : limits.guestBurst ≠ 0) (hspan : 0 ≤ span)
    (htimes : ∀ turn ∈ during, since ≤ turn.now ∧ turn.now ≤ since + span)
    (hkeeps : (GuestLedger.new.after limits early).KeepsSender limits who during) :
    (((GuestLedger.new.after limits early).admitted limits during).countP (ofSender who) : ℚ) ≤
      limits.guestBurst.toNat + max limits.guestPerMinute 0 * span / 60 := by
  obtain ⟨hearly, -, -⟩ := List.pairwise_append.mp hord
  obtain ⟨-, hduring, hbefore⟩ := List.pairwise_append.mp hearly
  have hstart : BySender limits (GuestLedger.new.after limits early) who since (since + span) 0
      during := by
    refine ⟨fun _ => rfl, fun b hb => ⟨fun turn ht => ?_, fun h0 => absurd rfl h0,
      ⟨fun h0 => absurd rfl h0⟩⟩⟩
    exact seen_after (fun who b hb => absurd (mem_of_lookup hb) (new_absent who).2)
      (fun t hm => hbefore t hm turn ht) who b hb
  have hrun := hstart.run hset (le_add_of_nonneg_right hspan) htimes hduring hkeeps
  have hrate : max (limits.guestPerMinute / 60) 0 = max limits.guestPerMinute 0 / 60 := by
    have hdiv := max_div_div_right (by norm_num : (0 : ℚ) ≤ 60) limits.guestPerMinute 0
    rwa [zero_div] at hdiv
  rw [Nat.cast_zero, zero_add, hrate, add_sub_cancel_left] at hrun
  rwa [mul_div_right_comm]

/-- The caps hold over whole runs whose clock and day do not go back. -/
theorem guests_sound (hord : turns.Pairwise fun a b => a.now ≤ b.now ∧ a.today ≤ b.today) :
    Sound limits turns where
  daily hset day := by
    have hstart : ByDay limits .new day 0 turns :=
      ⟨Nat.zero_le _, nofun, fun _ h0 => absurd rfl h0, nofun⟩
    have hrun := hstart.run hset (hord.imp And.right)
    rwa [Nat.zero_add] at hrun
  call hset who hkeeps := by
    have hstart : ByCall limits.voiceTurnsPerCall.toNat .new who 0 :=
      ⟨Nat.zero_le _, fun _ => rfl, fun use huse => absurd (mem_of_lookup huse) (new_absent who).1⟩
    have hrun := hstart.run hset hkeeps
    rwa [Nat.zero_add] at hrun
  sender hset early during late heq who since span hspan htimes hkeeps :=
    sender_bound (heq ▸ hord.imp And.left) hset hspan htimes hkeeps
  few h who := few_kept h who
  refused ledger turn h := refused_uncounted h
  others ledger turn := admit_leaves ledger limits turn
  own ledger ledger' turn hday hcall hsender := admit_congr hday hcall hsender

/-! A sample plugin. -/

def sampleLimits : PluginTurnsConfig := ⟨3, 1, 1, 6⟩
def name (n : ℕ) : Bytes := List.replicate n 97
def post (n : ℕ) (now : ℚ) : Turn := ⟨name n, .sender, now, 0, name 0⟩

/-- A guest that waits is admitted again, and one that does not is refused. -/
theorem guests_sound_sample : Sound sampleLimits [post 1 0, post 1 5, post 1 10] ∧
    (GuestLedger.new.admitted sampleLimits [post 1 0, post 1 5, post 1 10]).map (·.now) = [0, 10] :=
  ⟨guests_sound (by simp [post]; norm_num), by decide +kernel⟩

/-! A sender that is forgotten. -/

theorem admitted_append (a b : List Turn) : ledger.admitted limits (a ++ b) =
    ledger.admitted limits a ++ (ledger.after limits a).admitted limits b := by
  induction a generalizing ledger with
  | nil => rfl
  | cons turn a ih => simp only [List.cons_append, GuestLedger.admitted, ih, List.append_assoc]; rfl

theorem after_append (a b : List Turn) :
    ledger.after limits (a ++ b) = (ledger.after limits a).after limits b := by
  induction a generalizing ledger with
  | nil => rfl
  | cons turn a ih => exact ih

/-- One turn for each sender, and no refill. -/
def onceLimits : PluginTurnsConfig := ⟨0, 0, 1, 0⟩

theorem name_inj {m n : ℕ} (h : name m = name n) : m = n := by
  simpa [name] using congrArg List.length h

/-- A sender without a bucket is admitted and gets one. -/
theorem newcomer {n : ℕ} (hnew : name n ∉ ledger.senders) :
    (ledger.admits onceLimits (post n 0)).1 = .ok () ∧
      (ledger.admits onceLimits (post n 0)).2.senders =
        (Tracked.forgetOldest maxTracked TokenBucket.seen ledger.senders (name 0)).insert (name n)
          ⟨0, 0⟩ := by
  have hfree : ¬ ledger.dailySpent onceLimits (post n 0).today := fun h => absurd h.1 (by decide)
  have hset : onceLimits.guestBurst ≠ 0 := by decide
  have hnone : ledger.senders.lookup (name n) = none := AList.lookup_eq_none.mpr hnew
  have hone : (onceLimits.guestBurst.toNat : ℚ) = 1 := Nat.cast_one
  have hfull : TokenBucket.ask (onceLimits.guestPerMinute / 60) 1 ⟨1, 0⟩ 0 = (true, ⟨0, 0⟩) := by
    rw [TokenBucket.ask_full le_rfl, sub_self]
  have htake : takeSenderToken ledger.senders (post n 0) onceLimits = (.ok (),
      (Tracked.forgetOldest maxTracked TokenBucket.seen ledger.senders (name 0)).insert (name n)
        ⟨0, 0⟩) := by
    unfold takeSenderToken
    rw [if_neg hset]
    simp only [post, Tracked.room_lookup_self, hnone, Option.getD_none, hone, hfull, if_true]
    rw [Tracked.room, if_neg hnew]
  rw [admit_sender hfree rfl, htake]
  exact ⟨rfl, count_senders _ _⟩

/-- The first `n + 1` names have asked, all at once. -/
structure Crowded (senders : Tracked Bytes (TokenBucket ℚ)) (n : ℕ) : Prop where
  length : senders.entries.length = n + 1
  mem : ∀ i, name i ∈ senders → i ≤ n
  seen : ∀ who b, senders.lookup who = some b → b.seen = 0
  victim : name 0 ∈ senders

theorem Crowded.next {n : ℕ} (h : Crowded ledger.senders n) (hroom : n + 1 < maxTracked) :
    Crowded (ledger.admits onceLimits (post (n + 1) 0)).2.senders (n + 1) := by
  have hnew : name (n + 1) ∉ ledger.senders := fun hm => absurd (h.mem _ hm) (by omega)
  rw [(newcomer hnew).2, Tracked.forgetOldest_of_lt (by rw [h.length]; exact hroom)]
  refine ⟨?_, fun i hi => ?_, fun who b hb => ?_, ?_⟩
  · rw [AList.entries_insert_of_notMem hnew, List.length_cons, h.length]
  · rcases (AList.mem_insert _).mp hi with heq | hold
    · exact (name_inj heq).le
    · exact (h.mem i hold).trans (Nat.le_succ n)
  · by_cases heq : who = name (n + 1)
    · rw [heq, AList.lookup_insert] at hb
      obtain rfl := Option.some.inj hb
      rfl
    · rw [AList.lookup_insert_ne heq] at hb
      exact h.seen who b hb
  · exact (AList.mem_insert _).mpr (.inr h.victim)

/-- Names `1` to `n`, each once. -/
def crowd (n : ℕ) : List Turn := (List.range n).map fun i => post (i + 1) 0

theorem crowd_succ (n : ℕ) : crowd (n + 1) = crowd n ++ [post (n + 1) 0] := by
  simp [crowd, List.range_succ]

theorem crowded : ∀ {n : ℕ}, n < maxTracked →
    Crowded (GuestLedger.new.after onceLimits (post 0 0 :: crowd n)).senders n
  | 0, _ => by
    have hfirst := (newcomer (new_absent (name 0)).2).2
    rw [Tracked.forgetOldest_of_lt (by decide)] at hfirst
    change Crowded (GuestLedger.new.admits onceLimits (post 0 0)).2.senders 0
    rw [hfirst]
    refine ⟨rfl, fun i hi => ?_, fun who b hb => ?_, ?_⟩
    · rcases (AList.mem_insert _).mp hi with heq | hold
      · exact (name_inj heq).le
      · exact absurd hold (new_absent _).2
    · by_cases heq : who = name 0
      · rw [heq, AList.lookup_insert] at hb
        obtain rfl := Option.some.inj hb
        rfl
      · rw [AList.lookup_insert_ne heq] at hb
        exact absurd (mem_of_lookup hb) (new_absent who).2
    · exact (AList.mem_insert _).mpr (.inl rfl)
  | n + 1, h => by
    rw [crowd_succ, ← List.cons_append, after_append]
    exact (crowded (Nat.lt_of_succ_lt h)).next h

/-- The newcomer after the map is full takes the first sender's place. -/
theorem forgotten :
    name 0 ∉ (GuestLedger.new.after onceLimits (post 0 0 :: crowd maxTracked)).senders := by
  have hfull : Crowded _ 1023 := crowded (by decide)
  rw [show maxTracked = 1023 + 1 from rfl, crowd_succ, ← List.cons_append, after_append]
  generalize GuestLedger.new.after onceLimits (post 0 0 :: crowd 1023) = ledger at hfull
  have hnew : name 1024 ∉ ledger.senders := fun hm => absurd (hfull.mem _ hm) (by omega)
  change name 0 ∉ (ledger.admits onceLimits (post 1024 0)).2.senders
  rw [(newcomer hnew).2]
  intro hmem
  rcases (AList.mem_insert _).mp hmem with heq | hold
  · exact absurd (name_inj heq) (by omega)
  have hold0 : name 0 ∈ Tracked.oldest TokenBucket.seen ledger.senders := by
    obtain ⟨b, hb⟩ := Option.isSome_iff_exists.mp (AList.lookup_isSome.mpr hfull.victim)
    refine List.mem_map.mpr ⟨⟨name 0, b⟩, List.mem_filter.mpr ⟨AList.mem_lookup_iff.mp hb, ?_⟩, rfl⟩
    refine List.all_eq_true.mpr fun e he => ?_
    have hseen := hfull.seen e.1 e.2 (AList.mem_lookup_iff.mpr he)
    simp [hfull.seen _ b hb, hseen]
  unfold Tracked.forgetOldest at hold
  rw [if_neg (by rw [hfull.length]; decide), if_pos hold0] at hold
  exact absurd rfl (AList.mem_erase.mp hold).1

/-- Where the plain bounds fail: without a burst, without a cap for the call, at a rate below zero,
and for a sender that was forgotten in between. -/
theorem bounds_exceeded :
    (∃ limits, limits.guestBurst = 0 ∧
      ¬((GuestLedger.new.admitted limits [post 0 0]).countP (ofSender (name 0)) : ℚ) ≤
        limits.guestBurst.toNat + limits.guestPerMinute * 0 / 60) ∧
    (∃ limits turns, Few turns ∧ limits.voiceTurnsPerCall = 0 ∧
      ¬(GuestLedger.new.admitted limits turns).countP (ofCall (name 0)) ≤
        limits.voiceTurnsPerCall.toNat) ∧
    (∃ limits, limits.guestBurst = 1 ∧
      ¬((GuestLedger.new.admitted limits [post 0 0]).countP (ofSender (name 0)) : ℚ) ≤
        limits.guestBurst.toNat + limits.guestPerMinute * 60 / 60) ∧
    ∃ turns, (∀ turn ∈ turns, turn.now = 0) ∧
      ¬((GuestLedger.new.admitted onceLimits turns).countP (ofSender (name 0)) : ℚ) ≤
        onceLimits.guestBurst.toNat + onceLimits.guestPerMinute * 0 / 60 := by
  refine ⟨⟨⟨0, 0, 0, 6⟩, rfl, by decide +kernel⟩,
    ⟨⟨0, 0, 5, 6⟩, [⟨name 0, .call, 0, 0, name 0⟩],
      by unfold Few; decide, rfl, by decide +kernel⟩,
    ⟨⟨0, 0, 1, -60⟩, rfl, by decide +kernel⟩, post 0 0 :: crowd maxTracked ++ [post 0 0], ?_, ?_⟩
  · intro turn ht
    simp only [crowd, List.mem_append, List.mem_cons, List.mem_map, List.not_mem_nil, or_false] at ht
    rcases ht with (rfl | ⟨i, -, rfl⟩) | rfl <;> rfl
  · have hfirst := (newcomer (new_absent (name 0)).2).1
    have hlast := (newcomer forgotten).1
    have htwo : 2 ≤ (GuestLedger.new.admitted onceLimits
        (post 0 0 :: crowd maxTracked ++ [post 0 0])).countP (ofSender (name 0)) := by
      rw [admitted_append, List.countP_append]
      generalize GuestLedger.new.after onceLimits (post 0 0 :: crowd maxTracked) = ledger at hlast
      simp only [GuestLedger.admitted, hfirst, hlast, List.countP_append]
      have hown : [post 0 0].countP (ofSender (name 0)) = 1 := by decide
      simp only [Except.isOk, Except.toBool, if_true, hown, List.countP_nil]
      omega
    have hone : (onceLimits.guestBurst.toNat : ℚ) = 1 := Nat.cast_one
    rw [hone, mul_zero, zero_div, add_zero, not_le]
    exact_mod_cast htwo

end PulseNull.Server.Guests
