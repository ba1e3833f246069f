import Mathlib

/-! Bounded broadcast channels. A receiver is its place in what was sent; one that falls behind what
the channel keeps is told how much it missed and goes on with the oldest value kept. -/
namespace PulseNull

/-- `slots` is how many values are kept. -/
structure Broadcast (α : Type) where
  slots : Nat
  sent : List α
  deriving DecidableEq

namespace Broadcast
variable {α : Type}

inductive Received (α : Type) where
  | pending
  | value (a : α)
  | lagged (missed : Nat)

def send (b : Broadcast α) (a : α) : Broadcast α := { b with sent := b.sent ++ [a] }

/-- Where a new receiver starts. -/
def subscribe (b : Broadcast α) : Nat := b.sent.length

def recv (b : Broadcast α) (pos : Nat) : Received α :=
  if pos + b.slots < b.sent.length then .lagged (b.sent.length - b.slots - pos)
  else match b.sent[pos]? with
    | some a => .value a
    | none => .pending

/-- The values a receiver at `pos` is too late for. -/
def missed (b : Broadcast α) (pos : Nat) : List α :=
  (b.sent.drop pos).take (b.sent.length - b.slots - pos)

theorem recv_value {b : Broadcast α} {pos : Nat} {a : α} (h : b.recv pos = .value a) :
    b.sent[pos]? = some a := by
  unfold recv at h
  split at h
  · exact nomatch h
  · split at h
    · next a' ha =>
      cases h
      exact ha
    · exact nomatch h

/-- What was missed has been sent, and was there to be received. -/
theorem recv_lagged {b : Broadcast α} {pos missed : Nat} (h : b.recv pos = .lagged missed) :
    0 < missed ∧ pos + missed ≤ b.sent.length := by
  unfold recv at h
  split at h
  · next hlt =>
    cases h
    omega
  · split at h <;> exact nomatch h

/-- A receiver that lags misses the value it was to get next. -/
theorem mem_missed {b : Broadcast α} {pos missed : Nat} {a : α} (h : b.recv pos = .lagged missed)
    (ha : b.sent[pos]? = some a) : a ∈ b.missed pos := by
  unfold recv at h
  split at h
  · next hlt =>
    refine List.mem_iff_getElem?.mpr ⟨0, ?_⟩
    rw [Broadcast.missed, List.getElem?_take_of_lt (by omega), List.getElem?_drop]
    exact ha
  · split at h <;> exact nomatch h

end Broadcast
end PulseNull
