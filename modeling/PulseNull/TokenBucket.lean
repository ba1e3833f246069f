import Mathlib

/-! A token bucket that refills when it is asked, over an ordered field. -/
namespace PulseNull

/-- What was left when it was last asked, and when that was. -/
structure TokenBucket (K : Type) where
  tokens : K
  seen : K

namespace TokenBucket
variable {K : Type} [Field K] [LinearOrder K] [IsStrictOrderedRing K]

/-- Refill for the time since, up to the burst. -/
def refill (rate burst : K) (b : TokenBucket K) (now : K) : TokenBucket K :=
  ⟨min (b.tokens + max (now - b.seen) 0 * rate) burst, now⟩

/-- Whether a whole token is there, and the bucket after it is taken. -/
def take (b : TokenBucket K) : Bool × TokenBucket K :=
  if b.tokens < 1 then (false, b) else (true, { b with tokens := b.tokens - 1 })

def ask (rate burst : K) (b : TokenBucket K) (now : K) : Bool × TokenBucket K :=
  (b.refill rate burst now).take

variable {rate burst now : K} {b : TokenBucket K}

omit [IsStrictOrderedRing K] in
@[simp] theorem ask_seen (b : TokenBucket K) : (b.ask rate burst now).2.seen = now := by
  unfold ask take
  split <;> rfl

/-- One answer: what was let through and what is left, against what was there and what came in. A
rate below zero brings nothing in. -/
theorem ask_charged (hseen : b.seen ≤ now) :
    ((b.ask rate burst now).1.toNat : K) + max (b.ask rate burst now).2.tokens 0 ≤
      max b.tokens 0 + max rate 0 * (now - b.seen) := by
  have hin : max (now - b.seen) 0 * rate ≤ max rate 0 * (now - b.seen) := by
    rw [max_eq_left (sub_nonneg.mpr hseen), mul_comm]
    exact mul_le_mul_of_nonneg_right (le_max_left _ _) (sub_nonneg.mpr hseen)
  have hgain : 0 ≤ max rate 0 * (now - b.seen) :=
    mul_nonneg (le_max_right _ _) (sub_nonneg.mpr hseen)
  have hfill : (b.refill rate burst now).tokens ≤ max b.tokens 0 + max rate 0 * (now - b.seen) :=
    (min_le_left _ _).trans (add_le_add (le_max_left _ _) hin)
  unfold ask take
  split
  · simpa using ⟨hfill, add_nonneg (le_max_right _ _) hgain⟩
  · next hone =>
    have hleft : 0 ≤ (b.refill rate burst now).tokens - 1 := sub_nonneg.mpr (not_lt.mp hone)
    simp only [Bool.toNat_true, Nat.cast_one, max_eq_left hleft]
    linarith

/-- What was let through and what is left is never more than the burst. -/
theorem ask_burst (hburst : 0 ≤ burst) :
    ((b.ask rate burst now).1.toNat : K) + max (b.ask rate burst now).2.tokens 0 ≤ burst := by
  have hfill : (b.refill rate burst now).tokens ≤ burst := min_le_right _ _
  unfold ask take
  split
  · simpa using ⟨hfill, hburst⟩
  · next hone =>
    have hleft : 0 ≤ (b.refill rate burst now).tokens - 1 := sub_nonneg.mpr (not_lt.mp hone)
    simp only [Bool.toNat_true, Nat.cast_one, max_eq_left hleft]
    linarith

omit [IsStrictOrderedRing K] in
/-- A full bucket with a burst of at least one lets a turn through. -/
theorem ask_full (hburst : 1 ≤ burst) (now : K) :
    (ask rate burst ⟨burst, now⟩ now) = (true, ⟨burst - 1, now⟩) := by
  simp [ask, take, refill, not_lt.mpr hburst]

/-- A bucket that let `n` turns through since `since`, as far as that time reaches. -/
structure Account (rate burst since : K) (n : ℕ) (b : TokenBucket K) : Prop where
  charged : n ≠ 0 → since ≤ b.seen ∧ (n : K) + max b.tokens 0 ≤ burst + max rate 0 * (b.seen - since)

theorem Account.ask {since : K} {n : ℕ} (h : Account rate burst since n b) (hburst : 0 ≤ burst)
    (hseen : b.seen ≤ now) (hsince : since ≤ now) :
    Account rate burst since (n + (b.ask rate burst now).1.toNat) (b.ask rate burst now).2 := by
  refine ⟨fun _ => ⟨by simpa using hsince, ?_⟩⟩
  rw [ask_seen, Nat.cast_add, add_assoc]
  by_cases hn : n = 0
  · have hgain : 0 ≤ max rate 0 * (now - since) :=
      mul_nonneg (le_max_right _ _) (sub_nonneg.mpr hsince)
    have hb := @ask_burst K _ _ _ rate burst now b hburst
    rw [hn, Nat.cast_zero, zero_add]
    exact hb.trans (le_add_of_nonneg_right hgain)
  · have hacc := (h.charged hn).2
    have hb := @ask_charged K _ _ _ rate burst now b hseen
    have hsplit : max rate 0 * (now - since) =
        max rate 0 * (b.seen - since) + max rate 0 * (now - b.seen) := by ring
    rw [hsplit]
    linarith

/-- In a time `since` to `now`, no more than the burst and what that time brings in. -/
theorem Account.le {since : K} {n : ℕ} (h : Account rate burst since n b) (hburst : 0 ≤ burst)
    (hseen : b.seen ≤ now) (hsince : since ≤ now) :
    (n : K) ≤ burst + max rate 0 * (now - since) := by
  by_cases hn : n = 0
  · rw [hn, Nat.cast_zero]
    exact add_nonneg hburst (mul_nonneg (le_max_right _ _) (sub_nonneg.mpr hsince))
  · have hacc := (h.charged hn).2
    have hlater : max rate 0 * (b.seen - since) ≤ max rate 0 * (now - since) :=
      mul_le_mul_of_nonneg_left (sub_le_sub_right hseen _) (le_max_right _ _)
    have hleft : 0 ≤ max b.tokens 0 := le_max_right _ _
    linarith

end TokenBucket
end PulseNull
