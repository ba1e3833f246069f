import Mathlib

/-! A queue and elements parked beside it, each behind so many of the queue: the order they come out in. -/
namespace PulseNull

structure Parked (α : Type) where
  event : α
  after : ℕ

variable {α : Type}

/-- What comes out where `n` elements of the queue already have. -/
def weave : ℕ → List (Parked α) → List α → List α
  | _, parked, [] => parked.map Parked.event
  | n, parked, a :: queue =>
    (parked.takeWhile (·.after ≤ n)).map Parked.event ++ a :: weave (n + 1) (parked.dropWhile (·.after ≤ n)) queue

namespace Weave
variable {n : ℕ} {parked : List (Parked α)} {queue : List α}

/-- Those that are due come out first. -/
theorem due (n : ℕ) (parked : List (Parked α)) (queue : List α) : weave n parked queue =
    (parked.takeWhile (·.after ≤ n)).map Parked.event ++ weave n (parked.dropWhile (·.after ≤ n)) queue := by
  cases queue with
  | nil => rw [weave, weave, ← List.map_append, List.takeWhile_append_dropWhile]
  | cons a queue =>
    have hnone : (parked.dropWhile (·.after ≤ n)).takeWhile (·.after ≤ n) = [] := by
      rw [List.takeWhile_eq_nil_iff]
      intro hlt
      exact List.dropWhile_get_zero_not _ _ hlt
    rw [weave, weave, hnone, List.dropWhile_idempotent]
    rfl

/-- What is left is behind the next element, if each was parked behind the one before. -/
theorem behind (h : parked.Pairwise (·.after ≤ ·.after)) :
    ∀ p ∈ parked.dropWhile (·.after ≤ n), n < p.after := by
  induction parked with
  | nil => simp
  | cons q rest ih =>
    obtain ⟨hq, hrest⟩ := List.pairwise_cons.mp h
    rw [List.dropWhile_cons]
    split
    · exact ih hrest
    · next hlt =>
      rw [decide_eq_true_eq, Nat.not_le] at hlt
      exact List.forall_mem_cons.mpr ⟨hlt, fun p hp => hlt.trans_le (hq p hp)⟩

/-- Where none is due, the queue goes on. -/
theorem next (a : α) (h : ∀ p ∈ parked, n < p.after) :
    weave n parked (a :: queue) = a :: weave (n + 1) parked queue := by
  have htake : parked.takeWhile (·.after ≤ n) = [] := by
    cases parked with
    | nil => rfl
    | cons p rest => simp [h p List.mem_cons_self]
  have hdrop : parked.dropWhile (·.after ≤ n) = parked := by
    cases parked with
    | nil => rfl
    | cons p rest => simp [h p List.mem_cons_self]
  rw [weave, htake, hdrop]
  rfl

/-- A new element of the queue comes behind all there is. -/
theorem push (a : α) (h : ∀ p ∈ parked, p.after ≤ n + queue.length) :
    weave n parked (queue ++ [a]) = weave n parked queue ++ [a] := by
  induction queue generalizing n parked with
  | nil =>
    have htake : parked.takeWhile (·.after ≤ n) = parked := List.takeWhile_eq_self_iff.mpr (by simpa using h)
    have hdrop : parked.dropWhile (·.after ≤ n) = [] := List.dropWhile_eq_nil_iff.mpr (by simpa using h)
    rw [List.nil_append, weave, weave, htake, hdrop]
    rfl
  | cons b queue ih =>
    rw [List.cons_append, weave, weave, ih fun p hp => ?_]
    · rw [List.append_assoc, List.cons_append]
    · have := h p (List.dropWhile_subset _ hp)
      rw [List.length_cons] at this
      omega

/-- So does a new parked one. -/
theorem park (p : Parked α) (h : n + queue.length ≤ p.after) :
    weave n (parked ++ [p]) queue = weave n parked queue ++ [p.event] := by
  induction queue generalizing n parked with
  | nil => rw [weave, weave, List.map_append, List.map_singleton]
  | cons b queue ih =>
    rw [List.length_cons] at h
    have hp : ¬ p.after ≤ n := by omega
    have htake : (parked ++ [p]).takeWhile (·.after ≤ n) = parked.takeWhile (·.after ≤ n) := by
      rw [List.takeWhile_append]
      split
      · next hall =>
        rw [List.takeWhile_cons_of_neg (by simpa using hp), List.append_nil]
        exact (List.takeWhile_prefix _).eq_of_length hall |>.symm
      · rfl
    have hdrop : (parked ++ [p]).dropWhile (·.after ≤ n) = parked.dropWhile (·.after ≤ n) ++ [p] := by
      rw [List.dropWhile_append]
      split
      · next hnil =>
        rw [List.dropWhile_cons_of_neg (by simpa using hp), List.isEmpty_iff.mp hnil]
        rfl
      · rfl
    rw [weave, weave, htake, hdrop, ih (by omega), List.append_assoc, List.cons_append]

theorem length (n : ℕ) (parked : List (Parked α)) (queue : List α) :
    (weave n parked queue).length = parked.length + queue.length := by
  induction queue generalizing n parked with
  | nil => simp [weave]
  | cons a queue ih =>
    have hsplit := congrArg List.length (List.takeWhile_append_dropWhile (p := (·.after ≤ n)) (l := parked))
    rw [List.length_append] at hsplit
    rw [weave, List.length_append, List.length_map, List.length_cons, ih, List.length_cons]
    omega

end Weave
end PulseNull
