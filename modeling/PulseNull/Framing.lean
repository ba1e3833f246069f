import Mathlib

/-! Blocks taken off the front of a buffer as soon as each is whole. How the input was cut into chunks
does not show in the blocks. -/
namespace PulseNull

/-- Finds where the first whole block ends and how long the separator after it is. What is found stays
found when more comes in. -/
structure Framing (α : Type) where
  find : List α → Option (ℕ × ℕ)
  within : ∀ {buf e n}, find buf = some (e, n) → 0 < n ∧ e + n ≤ buf.length
  stable : ∀ {buf r} more, find buf = some r → find (buf ++ more) = some r

namespace Framing
variable {α : Type} (f : Framing α)

def drainFrom : ℕ → List α → List (List α) × List α
  | 0, buf => ([], buf)
  | fuel + 1, buf =>
    match f.find buf with
    | none => ([], buf)
    | some (e, n) =>
      (buf.take e :: (drainFrom fuel (buf.drop (e + n))).1, (drainFrom fuel (buf.drop (e + n))).2)

/-- The whole blocks, and what is left. -/
def drain (buf : List α) : List (List α) × List α := f.drainFrom buf.length buf

variable {f}

private theorem drainFrom_fuel {fuel : ℕ} {buf : List α} (h : buf.length ≤ fuel) :
    f.drainFrom fuel buf = f.drain buf := by
  induction fuel using Nat.strong_induction_on generalizing buf with
  | _ fuel ih =>
    cases fuel with
    | zero =>
      obtain rfl := List.length_eq_zero_iff.mp (Nat.le_zero.mp h)
      rfl
    | succ fuel =>
      unfold drain
      cases hlen : buf.length with
      | zero =>
        obtain rfl := List.length_eq_zero_iff.mp hlen
        rw [drainFrom, drainFrom]
        cases hfind : f.find [] with
        | none => rfl
        | some r =>
          have hw := f.within hfind
          rw [List.length_nil] at hw
          omega
      | succ m =>
        rw [drainFrom, drainFrom]
        cases hfind : f.find buf with
        | none => rfl
        | some r =>
          obtain ⟨e, n⟩ := r
          obtain ⟨hpos, hle⟩ := f.within hfind
          have hdrop : (buf.drop (e + n)).length ≤ m := by
            rw [List.length_drop]
            omega
          have h1 := @ih fuel (Nat.lt_succ_self fuel) (buf.drop (e + n)) (by omega)
          have h2 := ih m (by omega) hdrop
          simp only [h1, h2]

theorem drain_none {buf : List α} (h : f.find buf = none) : f.drain buf = ([], buf) := by
  unfold drain
  cases buf.length with
  | zero => rfl
  | succ m => rw [drainFrom, h]

theorem drain_some {buf : List α} {e n : ℕ} (h : f.find buf = some (e, n)) : f.drain buf =
    (buf.take e :: (f.drain (buf.drop (e + n))).1, (f.drain (buf.drop (e + n))).2) := by
  obtain ⟨hpos, hle⟩ := f.within h
  obtain ⟨m, hm⟩ : ∃ m, buf.length = m + 1 := ⟨buf.length - 1, by omega⟩
  have hdrop : (buf.drop (e + n)).length ≤ m := by
    rw [List.length_drop]
    omega
  rw [drain, hm, drainFrom, h]
  simp only [drainFrom_fuel hdrop]

/-- Draining again after more came in. -/
theorem drain_append (a b : List α) : f.drain (a ++ b) =
    ((f.drain a).1 ++ (f.drain ((f.drain a).2 ++ b)).1, (f.drain ((f.drain a).2 ++ b)).2) := by
  induction hlen : a.length using Nat.strong_induction_on generalizing a with
  | _ m ih =>
    cases hfind : f.find a with
    | none => rw [drain_none hfind, List.nil_append]
    | some r =>
      obtain ⟨e, n⟩ := r
      obtain ⟨hpos, hle⟩ := f.within hfind
      have hrest := ih (a.drop (e + n)).length (by rw [List.length_drop]; omega) (a.drop (e + n)) rfl
      rw [drain_some hfind, drain_some (f.stable b hfind), List.drop_append_of_le_length hle, hrest,
        List.take_append_of_le_length (by omega), List.cons_append]

theorem drain_left (buf : List α) : f.find (f.drain buf).2 = none := by
  induction hlen : buf.length using Nat.strong_induction_on generalizing buf with
  | _ m ih =>
    cases hfind : f.find buf with
    | none => rwa [drain_none hfind]
    | some r =>
      obtain ⟨e, n⟩ := r
      obtain ⟨hpos, hle⟩ := f.within hfind
      rw [drain_some hfind]
      exact ih (buf.drop (e + n)).length (by rw [List.length_drop]; omega) (buf.drop (e + n)) rfl

end Framing
end PulseNull
