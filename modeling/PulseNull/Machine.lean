import Mathlib

/-! Machines that step on actions: runs whose steps all meet a condition, invariants of such runs,
and runs found by following a list of actions. -/
namespace PulseNull

structure Machine (σ α : Type) where
  start : σ
  step : σ → α → σ

namespace Machine
variable {σ α : Type} {m : Machine σ α} {ok : σ → α → Prop}

/-- The states reached by steps that all meet `ok`. -/
inductive Runs (m : Machine σ α) (ok : σ → α → Prop) : σ → Prop where
  | start : m.Runs ok m.start
  | step {s : σ} (act : α) : m.Runs ok s → ok s act → m.Runs ok (m.step s act)

/-- What holds at the start and is kept by every step that meets `ok` holds in every state reached. -/
theorem Runs.invariant {I : σ → Prop} (start : I m.start)
    (step : ∀ s act, I s → ok s act → I (m.step s act)) {s : σ} (h : m.Runs ok s) : I s := by
  induction h with
  | start => exact start
  | step act _ hok ih => exact step _ act ih hok

theorem Runs.mono {ok' : σ → α → Prop} (h : ∀ s act, ok s act → ok' s act) {s : σ}
    (hs : m.Runs ok s) : m.Runs ok' s := by
  induction hs with
  | start => exact .start
  | step act _ hok ih => exact .step act ih (h _ act hok)

/-- The state after the actions, if every step passes the check. -/
def follow (m : Machine σ α) (check : σ → α → Bool) (s : σ) : List α → Option σ
  | [] => some s
  | act :: acts => if check s act then m.follow check (m.step s act) acts else none

theorem Runs.follow {check : σ → α → Bool} (hc : ∀ s act, check s act = true → ok s act)
    {acts : List α} {s s' : σ} (hs : m.Runs ok s) (hf : m.follow check s acts = some s') :
    m.Runs ok s' := by
  induction acts generalizing s with
  | nil =>
    obtain rfl := Option.some.inj hf
    exact hs
  | cons act acts ih =>
    unfold Machine.follow at hf
    split at hf
    · next h => exact ih (.step act hs (hc s act h)) hf
    · exact nomatch hf

end Machine
end PulseNull
