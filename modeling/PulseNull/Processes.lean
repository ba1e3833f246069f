import Mathlib

/-! A table of processes whose numbers are reused: a number is free again once its process is
reaped, and no number comes back with the same start time. -/
namespace PulseNull

/-- A process keeps its number, its start time and its uid. -/
structure Proc where
  pid : Nat
  start : Nat
  uid : Nat
  deriving DecidableEq

/-- The processes that hold a number, which of them have exited, and all that ever started. -/
structure Processes where
  held : List Proc
  exited : List Proc
  started : List Proc
  deriving DecidableEq

namespace Processes
variable {t : Processes} {p q : Proc}

def empty : Processes := ⟨[], [], []⟩

def Running (t : Processes) (p : Proc) : Prop := p ∈ t.held ∧ p ∉ t.exited

instance (t : Processes) (p : Proc) : Decidable (t.Running p) := inferInstanceAs (Decidable (_ ∧ _))

/-- The process that now holds the number. -/
def holder (t : Processes) (pid : Nat) : Option Proc := t.held.find? (·.pid = pid)

/-- Whether the number is free and its pair with the start time new. -/
def Fresh (t : Processes) (p : Proc) : Prop :=
  (∀ q ∈ t.held, q.pid ≠ p.pid) ∧ ∀ q ∈ t.started, ¬(q.pid = p.pid ∧ q.start = p.start)

instance (t : Processes) (p : Proc) : Decidable (t.Fresh p) := inferInstanceAs (Decidable (_ ∧ _))

def spawn (t : Processes) (p : Proc) : Processes :=
  if t.Fresh p then { t with held := p :: t.held, started := p :: t.started } else t

def exit (t : Processes) (p : Proc) : Processes :=
  if p ∈ t.held then { t with exited := p :: t.exited } else t

/-- An exited process keeps its number until it is reaped. -/
def reap (t : Processes) (p : Proc) : Processes :=
  if p ∈ t.exited then { t with held := t.held.erase p } else t

/-- No number is held twice, and no pair of number and start time was given out twice. -/
structure Sound (t : Processes) : Prop where
  held : t.held ⊆ t.started
  numbers : t.held.Pairwise fun p q => p.pid ≠ q.pid
  pairs : t.started.Pairwise fun p q => ¬(p.pid = q.pid ∧ p.start = q.start)

theorem sound_empty : empty.Sound := ⟨List.Subset.refl _, .nil, .nil⟩

theorem Sound.spawn (h : t.Sound) (p : Proc) : (t.spawn p).Sound := by
  unfold Processes.spawn
  split
  · next hf =>
    exact ⟨List.cons_subset_cons p h.held, h.numbers.cons fun q hq => (hf.1 q hq).symm,
      h.pairs.cons fun q hq hx => hf.2 q hq ⟨hx.1.symm, hx.2.symm⟩⟩
  · exact h

theorem Sound.exit (h : t.Sound) (p : Proc) : (t.exit p).Sound := by
  unfold Processes.exit
  split
  · exact ⟨h.held, h.numbers, h.pairs⟩
  · exact h

theorem Sound.reap (h : t.Sound) (p : Proc) : (t.reap p).Sound := by
  unfold Processes.reap
  split
  · exact ⟨fun _ hq => h.held (List.mem_of_mem_erase hq), h.numbers.sublist List.erase_sublist, h.pairs⟩
  · exact h

theorem mem_started_spawn (h : p ∈ t.started) (q : Proc) : p ∈ (t.spawn q).started := by
  unfold spawn
  split
  · exact List.mem_cons_of_mem q h
  · exact h

@[simp] theorem started_exit (t : Processes) (q : Proc) : (t.exit q).started = t.started := by
  unfold exit
  split <;> rfl

@[simp] theorem started_reap (t : Processes) (q : Proc) : (t.reap q).started = t.started := by
  unfold reap
  split <;> rfl

/-- A process that was reaped does not come back. -/
theorem held_of_spawn (hp : p ∈ t.started) (h : p ∈ (t.spawn q).held) : p ∈ t.held := by
  unfold spawn at h
  split at h
  · next hf =>
    rcases List.mem_cons.mp h with rfl | hm
    · exact absurd ⟨rfl, rfl⟩ (hf.2 p hp)
    · exact hm
  · exact h

theorem held_of_exit (h : p ∈ (t.exit q).held) : p ∈ t.held := by
  unfold exit at h
  split at h <;> exact h

theorem held_of_reap (h : p ∈ (t.reap q).held) : p ∈ t.held := by
  unfold reap at h
  split at h
  · exact List.mem_of_mem_erase h
  · exact h

theorem holder_mem {pid : Nat} (h : t.holder pid = some p) : p ∈ t.held ∧ p.pid = pid :=
  ⟨List.mem_of_find?_eq_some h, by simpa using List.find?_some h⟩

/-- While it holds its number, a process is what a look at the number finds. -/
theorem Sound.holder (h : t.Sound) (hp : p ∈ t.held) : t.holder p.pid = some p := by
  cases hf : t.holder p.pid with
  | none => simpa using List.find?_eq_none.mp hf p hp
  | some q =>
    obtain ⟨hq, hpid⟩ := holder_mem hf
    have : Std.Symm fun p q : Proc => p.pid ≠ q.pid := ⟨fun _ _ hx => hx.symm⟩
    by_contra hne
    exact h.numbers.forall hp hq (fun heq => hne (heq ▸ rfl)) hpid.symm

/-- A process is known by its number and start time. -/
theorem Sound.unique (h : t.Sound) (hp : p ∈ t.started) (hq : q ∈ t.started)
    (hpid : p.pid = q.pid) (hstart : p.start = q.start) : p = q := by
  have : Std.Symm fun p q : Proc => ¬(p.pid = q.pid ∧ p.start = q.start) :=
    ⟨fun _ _ hx hy => hx ⟨hy.1.symm, hy.2.symm⟩⟩
  by_contra hne
  exact h.pairs.forall hp hq hne ⟨hpid, hstart⟩

end Processes
end PulseNull
