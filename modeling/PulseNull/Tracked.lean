import Mathlib

/-! Maps of bounded size that forget the key seen the longest ago. -/
namespace PulseNull

abbrev Tracked (κ V : Type) := AList fun _ : κ => V

namespace Tracked
variable {κ V τ : Type} [DecidableEq κ] [LinearOrder τ] {seen : V → τ} {m : Tracked κ V} {k : κ}
  {most : ℕ} {first : κ}

/-- The keys that no other was seen before. -/
def oldest (seen : V → τ) (m : Tracked κ V) : List κ :=
  (m.entries.filter fun e => m.entries.all fun e' => seen e.2 ≤ seen e'.2).map (·.1)

/-- Makes room for one more in a full map. `first` is the one that a walk over the map meets first,
among those seen the longest ago. -/
def forgetOldest (most : ℕ) (seen : V → τ) (m : Tracked κ V) (first : κ) : Tracked κ V :=
  if m.entries.length < most then m
  else match if first ∈ oldest seen m then some first else (oldest seen m).head? with
    | some k => m.erase k
    | none => m

/-- Room for a key that is not there yet. -/
def room (most : ℕ) (seen : V → τ) (m : Tracked κ V) (first who : κ) : Tracked κ V :=
  if who ∈ m then m else forgetOldest most seen m first

/-- A key that may be forgotten: the map is full, and no other key was seen before it. -/
def Oldest (most : ℕ) (seen : V → τ) (m : Tracked κ V) (k : κ) : Prop :=
  most ≤ m.entries.length ∧ ∃ v, m.lookup k = some v ∧ ∀ k' v', m.lookup k' = some v' → seen v ≤ seen v'

theorem mem_oldest (h : k ∈ oldest seen m) :
    ∃ v, m.lookup k = some v ∧ ∀ k' v', m.lookup k' = some v' → seen v ≤ seen v' := by
  obtain ⟨e, he, rfl⟩ := List.mem_map.mp h
  obtain ⟨hmem, hall⟩ := List.mem_filter.mp he
  refine ⟨e.2, AList.mem_lookup_iff.mpr hmem, fun k' v' hv => ?_⟩
  simpa using List.all_eq_true.mp hall ⟨k', v'⟩ (AList.mem_lookup_iff.mp hv)

theorem forgetOldest_of_lt (h : m.entries.length < most) : forgetOldest most seen m first = m :=
  if_pos h

/-- A key is as it was, or it was the oldest of a full map and is forgotten. -/
theorem forgetOldest_lookup (k : κ) : (forgetOldest most seen m first).lookup k = m.lookup k ∨
    ((forgetOldest most seen m first).lookup k = none ∧ Oldest most seen m k) := by
  unfold forgetOldest
  split
  · exact .inl rfl
  next hfull =>
  split
  · next k' hk' =>
    have hold : k' ∈ oldest seen m := by
      split at hk'
      · next hfirst => exact Option.some.inj hk' ▸ hfirst
      · exact List.mem_of_mem_head? hk'
    by_cases heq : k = k'
    · exact .inr ⟨heq ▸ AList.lookup_erase k m, not_lt.mp hfull, mem_oldest (heq ▸ hold)⟩
    · exact .inl (AList.lookup_erase_ne heq)
  · exact .inl rfl

theorem room_lookup (who k : κ) : (room most seen m first who).lookup k = m.lookup k ∨
    ((room most seen m first who).lookup k = none ∧ who ∉ m ∧ Oldest most seen m k) := by
  unfold room
  split
  · exact .inl rfl
  · next hnew =>
    rcases @forgetOldest_lookup κ V τ _ _ seen m most first k with h | h
    · exact .inl h
    · exact .inr ⟨h.1, hnew, h.2⟩

/-- Room is never made by forgetting the key itself. -/
theorem room_lookup_self (who : κ) : (room most seen m first who).lookup who = m.lookup who := by
  rcases @room_lookup κ V τ _ _ seen m most first who who with h | ⟨h, hnew, -⟩
  · exact h
  · rw [h, AList.lookup_eq_none.mpr hnew]

end Tracked
end PulseNull
