import PulseNull.Json.Decode

/-! Insertions into a map, and removals from it, in any order. -/
namespace PulseNull.Json

variable {j k : Bytes} {v w : Json} {ms : List (Bytes × Json)}

/-- A map without one key. -/
def remove (k : Bytes) (ms : List (Bytes × Json)) : List (Bytes × Json) := ms.filter (·.1 ≠ k)

theorem insert_ne_nil : insert k v ms ≠ [] := by
  cases ms with
  | nil => simp [insert]
  | cons m ms =>
    unfold insert
    split
    · simp
    split <;> simp

/-- The later value stays. -/
theorem insert_insert : insert k v (insert k w ms) = insert k v ms := by
  induction ms with
  | nil => simp [insert, List.lt_irrefl]
  | cons m ms ih =>
    obtain ⟨i, u⟩ := m
    by_cases hlt : k < i
    · simp [insert, hlt, List.lt_irrefl]
    by_cases heq : k = i
    · simp [insert, heq, List.lt_irrefl]
    · simp [insert, hlt, heq, ih]

private theorem insert_swap_lt (h : j < k) :
    insert j v (insert k w ms) = insert k w (insert j v ms) := by
  have hkj : ¬ k < j := fun hgt => List.lt_irrefl j (List.lt_trans h hgt)
  have hne : k ≠ j := fun heq => List.lt_irrefl j (heq ▸ h)
  induction ms with
  | nil => simp [insert, h, hkj, hne]
  | cons m ms ih =>
    obtain ⟨i, u⟩ := m
    by_cases hki : k < i
    · simp [insert, hki, h, List.lt_trans h hki, hkj, hne]
    by_cases heq : k = i
    · subst heq
      simp [insert, h, hkj, hne, List.lt_irrefl]
    by_cases hji : j < i
    · simp [insert, hki, heq, hji, hkj, hne]
    by_cases hjeq : j = i
    · subst hjeq
      simp [insert, hki, heq, List.lt_irrefl]
    · simp [insert, hki, heq, hji, hjeq, ih]

/-- Insertions of two keys commute. -/
theorem insert_comm (h : j ≠ k) : insert j v (insert k w ms) = insert k w (insert j v ms) := by
  by_cases hlt : j < k
  · exact insert_swap_lt hlt
  · refine (insert_swap_lt ?_).symm
    by_contra hgt
    exact h (List.le_antisymm (List.not_lt.mp hgt) (List.not_lt.mp hlt))

theorem remove_insert : remove k (insert k v ms) = remove k ms := by
  induction ms with
  | nil => simp [insert, remove]
  | cons m ms ih =>
    obtain ⟨i, u⟩ := m
    unfold insert
    split
    · simp [remove]
    split
    · next heq => simp [remove, heq]
    · by_cases heq : i = k
      · simpa [remove, heq] using ih
      · simpa [remove, heq] using ih

theorem lookup_remove_self : lookup k (remove k ms) = none := by simp [lookup, remove]

theorem lookup_remove_ne (h : j ≠ k) : lookup k (remove j ms) = lookup k ms := by
  induction ms with
  | nil => rfl
  | cons m ms ih =>
    obtain ⟨i, u⟩ := m
    by_cases hij : i = j
    · subst hij
      simpa [remove, lookup, h] using ih
    · by_cases hik : i = k
      · simp [remove, lookup, hik, Ne.symm h]
      · simpa [remove, lookup, hij, hik] using ih

/-- The map holds the value, and the key in its place. -/
def Holds (k : Bytes) (v : Json) (ms : List (Bytes × Json)) : Prop := insert k v ms = ms

theorem holds_insert : Holds k v (insert k v ms) := insert_insert

theorem Holds.insert_ne (h : Holds k v ms) (hjk : j ≠ k) : Holds k v (insert j w ms) := by
  rw [Holds, insert_comm hjk.symm, h]

theorem Holds.lookup (h : Holds k v ms) : lookup k ms = some v := by
  rw [← h, lookup_insert_self]

end PulseNull.Json
