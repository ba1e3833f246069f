import PulseNull.Text.Bytes

/-! JSON values over byte strings. Objects are association lists: the members
in text order for a parsed document, in key order for a map value. -/
namespace PulseNull

/-- An integer of 64 bits, or a number that only a float holds. `neg n` is `-(n+1)`. -/
inductive Json.Num where
  | pos (n : Fin (2^64))
  | neg (n : Fin (2^63))
  | float
  deriving DecidableEq, Repr

inductive Json where
  | null
  | bool (b : Bool)
  | num (n : Json.Num)
  | str (s : Bytes)
  | arr (items : List Json)
  | obj (members : List (Bytes × Json))

namespace Json

/-- Insertion into a map: a later value replaces an earlier one of the same key. -/
def insert (k : Bytes) (v : Json) : List (Bytes × Json) → List (Bytes × Json)
  | [] => [(k, v)]
  | (k', v') :: ms =>
    if k < k' then (k, v) :: (k', v') :: ms
    else if k = k' then (k, v) :: ms
    else (k', v') :: insert k v ms

mutual
/-- The map value of a document: members in key order, the last of each key. -/
def normalize : Json → Json
  | .arr items => .arr (normalizeItems items)
  | .obj members => .obj (normalizeMembers [] members)
  | .null => .null
  | .bool b => .bool b
  | .num n => .num n
  | .str s => .str s
def normalizeItems : List Json → List Json
  | [] => []
  | v :: vs => normalize v :: normalizeItems vs
def normalizeMembers (acc : List (Bytes × Json)) : List (Bytes × Json) → List (Bytes × Json)
  | [] => acc
  | (k, v) :: ms => normalizeMembers (insert k (normalize v) acc) ms
end

def lookup (k : Bytes) (ms : List (Bytes × Json)) : Option Json :=
  (ms.find? (fun m => m.1 = k)).map Prod.snd

/-- Keys in strictly increasing byte order. -/
def SortedKeys (ms : List (Bytes × Json)) : Prop := (ms.map Prod.fst).Pairwise (· < ·)

mutual
/-- A map value: sorted keys at every level. -/
def Normal : Json → Prop
  | .arr items => NormalItems items
  | .obj members => SortedKeys members ∧ NormalMembers members
  | .null | .bool _ | .num _ | .str _ => True
def NormalItems : List Json → Prop
  | [] => True
  | v :: vs => Normal v ∧ NormalItems vs
def NormalMembers : List (Bytes × Json) → Prop
  | [] => True
  | (_, v) :: ms => Normal v ∧ NormalMembers ms
end

mutual
/-- Whether a number of the value is not an integer. -/
def hasFloat : Json → Bool
  | .num .float => true
  | .arr items => hasFloatItems items
  | .obj members => hasFloatMembers members
  | .null | .bool _ | .num (.pos _) | .num (.neg _) | .str _ => false
def hasFloatItems : List Json → Bool
  | [] => false
  | v :: vs => hasFloat v || hasFloatItems vs
def hasFloatMembers : List (Bytes × Json) → Bool
  | [] => false
  | (_, v) :: ms => hasFloat v || hasFloatMembers ms
end

mutual
/-- Nesting of arrays and objects. -/
def depth : Json → Nat
  | .arr items => depthItems items + 1
  | .obj members => depthMembers members + 1
  | .null | .bool _ | .num _ | .str _ => 0
def depthItems : List Json → Nat
  | [] => 0
  | v :: vs => max (depth v) (depthItems vs)
def depthMembers : List (Bytes × Json) → Nat
  | [] => 0
  | (_, v) :: ms => max (depth v) (depthMembers ms)
end

private theorem insert_last (k : Bytes) (v : Json) (acc : List (Bytes × Json))
    (h : ∀ k' ∈ acc.map Prod.fst, k' < k) : insert k v acc = acc ++ [(k, v)] := by
  induction acc with
  | nil => rfl
  | cons m ms ih =>
    obtain ⟨k', v'⟩ := m
    have hk : k' < k := h k' (by simp)
    have hn : ¬ k < k' := fun hlt => (List.lt_asymm hk hlt).elim
    have hne : k ≠ k' := fun he => List.lt_irrefl k (he ▸ hk)
    rw [insert, if_neg hn, if_neg hne, ih (fun x hx => h x (by simp [hx])), List.cons_append]

mutual
/-- A map value is its own normal form. -/
theorem normalize_of_normal : ∀ {v : Json}, v.Normal → v.normalize = v
  | .null, _ | .bool _, _ | .num _, _ | .str _, _ => rfl
  | .arr items, h => by rw [normalize, normalizeItems_of_normal h]
  | .obj members, h => by
    rw [normalize, normalizeMembers_of_normal [] (by simpa using h.1) h.2, List.nil_append]
theorem normalizeItems_of_normal : ∀ {vs : List Json}, NormalItems vs → normalizeItems vs = vs
  | [], _ => rfl
  | _ :: _, h => by rw [normalizeItems, normalize_of_normal h.1, normalizeItems_of_normal h.2]
theorem normalizeMembers_of_normal : ∀ {ms : List (Bytes × Json)} (acc : List (Bytes × Json)),
    SortedKeys (acc ++ ms) → NormalMembers ms → normalizeMembers acc ms = acc ++ ms
  | [], acc, _, _ => by simp [normalizeMembers]
  | (k, v) :: ms, acc, hs, h => by
    have hlt : ∀ k' ∈ acc.map Prod.fst, k' < k := by
      intro k' hk'
      simp only [SortedKeys, List.map_append, List.pairwise_append] at hs
      exact hs.2.2 k' hk' k (by simp)
    have hs' : SortedKeys ((acc ++ [(k, v)]) ++ ms) := by simpa using hs
    rw [normalizeMembers, normalize_of_normal h.1, insert_last k v acc hlt,
      normalizeMembers_of_normal _ hs' h.2, List.append_assoc, List.singleton_append]
end

private theorem insert_keys (k : Bytes) (v : Json) (ms : List (Bytes × Json)) :
    ∀ x ∈ (insert k v ms).map Prod.fst, x = k ∨ x ∈ ms.map Prod.fst := by
  induction ms with
  | nil => simp [insert]
  | cons m ms ih =>
    obtain ⟨k', v'⟩ := m
    intro x hx
    unfold insert at hx
    split at hx
    · simpa using hx
    split at hx
    · rcases List.mem_cons.mp hx with h | h
      · exact .inl h
      · exact .inr (by simp [h])
    · rcases List.mem_cons.mp hx with h | h
      · exact .inr (by simp [h])
      · exact (ih x h).imp_right (fun h => by simp [h])

private theorem insert_sorted (k : Bytes) (v : Json) {ms : List (Bytes × Json)}
    (h : SortedKeys ms) : SortedKeys (insert k v ms) := by
  induction ms with
  | nil => simp [insert, SortedKeys]
  | cons m ms ih =>
    obtain ⟨k', v'⟩ := m
    obtain ⟨hlt, hs⟩ := List.pairwise_cons.mp h
    unfold insert
    split
    · next hk =>
      refine List.pairwise_cons.mpr ⟨?_, h⟩
      intro x hx
      rcases List.mem_cons.mp hx with rfl | hx
      · exact hk
      · exact List.lt_trans hk (hlt x hx)
    split
    · next hk => exact List.pairwise_cons.mpr ⟨hk ▸ hlt, hs⟩
    · next hk hne =>
      refine List.pairwise_cons.mpr ⟨?_, ih hs⟩
      intro x hx
      rcases insert_keys k v ms x hx with rfl | hx
      · by_contra hgt
        exact hne (List.le_antisymm (List.not_lt.mp hgt) (List.not_lt.mp hk))
      · exact hlt x hx

private theorem insert_normal (k : Bytes) {v : Json} {ms : List (Bytes × Json)}
    (hv : v.Normal) (h : NormalMembers ms) : NormalMembers (insert k v ms) := by
  induction ms with
  | nil => exact ⟨hv, trivial⟩
  | cons m ms ih =>
    obtain ⟨k', v'⟩ := m
    unfold insert
    split
    · exact ⟨hv, h⟩
    split
    · exact ⟨hv, h.2⟩
    · exact ⟨h.1, ih h.2⟩

mutual
theorem normalize_normal : ∀ v : Json, v.normalize.Normal
  | .null | .bool _ | .num _ | .str _ => trivial
  | .arr items => normalizeItems_normal items
  | .obj members => normalizeMembers_normal members [] (by simp [SortedKeys]) trivial
theorem normalizeItems_normal : ∀ vs : List Json, NormalItems (normalizeItems vs)
  | [] => trivial
  | v :: vs => ⟨normalize_normal v, normalizeItems_normal vs⟩
theorem normalizeMembers_normal : ∀ (ms acc : List (Bytes × Json)),
    SortedKeys acc → NormalMembers acc →
      SortedKeys (normalizeMembers acc ms) ∧ NormalMembers (normalizeMembers acc ms)
  | [], _, hs, h => ⟨hs, h⟩
  | (k, v) :: ms, _, hs, h =>
    normalizeMembers_normal ms _ (insert_sorted k _ hs) (insert_normal k (normalize_normal v) h)
end

private theorem depth_insert_le (k : Bytes) (v : Json) (ms : List (Bytes × Json)) :
    depthMembers (insert k v ms) ≤ max (depth v) (depthMembers ms) := by
  induction ms with
  | nil => simp [insert, depthMembers]
  | cons m ms ih =>
    obtain ⟨k', v'⟩ := m
    unfold insert
    split
    · simp [depthMembers]
    split
    · simp only [depthMembers]
      omega
    · simp only [depthMembers]
      omega

mutual
theorem depth_normalize_le : ∀ v : Json, v.normalize.depth ≤ v.depth
  | .null | .bool _ | .num _ | .str _ => le_rfl
  | .arr items => Nat.succ_le_succ (depth_normalizeItems_le items)
  | .obj members => by
    have := depth_normalizeMembers_le members []
    simp only [depthMembers, Nat.zero_max] at this
    exact Nat.succ_le_succ this
theorem depth_normalizeItems_le : ∀ vs : List Json, depthItems (normalizeItems vs) ≤ depthItems vs
  | [] => le_rfl
  | v :: vs => by
    have h1 := depth_normalize_le v
    have h2 := depth_normalizeItems_le vs
    simp only [normalizeItems, depthItems]
    omega
theorem depth_normalizeMembers_le : ∀ ms acc : List (Bytes × Json),
    depthMembers (normalizeMembers acc ms) ≤ max (depthMembers acc) (depthMembers ms)
  | [], acc => by simp [normalizeMembers, depthMembers]
  | (k, v) :: ms, acc => by
    have h1 := depth_normalize_le v
    have h2 := depth_normalizeMembers_le ms (insert k v.normalize acc)
    have h3 := depth_insert_le k v.normalize acc
    simp only [normalizeMembers, depthMembers] at h2 ⊢
    omega
end

end Json
end PulseNull
