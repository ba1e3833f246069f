import PulseNull.Text.Bytes

/-! JSON trees over any type of numbers. The fields of an object stand in the order of a text; a
sorted tree is a map value. -/
namespace PulseNull

inductive JsonTree (N : Type) where
  | null
  | bool (b : Bool)
  | num (n : N)
  | str (s : Bytes)
  | arr (items : List (JsonTree N))
  | obj (fields : List (Bytes × JsonTree N))

namespace JsonTree
variable {N : Type}

abbrev Fields (N : Type) := List (Bytes × JsonTree N)

def isNull : JsonTree N → Bool
  | null => true
  | _ => false

def asArray : JsonTree N → Option (List (JsonTree N))
  | arr items => some items
  | _ => none

def asObject : JsonTree N → Option (Fields N)
  | obj fields => some fields
  | _ => none

theorem asArray_eq_some {v : JsonTree N} {items : List (JsonTree N)} : asArray v = some items ↔ v = arr items := by
  cases v <;> simp [asArray]

theorem asObject_eq_some {v : JsonTree N} {fields : Fields N} : asObject v = some fields ↔ v = obj fields := by
  cases v <;> simp [asObject]

def keys (fields : Fields N) : List Bytes := fields.map Prod.fst

def get (k : Bytes) (fields : Fields N) : Option (JsonTree N) := (fields.find? (·.1 = k)).map Prod.snd

/-- Insertion into a map: the value of a key that is there is replaced. -/
def put (k : Bytes) (v : JsonTree N) : Fields N → Fields N
  | [] => [(k, v)]
  | (k', v') :: rest =>
    if k < k' then (k, v) :: (k', v') :: rest
    else if k = k' then (k, v) :: rest
    else (k', v') :: put k v rest

def Ascending (fields : Fields N) : Prop := (keys fields).Pairwise (· < ·)

mutual
/-- Every object has its fields in key order, each key once. -/
def Sorted : JsonTree N → Prop
  | arr items => SortedItems items
  | obj fields => Ascending fields ∧ SortedFields fields
  | null | bool _ | num _ | str _ => True
def SortedItems : List (JsonTree N) → Prop
  | [] => True
  | v :: vs => Sorted v ∧ SortedItems vs
def SortedFields : Fields N → Prop
  | [] => True
  | (_, v) :: rest => Sorted v ∧ SortedFields rest
end

mutual
/-- The map value of a text: fields in key order, the last one of each key. -/
def sort : JsonTree N → JsonTree N
  | arr items => arr (sortItems items)
  | obj fields => obj (sortFields [] fields)
  | null => null
  | bool b => bool b
  | num n => num n
  | str s => str s
def sortItems : List (JsonTree N) → List (JsonTree N)
  | [] => []
  | v :: vs => sort v :: sortItems vs
def sortFields (acc : Fields N) : Fields N → Fields N
  | [] => acc
  | (k, v) :: rest => sortFields (put k (sort v) acc) rest
end

mutual
/-- The tree with `f` at its numbers. -/
def mapNum (f : N → N) : JsonTree N → JsonTree N
  | arr items => arr (mapItems f items)
  | obj fields => obj (mapFields f fields)
  | num n => num (f n)
  | null => null
  | bool b => bool b
  | str s => str s
def mapItems (f : N → N) : List (JsonTree N) → List (JsonTree N)
  | [] => []
  | v :: vs => mapNum f v :: mapItems f vs
def mapFields (f : N → N) : Fields N → Fields N
  | [] => []
  | (k, v) :: rest => (k, mapNum f v) :: mapFields f rest
end

section fields
variable {k j : Bytes} {v : JsonTree N} {fields : Fields N}

@[simp] theorem get_nil : get k ([] : Fields N) = none := rfl

theorem get_cons (p : Bytes × JsonTree N) : get k (p :: fields) = if p.1 = k then some p.2 else get k fields := by
  unfold get
  by_cases h : p.1 = k <;> simp [h]

@[simp] theorem get_put_self : get k (put k v fields) = some v := by
  induction fields with
  | nil => simp [put, get_cons]
  | cons p rest ih =>
    unfold put
    split
    · simp [get_cons]
    split
    · simp [get_cons]
    · next hne => rw [get_cons, if_neg (Ne.symm hne), ih]

theorem get_put_ne (h : j ≠ k) : get j (put k v fields) = get j fields := by
  induction fields with
  | nil => simp [put, get_cons, Ne.symm h]
  | cons p rest ih =>
    unfold put
    split
    · simp [get_cons, Ne.symm h]
    split
    · next he => simp [get_cons, ← he, Ne.symm h]
    · rw [get_cons, get_cons, ih]

theorem mem_keys_put {x : Bytes} (h : x ∈ keys (put k v fields)) : x = k ∨ x ∈ keys fields := by
  induction fields with
  | nil => simpa [put, keys] using h
  | cons p rest ih =>
    unfold put at h
    split at h
    · simpa [keys] using h
    split at h
    · obtain h | h := List.mem_cons.mp h
      · exact .inl h
      · exact .inr (List.mem_cons_of_mem _ h)
    · obtain h | h := List.mem_cons.mp h
      · exact .inr (h ▸ List.mem_cons_self)
      · exact (ih h).imp_right (List.mem_cons_of_mem _)

theorem Ascending.put (h : Ascending fields) : Ascending (put k v fields) := by
  induction fields with
  | nil => simp [JsonTree.put, Ascending, keys]
  | cons p rest ih =>
    obtain ⟨hlt, hs⟩ := List.pairwise_cons.mp h
    unfold JsonTree.put
    split
    · next hk =>
      refine List.pairwise_cons.mpr ⟨fun x hx => ?_, h⟩
      obtain rfl | hx := List.mem_cons.mp hx
      · exact hk
      · exact List.lt_trans hk (hlt x hx)
    split
    · next hk => exact List.pairwise_cons.mpr ⟨hk ▸ hlt, hs⟩
    · next hk hne =>
      refine List.pairwise_cons.mpr ⟨fun x hx => ?_, ih hs⟩
      obtain rfl | hx := mem_keys_put hx
      · by_contra hgt
        exact hne (List.le_antisymm (List.not_lt.mp hgt) (List.not_lt.mp hk))
      · exact hlt x hx

/-- A key that is there keeps its place. -/
theorem keys_put (h : Ascending fields) (hk : (get k fields).isSome) : keys (put k v fields) = keys fields := by
  induction fields with
  | nil => cases hk
  | cons p rest ih =>
    obtain ⟨hlt, hs⟩ := List.pairwise_cons.mp h
    rw [get_cons] at hk
    split at hk
    · next he =>
      have hn : ¬ k < p.1 := fun hc => List.lt_irrefl k (he ▸ hc)
      rw [put, if_neg hn, if_pos he.symm, keys, List.map_cons, keys, List.map_cons, he]
    · next hne =>
      have hmem : k ∈ keys rest := by
        obtain ⟨w, hw⟩ := Option.isSome_iff_exists.mp hk
        obtain ⟨q, hq, rfl⟩ := Option.map_eq_some_iff.mp hw
        have := List.find?_some hq
        exact List.mem_map.mpr ⟨q, List.mem_of_find?_eq_some hq, of_decide_eq_true this⟩
      have hgt : ¬ k < p.1 := fun hc => List.lt_asymm hc (hlt k hmem)
      rw [put, if_neg hgt, if_neg (Ne.symm hne)]
      simp only [keys, List.map_cons] at ih ⊢
      rw [ih hs hk]

theorem SortedFields.put (hv : Sorted v) (h : SortedFields fields) : SortedFields (put k v fields) := by
  induction fields with
  | nil => exact ⟨hv, trivial⟩
  | cons p rest ih =>
    unfold JsonTree.put
    split
    · exact ⟨hv, h⟩
    split
    · exact ⟨hv, h.2⟩
    · exact ⟨h.1, ih h.2⟩

theorem SortedFields.get (h : SortedFields fields) (hk : get k fields = some v) : Sorted v := by
  induction fields with
  | nil => cases hk
  | cons p rest ih =>
    rw [get_cons] at hk
    split at hk
    · cases hk
      exact h.1
    · exact ih h.2 hk

theorem get_mapFields {f : N → N} : get k (mapFields f fields) = (get k fields).map (mapNum f) := by
  induction fields with
  | nil => rfl
  | cons p rest ih =>
    rw [mapFields, get_cons, get_cons, ih]
    split <;> rfl

@[simp] theorem keys_mapFields {f : N → N} : keys (mapFields f fields) = keys fields := by
  induction fields with
  | nil => rfl
  | cons p rest ih => exact congrArg (p.1 :: ·) ih

end fields

theorem mapItems_eq (f : N → N) (items : List (JsonTree N)) : mapItems f items = items.map (mapNum f) := by
  induction items with
  | nil => rfl
  | cons v vs ih => rw [mapItems, ih, List.map_cons]

theorem sortedItems_iff {items : List (JsonTree N)} : SortedItems items ↔ ∀ v ∈ items, Sorted v := by
  induction items with
  | nil => simp [SortedItems]
  | cons v vs ih => simp [SortedItems, ih]

mutual
theorem sorted_sort : ∀ v : JsonTree N, (sort v).Sorted
  | .null | .bool _ | .num _ | .str _ => trivial
  | .arr items => sorted_sortItems items
  | .obj fields => sorted_sortFields fields [] List.Pairwise.nil trivial
theorem sorted_sortItems : ∀ vs : List (JsonTree N), SortedItems (sortItems vs)
  | [] => trivial
  | v :: vs => ⟨sorted_sort v, sorted_sortItems vs⟩
theorem sorted_sortFields : ∀ fields acc : Fields N, Ascending acc → SortedFields acc →
    Ascending (sortFields acc fields) ∧ SortedFields (sortFields acc fields)
  | [], _, ha, hs => ⟨ha, hs⟩
  | (_, v) :: rest, _, ha, hs => sorted_sortFields rest _ ha.put (hs.put (sorted_sort v))
end

private theorem put_last {k : Bytes} {v : JsonTree N} {acc : Fields N} (h : ∀ x ∈ keys acc, x < k) :
    put k v acc = acc ++ [(k, v)] := by
  induction acc with
  | nil => rfl
  | cons p rest ih =>
    have hk : p.1 < k := h p.1 List.mem_cons_self
    have hn : ¬ k < p.1 := fun hlt => List.lt_asymm hk hlt
    have hne : k ≠ p.1 := fun he => List.lt_irrefl k (he ▸ hk)
    rw [put, if_neg hn, if_neg hne, ih (fun x hx => h x (List.mem_cons_of_mem _ hx)), List.cons_append]

mutual
/-- A map value is read as it is. -/
theorem Sorted.sort_eq : ∀ {v : JsonTree N}, v.Sorted → sort v = v
  | .null, _ | .bool _, _ | .num _, _ | .str _, _ => rfl
  | .arr _, h => congrArg arr (SortedItems.sort_eq h)
  | .obj _, h => congrArg obj (SortedFields.sort_eq [] h.1 h.2)
theorem SortedItems.sort_eq : ∀ {vs : List (JsonTree N)}, SortedItems vs → sortItems vs = vs
  | [], _ => rfl
  | _ :: _, h => by rw [sortItems, Sorted.sort_eq h.1, SortedItems.sort_eq h.2]
theorem SortedFields.sort_eq : ∀ {fields : Fields N} (acc : Fields N), Ascending (acc ++ fields) →
    SortedFields fields → sortFields acc fields = acc ++ fields
  | [], acc, _, _ => by rw [sortFields, List.append_nil]
  | (k, v) :: rest, acc, ha, h => by
    have hlt : ∀ x ∈ keys acc, x < k := by
      intro x hx
      rw [Ascending, keys, List.map_append, List.pairwise_append] at ha
      exact ha.2.2 x hx k List.mem_cons_self
    have ha' : Ascending ((acc ++ [(k, v)]) ++ rest) := by simpa using ha
    rw [sortFields, Sorted.sort_eq h.1, put_last hlt, SortedFields.sort_eq _ ha' h.2, List.append_assoc,
      List.singleton_append]
end

mutual
theorem Sorted.mapNum {f : N → N} : ∀ {v : JsonTree N}, v.Sorted → (JsonTree.mapNum f v).Sorted
  | .null, _ | .bool _, _ | .num _, _ | .str _, _ => trivial
  | .arr _, h => SortedItems.mapNum h
  | .obj _, h => ⟨by unfold Ascending; rw [keys_mapFields]; exact h.1, SortedFields.mapNum h.2⟩
theorem SortedItems.mapNum {f : N → N} : ∀ {vs : List (JsonTree N)}, SortedItems vs → SortedItems (mapItems f vs)
  | [], _ => trivial
  | _ :: _, h => ⟨Sorted.mapNum h.1, SortedItems.mapNum h.2⟩
theorem SortedFields.mapNum {f : N → N} : ∀ {fields : Fields N},
    SortedFields fields → SortedFields (mapFields f fields)
  | [], _ => trivial
  | _ :: _, h => ⟨Sorted.mapNum h.1, SortedFields.mapNum h.2⟩
end

end JsonTree
end PulseNull
