import PulseNull.Json.Value
import PulseNull.Checked

/-! Reading a value as a record or a tagged union, in the way of a derived
decoder: unknown members are refused, a record may also be an array. -/
namespace PulseNull

namespace Json

/-- Why a decoder refuses. The message of `quoted s` repeats the string `s`. -/
inductive DecodeError where
  | unknown
  | quoted (s : Bytes)
  | other
  deriving DecidableEq, Repr

abbrev Decoder (α : Type) := Json → Except DecodeError α

def mismatch : Json → DecodeError
  | .str s => .quoted s
  | _ => .other

def decodeStr : Decoder Bytes
  | .str s => .ok s
  | v => .error (mismatch v)

def decodeU64 : Decoder (Fin (2^64))
  | .num (.pos n) => .ok n
  | v => .error (mismatch v)

def decodeU32 : Decoder (Fin (2^32))
  | .num (.pos n) => if h : n.val < 2^32 then .ok ⟨n.val, h⟩ else .error .other
  | v => .error (mismatch v)

def decodeBool : Decoder Bool
  | .bool b => .ok b
  | v => .error (mismatch v)

def decodeNull : Decoder Unit
  | .null => .ok ()
  | v => .error (mismatch v)

def decodeOption {α : Type} (d : Decoder α) : Decoder (Option α)
  | .null => .ok none
  | v => (d v).map some

/-- A union of names, as a string or as the only key of an object. -/
def decodeName {α : Type} (variant : Bytes → Option α) : Decoder α
  | .str s => (variant s).elim (.error .unknown) .ok
  | .obj [(k, v)] =>
    match variant k, v with
    | none, _ => .error .unknown
    | some a, .null | some a, .obj [] => .ok a
    | some _, v => .error (mismatch v)
  | _ => .error .other

/-- A member of a record: its name, and what its decoder makes of a value. -/
structure Field where
  name : Bytes
  check : Decoder Unit

def Field.of {α : Type} (name : Bytes) (d : Decoder α) : Field :=
  ⟨name, fun v => (d v).map fun _ => ()⟩

/-- Members in text order: each known, none twice, each decodable. -/
def visit (fields : List Field) : List Bytes → List (Bytes × Json) → Except DecodeError Unit
  | _, [] => .ok ()
  | seen, (k, v) :: ms =>
    match fields.find? (fun f => f.name = k) with
    | none => .error .unknown
    | some f => do
      ensure (k ∉ seen) .other
      f.check v
      visit fields (k :: seen) ms

/-- The members of a record. An array gives them by position. -/
def recordMembers (fields : List Field) : Decoder (List (Bytes × Json))
  | .obj ms => do
    visit fields [] ms
    return ms
  | .arr items => do
    let ms := (fields.map Field.name).zip items
    visit fields [] ms
    ensure (items.length ≤ fields.length) .other
    return ms
  | v => .error (mismatch v)

def required {α : Type} (d : Decoder α) (k : Bytes) (ms : List (Bytes × Json)) :
    Except DecodeError α :=
  match lookup k ms with
  | some v => d v
  | none => .error .other

def optional {α : Type} (d : Decoder α) (k : Bytes) (ms : List (Bytes × Json)) :
    Except DecodeError (Option α) :=
  match lookup k ms with
  | some v => decodeOption d v
  | none => .ok none

/-- The tag of a union and the content that is left: the first item of an array,
or the member of that name. -/
def splitTag (tag : Bytes) : Decoder (Bytes × Json)
  | .obj ms => do
    let k ← required decodeStr tag ms
    return (k, .obj (ms.filter fun m => m.1 ≠ tag))
  | .arr [] => .error .other
  | .arr (v :: items) => do
    let k ← decodeStr v
    return (k, .arr items)
  | v => .error (mismatch v)

/-- A union's tag is not given twice. -/
def tagOnce (tag : Bytes) : Decoder Unit
  | .obj ms => ensure ((ms.filter fun m => m.1 = tag).length ≤ 1) .other
  | _ => .ok ()

/-- The members of a record that takes unknown ones and leaves them out. -/
def openMembers (fields : List Field) : Decoder (List (Bytes × Json))
  | .obj ms => recordMembers fields (.obj (ms.filter fun m => m.1 ∈ fields.map Field.name))
  | v => recordMembers fields v

/-- A map value built member by member. -/
def ofFields (fields : List (Bytes × Json)) : Json :=
  .obj (fields.foldl (fun ms f => insert f.1 f.2 ms) [])

/-! What a decoder that succeeded read. -/

theorem decodeStr_eq_ok {v : Json} {s : Bytes} : decodeStr v = .ok s ↔ v = .str s := by
  cases v <;> simp [decodeStr]

theorem decodeU64_eq_ok {v : Json} {n : Fin (2^64)} : decodeU64 v = .ok n ↔ v = .num (.pos n) := by
  unfold decodeU64
  split
  · simp
  · next h =>
    simp only [reduceCtorEq, false_iff]
    exact h n

theorem decodeU32_eq_ok {v : Json} {n : Fin (2^32)} :
    decodeU32 v = .ok n ↔ v = .num (.pos ⟨n.val, by omega⟩) := by
  unfold decodeU32
  split
  · next m =>
    split
    · simp [Fin.ext_iff]
    · next h =>
      simp only [reduceCtorEq, num.injEq, Num.pos.injEq, Fin.ext_iff, false_iff]
      omega
  · next h =>
    simp only [reduceCtorEq, false_iff]
    exact h _

theorem required_eq_ok {α : Type} {d : Decoder α} {k : Bytes} {ms : List (Bytes × Json)} {a : α} :
    required d k ms = .ok a ↔ ∃ v, lookup k ms = some v ∧ d v = .ok a := by
  unfold required
  cases lookup k ms <;> simp

theorem visit_known {fields : List Field} {seen : List Bytes} {ms : List (Bytes × Json)}
    (h : visit fields seen ms = .ok ()) : ∀ m ∈ ms, m.1 ∈ fields.map Field.name := by
  induction ms generalizing seen with
  | nil => simp
  | cons m ms ih =>
    obtain ⟨k, v⟩ := m
    rw [visit] at h
    split at h
    · simp at h
    · next f hf =>
      have hk : k ∈ fields.map Field.name := by
        refine List.mem_map.mpr ⟨f, List.mem_of_find?_eq_some hf, ?_⟩
        simpa using List.find?_some hf
      simp only [bind_eq_ok] at h
      obtain ⟨_, _, _, _, h⟩ := h
      exact List.forall_mem_cons.mpr ⟨hk, ih h⟩

/-! Members of a map value. -/

theorem normalMembers_mem {ms : List (Bytes × Json)} (h : NormalMembers ms) {m : Bytes × Json}
    (hm : m ∈ ms) : m.2.Normal := by
  induction ms with
  | nil => simp at hm
  | cons n ns ih =>
    rcases List.mem_cons.mp hm with rfl | hm
    · exact h.1
    · exact ih h.2 hm

theorem lookup_mem {k : Bytes} {v : Json} {ms : List (Bytes × Json)} (h : lookup k ms = some v) :
    (k, v) ∈ ms := by
  simp only [lookup, Option.map_eq_some_iff] at h
  obtain ⟨m, hm, rfl⟩ := h
  have hk : m.1 = k := by simpa using List.find?_some hm
  exact hk ▸ List.mem_of_find?_eq_some hm

theorem lookup_insert_self (k : Bytes) (v : Json) (ms : List (Bytes × Json)) :
    lookup k (insert k v ms) = some v := by
  induction ms with
  | nil => simp [insert, lookup]
  | cons m ms ih =>
    obtain ⟨k', v'⟩ := m
    unfold insert
    split
    · simp [lookup]
    split
    · simp [lookup]
    · next hne => simpa [lookup, List.find?_cons, Ne.symm hne] using ih

theorem lookup_insert_ne {k k' : Bytes} (h : k' ≠ k) (v : Json) (ms : List (Bytes × Json)) :
    lookup k (insert k' v ms) = lookup k ms := by
  induction ms with
  | nil => simp [insert, lookup, h]
  | cons m ms ih =>
    obtain ⟨j, w⟩ := m
    unfold insert
    split
    · simp [lookup, h]
    split
    · next hj => simp [lookup, h, ← hj]
    · by_cases hk : j = k
      · simp [lookup, hk]
      · simpa [lookup, List.find?_cons, hk] using ih

private theorem sortedKeys_unique {ms : List (Bytes × Json)} (hs : SortedKeys ms)
    {k : Bytes} {v w : Json} (hv : (k, v) ∈ ms) (hw : (k, w) ∈ ms) : v = w := by
  by_contra hne
  have hp := List.pairwise_map.mp hs
  have := List.Pairwise.forall_of_forall_of_flip (R := fun a b => a.1 = b.1 → a = b)
    (fun _ _ _ => rfl) (hp.imp fun hlt he => absurd (he ▸ hlt) (List.lt_irrefl _))
    (hp.imp fun hlt he => absurd (he ▸ hlt) (List.lt_irrefl _)) hv hw rfl
  exact hne (congrArg Prod.snd this)

/-- A sorted record whose keys are those of `fs`, each found with its value, is `fs`. -/
theorem sortedKeys_ext {ms fs : List (Bytes × Json)} (hm : SortedKeys ms) (hf : SortedKeys fs)
    (hk : ∀ m ∈ ms, m.1 ∈ fs.map Prod.fst) (hv : ∀ f ∈ fs, f ∈ ms) : ms = fs := by
  have hirr : Std.Irrefl (fun a b : Bytes × Json => a.1 < b.1) := ⟨fun _ => List.lt_irrefl _⟩
  refine (List.pairwise_map.mp hm).eq_of_mem_iff (List.pairwise_map.mp hf) fun m => ⟨?_, hv m⟩
  intro h
  obtain ⟨f, hfm, he⟩ := List.mem_map.mp (hk m h)
  have : m.2 = f.2 := sortedKeys_unique hm (k := m.1) h (he ▸ hv f hfm)
  rwa [show m = f from Prod.ext he.symm this]

end Json
end PulseNull
