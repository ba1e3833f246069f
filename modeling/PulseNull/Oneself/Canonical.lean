import PulseNull.Oneself.Ledger
import PulseNull.Json.Extend

/-! The canonical text of a value without floats: it names the value, reads back as it within the nesting a
reader allows, and is the one stored line of the value. -/
namespace PulseNull.Oneself
open Text (ascii)

mutual
/-- A value without floats has a text. -/
private theorem print_of_integers : ∀ {v : Json}, v.hasFloat = false → ∃ t, Json.print v = some t
  | .null, _ | .bool true, _ | .bool false, _ | .num (.pos _), _ | .num (.neg _), _ | .str _, _ => ⟨_, rfl⟩
  | .num .float, h => by simp [Json.hasFloat] at h
  | .arr items, h => by
    have hi : Json.hasFloatItems items = false := h
    obtain ⟨ts, hts⟩ := printItems_of_integers hi
    exact ⟨Json.bracket ts, by rw [Json.print, hts, Option.map_some]⟩
  | .obj members, h => by
    have hm : Json.hasFloatMembers members = false := h
    obtain ⟨ps, hps⟩ := printMembers_of_integers hm
    exact ⟨Json.brace ps, by rw [Json.print, hps, Option.map_some]⟩
private theorem printItems_of_integers : ∀ {vs : List Json}, Json.hasFloatItems vs = false →
    ∃ ts, Json.printItems vs = some ts
  | [], _ => ⟨[], rfl⟩
  | v :: vs, h => by
    obtain ⟨hv, hvs⟩ := Bool.or_eq_false_iff.mp h
    obtain ⟨t, ht⟩ := print_of_integers hv
    obtain ⟨ts, hts⟩ := printItems_of_integers hvs
    exact ⟨t :: ts, by rw [Json.printItems, ht, hts]; rfl⟩
private theorem printMembers_of_integers : ∀ {ms : List (Bytes × Json)}, Json.hasFloatMembers ms = false →
    ∃ ps, Json.printMembers ms = some ps
  | [], _ => ⟨[], rfl⟩
  | (k, v) :: ms, h => by
    obtain ⟨hv, hms⟩ := Bool.or_eq_false_iff.mp h
    obtain ⟨t, ht⟩ := print_of_integers hv
    obtain ⟨ps, hps⟩ := printMembers_of_integers hms
    exact ⟨(k, t) :: ps, by rw [Json.printMembers, ht, hps]; rfl⟩
end

/-- A value whose objects are maps and whose numbers are integers. -/
structure IntegerValue where
  value : Json
  normal : value.Normal
  integers : value.hasFloat = false

theorem IntegerValue.canonical_ok (a : IntegerValue) :
    ∃ t, canonical a.value = .ok t ∧ Json.print a.value = some t := by
  obtain ⟨t, ht⟩ := print_of_integers a.integers
  exact ⟨t, (canonical_eq_ok a.normal).mpr ht, ht⟩

/-- `from_str::<Value>`: the map value a text reads as. -/
def Env.readValue (env : Env) (text : Bytes) : Option Json :=
  (Json.parse env.floatInRange text).map Json.normalize

/-- A line is accepted when it is the canonical text of the value it reads as. -/
def Env.storedLine (env : Env) (text : Bytes) : Except Reason Unit :=
  match env.readValue text with
  | none => .error .notARow
  | some value => storedLineIsCanonical value text

variable {env : Env}

/-- A reader that allows the nesting of both values tells them apart by their texts. -/
theorem print_injective {v w : Json} {t : Bytes} (hv : Json.print v = some t) (hw : Json.print w = some t) :
    v = w := by
  have reads {u : Json} (hu : Json.print u = some t) (hd : u.depth ≤ max v.depth w.depth) :
      Json.parseValue (fun _ => true) t.length (max v.depth w.depth) (t ++ []) = some (u, []) :=
    Json.parseValue_print hu hd le_rfl Json.stop_nil
  have hboth := (reads hv (Nat.le_max_left ..)).symm.trans (reads hw (Nat.le_max_right ..))
  exact (Prod.mk.inj (Option.some.inj hboth)).1

theorem canonical_injective {a b : IntegerValue} (h : canonical a.value = canonical b.value) : a = b := by
  obtain ⟨t, ha, hpa⟩ := a.canonical_ok
  obtain ⟨u, hb, hpb⟩ := b.canonical_ok
  obtain rfl : t = u := Except.ok.inj (ha.symm.trans (h.trans hb))
  obtain ⟨v, hv, hi⟩ := a
  obtain ⟨w, hw, hj⟩ := b
  obtain rfl : v = w := print_injective hpa hpb
  rfl

theorem readValue_normal {text : Bytes} {v : Json} (h : env.readValue text = some v) : v.Normal := by
  obtain ⟨w, _, rfl⟩ := Option.map_eq_some_iff.mp h
  exact Json.normalize_normal w

/-- The canonical text reads back exactly when the nesting of the value is within the reader's bound. -/
theorem readValue_canonical {a : IntegerValue} {t : Bytes} (h : canonical a.value = .ok t) :
    env.readValue t = some a.value ↔ a.value.depth ≤ Json.maxDepth := by
  have hp : Json.print a.value = some t := (canonical_eq_ok a.normal).mp h
  constructor
  · intro hr
    obtain ⟨w, hw, hn⟩ := Option.map_eq_some_iff.mp hr
    rw [← Json.parse_canonical hp hw hn]
    exact Json.parse_depth hw
  · intro hd
    rw [Env.readValue, Json.parse_print hp hd, Option.map_some, Json.normalize_of_normal a.normal]

theorem storedLine_eq_ok {t : Bytes} :
    env.storedLine t = .ok () ↔ ∃ v, env.readValue t = some v ∧ canonical v = .ok t := by
  unfold Env.storedLine storedLineIsCanonical
  cases env.readValue t with
  | none => simp
  | some v => cases hc : canonical v <;> simp [hc, ensure_eq_ok]

/-- Accepted lines that read as one value are one line. -/
theorem storedLine_unique {t u : Bytes} (ht : env.storedLine t = .ok ()) (hu : env.storedLine u = .ok ())
    (h : env.readValue t = env.readValue u) : t = u := by
  obtain ⟨v, hv, hct⟩ := storedLine_eq_ok.mp ht
  obtain ⟨w, hw, hcu⟩ := storedLine_eq_ok.mp hu
  obtain rfl : v = w := Option.some.inj (hv.symm.trans (h.trans hw))
  exact Except.ok.inj (hct.symm.trans hcu)

/-- The row an object line decodes to. -/
def Env.lineRow (env : Env) (text : Bytes) : Option Row :=
  (env.readValue text).bind fun v => if isObject v then (Row.ofValue v).toOption else none

/-- The value of a line is that of its row. -/
theorem readValue_of_lineRow {t : Bytes} {row : Row} (h : env.lineRow t = some row) :
    env.readValue t = some row.toValue := by
  obtain ⟨v, hv, h⟩ := Option.bind_eq_some_iff.mp h
  split at h
  · next ho =>
    cases hr : Row.ofValue v with
    | error e => simp [hr, Except.toOption] at h
    | ok r =>
      obtain rfl : r = row := by simpa [hr, Except.toOption] using h
      rw [hv, ← Row.toValue_ofValue (readValue_normal hv) ho hr]
  · simp at h

/-- Equal canonical texts have equal values; the text reads back as its value within the nesting the reader
allows; and a stored line is the canonical text of what it reads as, so rows and accepted lines go one to one. -/
theorem canonical_names_value (env : Env) :
    (∀ a b : IntegerValue, canonical a.value = canonical b.value → a = b) ∧
    (∀ a : IntegerValue, ∃ t, canonical a.value = .ok t ∧
      (env.readValue t = some a.value ↔ a.value.depth ≤ 127)) ∧
    (∀ t, env.storedLine t = .ok () ↔ ∃ v, env.readValue t = some v ∧ canonical v = .ok t) ∧
    (∀ t u, env.storedLine t = .ok () → env.storedLine u = .ok () →
      env.readValue t = env.readValue u ∨ (∃ row, env.lineRow t = some row ∧ env.lineRow u = some row) →
      t = u) := by
  refine ⟨fun a b => canonical_injective, fun a => ?_, fun t => storedLine_eq_ok, fun t u ht hu h => ?_⟩
  · obtain ⟨t, ht, _⟩ := a.canonical_ok
    exact ⟨t, ht, readValue_canonical ht⟩
  · obtain h | ⟨row, hr, hs⟩ := h
    · exact storedLine_unique ht hu h
    · exact storedLine_unique ht hu ((readValue_of_lineRow hr).trans (readValue_of_lineRow hs).symm)

/-! A small value and its line, and a value of any nesting. -/

private theorem zeros_length : (List.replicate 32 (0 : UInt8)).length = 32 := List.length_replicate

def plainEnv : Env := ⟨fun _ => ⟨List.replicate 32 0, zeros_length⟩, fun _ => true⟩

def smallValue : IntegerValue where
  value := .obj [(ascii "a", .arr [.num (.pos 1), .num (.neg 1), .str (ascii "x\"y")]), (ascii "b", .obj [])]
  normal := ⟨by unfold Json.SortedKeys; decide, ⟨trivial, trivial, trivial, trivial⟩,
    ⟨by unfold Json.SortedKeys; decide, trivial⟩, trivial⟩
  integers := rfl

def smallLine : Bytes := ascii "\x7b\"a\":[1,-2,\"x\\\"y\"],\"b\":\x7b\x7d\x7d"

theorem canonical_names_value_sample : canonical smallValue.value = .ok smallLine ∧
    plainEnv.readValue smallLine = some smallValue.value ∧ plainEnv.storedLine smallLine = .ok () := by
  obtain ⟨_, hreads, hstored, _⟩ := canonical_names_value plainEnv
  have hc : canonical smallValue.value = .ok smallLine := by rfl
  obtain ⟨t, ht, hread⟩ := hreads smallValue
  obtain rfl : t = smallLine := Except.ok.inj (ht.symm.trans hc)
  have hr : plainEnv.readValue smallLine = some smallValue.value := hread.mpr (by decide +kernel)
  exact ⟨hc, hr, (hstored smallLine).mpr ⟨smallValue.value, hr, hc⟩⟩

def nestedValue : Nat → Json
  | 0 => .null
  | n + 1 => .arr [nestedValue n]

private theorem nestedValue_depth (n : Nat) : (nestedValue n).depth = n := by
  induction n with
  | zero => rfl
  | succ n ih => simp [nestedValue, Json.depth, Json.depthItems, ih]

private theorem nestedValue_normal (n : Nat) : (nestedValue n).Normal := by
  induction n with
  | zero => trivial
  | succ n ih => exact ⟨ih, trivial⟩

private theorem nestedValue_integers (n : Nat) : (nestedValue n).hasFloat = false := by
  induction n with
  | zero => rfl
  | succ n ih => simp [nestedValue, Json.hasFloat, Json.hasFloatItems, ih]

/-- 128 arrays in one another have a canonical text that does not read back. -/
theorem deep_canonical_unread : ∃ a : IntegerValue, ∃ t, canonical a.value = .ok t ∧
    a.value = nestedValue 128 ∧ plainEnv.readValue t ≠ some a.value := by
  obtain ⟨t, ht, _⟩ := IntegerValue.canonical_ok ⟨nestedValue 128, nestedValue_normal 128, nestedValue_integers 128⟩
  refine ⟨_, t, ht, rfl, fun hr => ?_⟩
  have hd : (nestedValue 128).depth ≤ Json.maxDepth := (readValue_canonical ht).mp hr
  rw [nestedValue_depth] at hd
  exact absurd hd (by decide)

end PulseNull.Oneself
