import PulseNull.Json.Cut
import PulseNull.Json.Decode
import PulseNull.Json.RoundTrip
import PulseNull.Json.Utf8

/-! Objects of strings, integers, booleans and nulls: each has a text, one line that is read back, and
nothing is read of it when it is cut short. -/
namespace PulseNull.Json
variable {inRange : Bytes → Bool}

/-- A value that is no list or object and no float. -/
structure Simple (v : Json) : Prop where
  prints : ∃ t, print v = some t
  normal : v.Normal
  depth : v.depth = 0
  utf8 : v.Utf8

theorem simple_str {s : Bytes} (h : Text.utf8Valid s = true) : Simple (.str s) := ⟨⟨_, rfl⟩, trivial, rfl, h⟩

theorem simple_bool (b : Bool) : Simple (.bool b) := by
  cases b <;> exact ⟨⟨_, rfl⟩, trivial, rfl, trivial⟩

theorem simple_null : Simple .null := ⟨⟨_, rfl⟩, trivial, rfl, trivial⟩

theorem simple_pos (n : Fin (2^64)) : Simple (.num (.pos n)) := ⟨⟨_, rfl⟩, trivial, rfl, trivial⟩

/-- The members of a map value of simple values. -/
structure Flat (ms : List (Bytes × Json)) : Prop where
  simple : ∀ m ∈ ms, Text.utf8Valid m.1 = true ∧ Simple m.2
  sorted : SortedKeys ms

private theorem printMembers_simple {ms : List (Bytes × Json)} (h : ∀ m ∈ ms, Simple m.2) :
    ∃ ps, printMembers ms = some ps := by
  induction ms with
  | nil => exact ⟨[], rfl⟩
  | cons m ms ih =>
    obtain ⟨t, ht⟩ := (h m List.mem_cons_self).prints
    obtain ⟨ps, hps⟩ := ih fun m hm => h m (List.mem_cons_of_mem _ hm)
    exact ⟨(m.1, t) :: ps, by rw [printMembers, ht, hps]; rfl⟩

private theorem members_simple {ms : List (Bytes × Json)} (h : ∀ m ∈ ms, Text.utf8Valid m.1 = true ∧ Simple m.2) :
    NormalMembers ms ∧ depthMembers ms = 0 ∧ Utf8Members ms := by
  induction ms with
  | nil => exact ⟨trivial, rfl, trivial⟩
  | cons m ms ih =>
    obtain ⟨hnormal, hdepth, hutf8⟩ := ih fun m hm => h m (List.mem_cons_of_mem _ hm)
    obtain ⟨hkey, hm⟩ := h m List.mem_cons_self
    refine ⟨⟨hm.normal, hnormal⟩, ?_, hkey, hm.utf8, hutf8⟩
    rw [depthMembers, hm.depth, hdepth]
    rfl

/-- The text of an object. -/
structure FlatText (inRange : Bytes → Bool) (ms : List (Bytes × Json)) (text : Bytes) : Prop where
  opens : text.head? = some openBrace
  print : print (.obj ms) = some text
  parse : parse inRange text = some (.obj ms)
  visible : ∀ c ∈ text, 32 ≤ c
  utf8 : Text.utf8Valid text = true
  cut : ∀ a b, text = a ++ b → b ≠ [] → Json.parse inRange (Text.fromUtf8Lossy a) = none

theorem Flat.normalize {ms : List (Bytes × Json)} (h : Flat ms) : (Json.obj ms).normalize = .obj ms :=
  normalize_of_normal ⟨h.sorted, (members_simple h.simple).1⟩

theorem Flat.text (inRange : Bytes → Bool) {ms : List (Bytes × Json)} (h : Flat ms) :
    ∃ text, FlatText inRange ms text := by
  obtain ⟨ps, hps⟩ := printMembers_simple fun m hm => (h.simple m hm).2
  obtain ⟨-, hdepth, hutf8⟩ := members_simple h.simple
  have hprint : Json.print (.obj ms) = some (brace ps) := by rw [Json.print, hps, Option.map_some]
  have hparse : Json.parse inRange (brace ps) = some (.obj ms) := by
    refine parse_print hprint ?_
    rw [Json.depth, hdepth]
    decide
  have hvalid := print_utf8 (v := .obj ms) hutf8 hprint
  refine ⟨brace ps, rfl, hprint, hparse, print_ge hprint, hvalid, fun a b hab hb => ?_⟩
  have hlast : b.getLast? = some closeBrace := by
    have hwhole : (brace ps).getLast? = some closeBrace := by
      rw [brace, ← List.cons_append, List.getLast?_concat]
    rwa [hab, List.getLast?_append_of_ne_nil _ hb] at hwhole
  refine parse_cut (b := b) (c := closeBrace) ?_ (List.mem_of_getLast? hlast) (by decide) (hab ▸ hvalid) (hab ▸ hparse)
  rw [← hab]
  rfl

end PulseNull.Json
