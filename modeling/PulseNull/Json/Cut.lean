import PulseNull.Json.Braces
import PulseNull.Text.Lossy

/-! The text of an object cut short is no document, also where the cut went through a character. -/
namespace PulseNull.Json
open Text (fromUtf8Lossy replacement utf8Valid)
variable {inRange : Bytes → Bool}

/-- An object's document ends with its brace or with whitespace. -/
private theorem last_of_parse {rest : Bytes} {c : UInt8} {v : Json}
    (h : parse inRange (openBrace :: rest) = some v) (hc : (openBrace :: rest).getLast? = some c) :
    c = closeBrace ∨ isSpace c = true := by
  simp only [parse, Option.bind_eq_bind, Option.bind_eq_some_iff, Prod.exists] at h
  obtain ⟨w, after, hw, hafter⟩ := h
  obtain ⟨part, rfl, -⟩ := spans_object hw
  rw [← List.cons_append, List.getLast?_append_cons] at hc
  split at hafter
  · next hskip =>
    rcases List.mem_cons.mp (List.mem_of_getLast? hc) with rfl | hmem
    · exact .inl rfl
    · exact .inr (List.dropWhile_eq_nil_iff.mp hskip c hmem)
  · cases hafter

theorem parse_cut {a b : Bytes} {c : UInt8} {v : Json} (hopen : (a ++ b).head? = some openBrace)
    (hc : c ∈ b) (hs : isSpace c = false) (hvalid : utf8Valid (a ++ b) = true)
    (h : parse inRange (a ++ b) = some v) : parse inRange (fromUtf8Lossy a) = none := by
  cases a with
  | nil => rfl
  | cons d rest =>
    obtain rfl := Option.some.inj hopen
    rcases Text.fromUtf8Lossy_cut hvalid with hsame | ⟨kept, hkept⟩
    · rw [hsame]
      exact parse_prefix hs hc h
    · have hstart : fromUtf8Lossy (openBrace :: rest) = openBrace :: fromUtf8Lossy rest := by
        rw [Text.fromUtf8Lossy.eq_def]
        rfl
      rw [Option.eq_none_iff_forall_ne_some]
      intro w hw
      have hlast : (openBrace :: fromUtf8Lossy rest).getLast? = some 189 := by
        rw [← hstart, hkept]
        simp [replacement]
      rw [hstart] at hw
      rcases last_of_parse hw hlast with he | he
      · exact absurd he (by decide)
      · exact absurd he (by decide)

end PulseNull.Json
