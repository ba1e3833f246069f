import PulseNull.Word

/-! Byte strings: ASCII literals, decimal and hexadecimal numerals, and the
well-formedness test of UTF-8. -/
namespace PulseNull
abbrev Bytes := List UInt8

instance bytesLawfulBEq : LawfulBEq Bytes := inferInstance

namespace Text

abbrev newline : UInt8 := 10

/-- The bytes of an ASCII literal. -/
def ascii (s : String) : Bytes := s.toList.map fun c => c.toNat.toUInt8

def isDigit (c : UInt8) : Bool := 48 ≤ c && c ≤ 57

def digitByte (d : Nat) : UInt8 := UInt8.ofNat (48 + d)

/-- Decimal numeral without sign or leading zero. -/
def decimal (n : Nat) : Bytes :=
  if n = 0 then [48] else ((Nat.digits 10 n).map digitByte).reverse

/-- Value of a run of decimal digits, most significant first. -/
def digitsValue (ds : Bytes) : Nat := ds.foldl (fun acc c => 10 * acc + (c.toNat - 48)) 0

theorem toNat_digitByte {d : Nat} (h : d < 10) : (digitByte d).toNat = 48 + d := by
  rw [digitByte, UInt8.toNat_ofNat']
  omega

theorem isDigit_iff (c : UInt8) : isDigit c = true ↔ 48 ≤ c.toNat ∧ c.toNat ≤ 57 := by
  simp [isDigit, UInt8.le_iff_toNat_le]

theorem isDigit_digitByte {d : Nat} (h : d < 10) : isDigit (digitByte d) = true := by
  rw [isDigit_iff, toNat_digitByte h]
  omega

theorem decimal_digits (n : Nat) : ∀ c ∈ decimal n, isDigit c = true := by
  intro c hc
  unfold decimal at hc
  split at hc
  · rw [List.mem_singleton] at hc
    subst hc
    decide
  · rw [List.mem_reverse, List.mem_map] at hc
    obtain ⟨d, hd, rfl⟩ := hc
    exact isDigit_digitByte (Nat.digits_lt_base (by decide) hd)

theorem decimal_ne_nil (n : Nat) : decimal n ≠ [] := by
  unfold decimal
  split
  · simp
  · next h => simpa using Nat.digits_ne_nil_iff_ne_zero.mpr h

private theorem digitsValue_reverse (ds : List Nat) (h : ∀ d ∈ ds, d < 10) :
    digitsValue (ds.map digitByte).reverse = Nat.ofDigits 10 ds := by
  induction ds with
  | nil => rfl
  | cons d ds ih =>
    have hd : d < 10 := h d (by simp)
    have ht := ih (fun x hx => h x (by simp [hx]))
    unfold digitsValue at ht ⊢
    rw [List.map_cons, List.reverse_cons, List.foldl_append, ht, Nat.ofDigits_cons]
    simp only [List.foldl_cons, List.foldl_nil, toNat_digitByte hd]
    omega

theorem digitsValue_decimal (n : Nat) : digitsValue (decimal n) = n := by
  unfold decimal
  split
  · next h => simp [h, digitsValue]
  · rw [digitsValue_reverse _ (fun d hd => Nat.digits_lt_base (by decide) hd), Nat.ofDigits_digits]

/-- Only the numeral of zero starts with a zero digit. -/
theorem decimal_head {n : Nat} {c : UInt8} {cs : Bytes} (h : decimal n = c :: cs) (hc : c = 48) :
    n = 0 ∧ cs = [] := by
  unfold decimal at h
  split at h
  · next hn => exact ⟨hn, by simpa [eq_comm] using (List.cons.inj h).2⟩
  · next hn =>
    exfalso
    have hne : Nat.digits 10 n ≠ [] := Nat.digits_ne_nil_iff_ne_zero.mpr hn
    have hl := Nat.getLast_digit_ne_zero 10 hn
    have hm : (Nat.digits 10 n).getLast hne < 10 :=
      Nat.digits_lt_base (by decide) (List.getLast_mem hne)
    have hh : (decimal n).head? = some (digitByte ((Nat.digits 10 n).getLast hne)) := by
      rw [decimal, if_neg hn, List.head?_reverse, List.getLast?_map, List.getLast?_eq_some_getLast hne]
      rfl
    rw [decimal, if_neg hn, h, List.head?_cons, Option.some.injEq] at hh
    have := congrArg UInt8.toNat hh
    rw [toNat_digitByte hm, hc] at this
    exact hl (by simpa using this)

theorem decimal_length_le {n k : Nat} (hk : 0 < k) (h : n < 10 ^ k) : (decimal n).length ≤ k := by
  unfold decimal
  split
  · exact hk
  · rw [List.length_reverse, List.length_map]
    exact (Nat.digits_length_le_iff (by decide) n).mpr h

def hexDigit (d : Nat) : UInt8 := if d < 10 then UInt8.ofNat (48 + d) else UInt8.ofNat (87 + d)

/-- Lowercase hexadecimal of a byte string. -/
def hex (bs : Bytes) : Bytes :=
  bs.flatMap fun b => [hexDigit (b.toNat / 16), hexDigit (b.toNat % 16)]

/-- A lowercase hexadecimal digit. -/
def isLowerHex (c : UInt8) : Bool := isDigit c || (97 ≤ c && c ≤ 102)

@[simp] theorem hex_length (bs : Bytes) : (hex bs).length = 2 * bs.length := by
  induction bs with
  | nil => rfl
  | cons b bs ih =>
    simp only [hex, List.flatMap_cons, List.length_append, List.length_cons, List.length_nil] at ih ⊢
    omega

private theorem hexDigit_lower : ∀ d < 16, isLowerHex (hexDigit d) = true := by decide

theorem isLowerHex_ge {c : UInt8} (h : isLowerHex c = true) : 48 ≤ c := by
  simp only [isLowerHex, isDigit, Bool.or_eq_true, Bool.and_eq_true, decide_eq_true_eq,
    UInt8.le_iff_toNat_le] at h ⊢
  have h1 : (48 : UInt8).toNat = 48 := rfl
  have h2 : (97 : UInt8).toNat = 97 := rfl
  omega

theorem isLowerHex_lt {c : UInt8} (h : isLowerHex c = true) : c < 128 := by
  simp only [isLowerHex, isDigit, Bool.or_eq_true, Bool.and_eq_true, decide_eq_true_eq,
    UInt8.le_iff_toNat_le, UInt8.lt_iff_toNat_lt] at h ⊢
  have h1 : (57 : UInt8).toNat = 57 := rfl
  have h2 : (102 : UInt8).toNat = 102 := rfl
  have h3 : (128 : UInt8).toNat = 128 := rfl
  omega

theorem isDigit_lt {c : UInt8} (h : isDigit c = true) : c < 128 :=
  isLowerHex_lt (by simp [isLowerHex, h])

theorem hex_lower (bs : Bytes) : ∀ c ∈ hex bs, isLowerHex c = true := by
  intro c hc
  obtain ⟨b, _, hb⟩ := List.mem_flatMap.mp hc
  have := b.toNat_lt
  simp only [List.mem_cons, List.not_mem_nil, or_false] at hb
  rcases hb with rfl | rfl
  · exact hexDigit_lower _ (by omega)
  · exact hexDigit_lower _ (by omega)

private theorem hexDigit_injective : ∀ a < 16, ∀ b < 16, hexDigit a = hexDigit b → a = b := by
  decide

theorem hex_injective {a b : Bytes} (h : hex a = hex b) : a = b := by
  induction a generalizing b with
  | nil =>
    have := congrArg List.length h
    simp only [hex_length, List.length_nil] at this
    exact (List.length_eq_zero_iff.mp (by omega)).symm
  | cons x a ih =>
    cases b with
    | nil => simp [hex] at h
    | cons y b =>
      simp only [hex, List.flatMap_cons, List.cons_append, List.nil_append, List.cons.injEq] at h
      obtain ⟨hhi, hlo, ht⟩ := h
      have hx := x.toNat_lt
      have hy := y.toNat_lt
      have h1 := hexDigit_injective _ (by omega) _ (by omega) hhi
      have h2 := hexDigit_injective _ (by omega) _ (by omega) hlo
      rw [ih ht, UInt8.toNat_inj.mp (show x.toNat = y.toNat by omega)]

/-! UTF-8, by the ranges of lead and continuation bytes. -/

def isCont (c : UInt8) : Bool := 128 ≤ c && c ≤ 191

/-- Well-formed UTF-8: no overlong form, no surrogate, nothing above U+10FFFF. -/
def utf8Valid : Bytes → Bool
  | [] => true
  | a :: as =>
    if a < 128 then utf8Valid as
    else match as with
      | [] => false
      | b :: bs =>
        if 194 ≤ a && a ≤ 223 then isCont b && utf8Valid bs
        else match bs with
          | [] => false
          | c :: cs =>
            if a = 224 then 160 ≤ b && b ≤ 191 && isCont c && utf8Valid cs
            else if a = 237 then 128 ≤ b && b ≤ 159 && isCont c && utf8Valid cs
            else if 225 ≤ a && a ≤ 239 then isCont b && isCont c && utf8Valid cs
            else match cs with
              | [] => false
              | d :: ds =>
                if a = 240 then 144 ≤ b && b ≤ 191 && isCont c && isCont d && utf8Valid ds
                else if a = 244 then 128 ≤ b && b ≤ 143 && isCont c && isCont d && utf8Valid ds
                else if 241 ≤ a && a ≤ 243 then isCont b && isCont c && isCont d && utf8Valid ds
                else false

theorem utf8Valid_ascii {bs : Bytes} (h : ∀ c ∈ bs, c < 128) : utf8Valid bs = true := by
  induction bs with
  | nil => rfl
  | cons c cs ih =>
    rw [utf8Valid.eq_def]
    simp only [h c (by simp), if_true]
    exact ih (fun x hx => h x (by simp [hx]))

/-- ASCII may be put in front of a text without changing its validity. -/
theorem utf8Valid_cons_ascii {c : UInt8} (hc : c < 128) (bs : Bytes) :
    utf8Valid (c :: bs) = utf8Valid bs := by
  rw [utf8Valid.eq_def]
  simp only [hc, if_true]

/-- Valid texts may be put together. -/
theorem utf8Valid_append {a b : Bytes} (ha : utf8Valid a = true) (hb : utf8Valid b = true) :
    utf8Valid (a ++ b) = true := by
  induction a using utf8Valid.induct with
  | case1 => exact hb
  | case2 c cs hc ih =>
    rw [utf8Valid_cons_ascii hc] at ha
    rw [List.cons_append, utf8Valid_cons_ascii hc]
    exact ih ha
  | _ =>
    rw [utf8Valid.eq_def] at ha
    simp only [List.cons_append]
    rw [utf8Valid.eq_def]
    simp_all [-UInt8.not_lt, -not_and, -not_or]

end Text
end PulseNull
