import PulseNull.Arith
import PulseNull.Calendar
import PulseNull.Text.Slices

/-! Days and dates: conversion both ways, and the days between two dates given as texts. Every step of
the arithmetic and every slice may fail; none is a panic. -/
namespace PulseNull.Praxis
open Arith Calendar
open Text (Chars size slice sliceTo parseI64)

def daysToDate (daysSinceEpoch : Nat) : Option (Nat × Nat × Nat) := do
  let z ← addU64 daysSinceEpoch 719468
  let era := z / 146097
  let doe ← subU64 z (← mulU64 era 146097)
  let yoe := (← subU64 (← addU64 (← subU64 doe (doe / 1460)) (doe / 36524)) (doe / 146096)) / 365
  let y ← addU64 yoe (← mulU64 era 400)
  let doy ← subU64 doe (← subU64 (← addU64 (← mulU64 365 yoe) (yoe / 4)) (yoe / 100))
  let mp := (← addU64 (← mulU64 5 doy) 2) / 153
  let d ← addU64 (← subU64 doy ((← addU64 (← mulU64 153 mp) 2) / 5)) 1
  let m ← if mp < 10 then addU64 mp 3 else subU64 mp 9
  let year ← if m ≤ 2 then addU64 y 1 else some y
  return (year, m, d)

/-- `date_to_days`; division of signed integers truncates. -/
def dateToDays (year month day : Int) : Option Int := do
  let y ← (if month ≤ 2 then subI64 year 1 else some year)
  let era := (← (if 0 ≤ y then some y else subI64 y 399)).tdiv 400
  let yoe := asU64 (← subI64 y (← mulI64 era 400))
  let mp := asU64 (← (if 2 < month then subI64 month 3 else addI64 month 9))
  let doy ← subU64 (← addU64 ((← addU64 (← mulU64 153 mp) 2) / 5) (asU64 day)) 1
  let doe ← addU64 (← subU64 (← addU64 (← mulU64 yoe 365) (yoe / 4)) (yoe / 100)) doy
  subI64 (← addI64 (← mulI64 era 146097) (asI64 doe)) 719468

/-- The inner none is a text that is no date. -/
def parseDateToDays (date : Chars) : Option (Option Int) := do
  if size date < 10 then return none
  let some year := parseI64 (← sliceTo 4 date) | return none
  let some month := parseI64 (← slice 5 7 date) | return none
  let some day := parseI64 (← slice 8 10 date) | return none
  return some (← dateToDays year month day)

/-- Day difference between two YYYY-MM-DD strings. -/
def daysBetween (earlier later : Chars) : Option Int := do
  match ← parseDateToDays earlier, ← parseDateToDays later with
  | some e, some l => subI64 l e
  | _, _ => return 0

/-! The arithmetic of the first conversion. -/

/-- Days before a year of an era, both counted from the first of March. -/
def eraYearStart (yoe : Nat) : Nat := 365 * yoe + yoe / 4 - yoe / 100

/-- The year of an era a day of the era is in. -/
def yearOfEra (doe : Nat) : Nat := (doe - doe / 1460 + doe / 36524 - doe / 146096) / 365

private theorem yearOfEra_mono {a b : Nat} (h : a ≤ b) : yearOfEra a ≤ yearOfEra b := by
  have hstep (n : Nat) : n - n / 1460 + n / 36524 - n / 146096 ≤
      (n + 1) - (n + 1) / 1460 + (n + 1) / 36524 - (n + 1) / 146096 := by omega
  exact Nat.div_le_div_right (monotone_nat_of_le_succ hstep h)

private theorem yearOfEra_ends : ∀ yoe < 400, yearOfEra (eraYearStart yoe) = yoe ∧
    (yoe < 399 → yearOfEra (eraYearStart (yoe + 1) - 1) = yoe) := by decide +kernel

private theorem yearOfEra_last : yearOfEra 146096 = 399 := by decide

theorem yearOfEra_bounds {doe : Nat} (h : doe < 146097) : yearOfEra doe < 400 ∧
    eraYearStart (yearOfEra doe) ≤ doe ∧
    (doe < eraYearStart (yearOfEra doe + 1) ∨ yearOfEra doe = 399) := by
  have hlt : yearOfEra doe < 400 := by
    have := yearOfEra_mono (Nat.le_of_lt_succ h)
    rw [yearOfEra_last] at this
    omega
  refine ⟨hlt, ?_, ?_⟩
  · by_contra hgt
    rw [not_le] at hgt
    have hpos : 0 < yearOfEra doe := by
      rcases Nat.eq_zero_or_pos (yearOfEra doe) with h0 | hpos
      · rw [h0] at hgt
        exact absurd hgt (Nat.not_lt_zero _)
      · exact hpos
    obtain ⟨y, hy⟩ := Nat.exists_eq_add_of_le' hpos
    have hmono := yearOfEra_mono (Nat.le_sub_one_of_lt hgt)
    rw [hy, (yearOfEra_ends y (by omega)).2 (by omega)] at hmono
    omega
  · by_contra hgt
    rw [not_or, not_lt] at hgt
    have hmono := yearOfEra_mono hgt.1
    rw [(yearOfEra_ends _ (by omega)).1] at hmono
    omega

/-- The day of a year from March that a day of an era is. -/
def dayOfYear (doe : Nat) : Nat := doe - eraYearStart (yearOfEra doe)

theorem dayOfYear_le {doe : Nat} (h : doe < 146097) : dayOfYear doe ≤ 365 := by
  obtain ⟨hlt, hle, hnext⟩ := yearOfEra_bounds h
  unfold dayOfYear
  rcases hnext with hnext | hlast
  · unfold eraYearStart at *
    omega
  · rw [hlast]
    have hstart : eraYearStart 399 = 145731 := rfl
    omega

/-- What the arithmetic gives for a day counted from the first of March of the year 0. -/
def civil (z : Nat) : Nat × Nat × Nat :=
  let doe := z % 146097
  let y := yearOfEra doe + z / 146097 * 400
  let mp := (5 * dayOfYear doe + 2) / 153
  let m := if mp < 10 then mp + 3 else mp - 9
  (if m ≤ 2 then y + 1 else y, m, dayOfYear doe - (153 * mp + 2) / 5 + 1)

theorem daysToDate_eq {d : Nat} (h : d + 719468 < 2^64) :
    daysToDate d = some (civil (d + 719468)) := by
  generalize hz : d + 719468 = z at h
  have hdoe : z % 146097 < 146097 := Nat.mod_lt _ (by decide)
  obtain ⟨hlt, hle, -⟩ := yearOfEra_bounds hdoe
  have hday := dayOfYear_le hdoe
  have hmod : z - z / 146097 * 146097 = z % 146097 := by omega
  unfold daysToDate
  refine (bind_some (addU64_eq (by omega))).trans ?_
  rw [hz]
  refine (bind_some (mulU64_eq (by omega))).trans ?_
  refine (bind_some (subU64_eq (by omega))).trans ?_
  rw [hmod]
  generalize hdoez : z % 146097 = doe at *
  refine (bind_some (subU64_eq (by omega))).trans ?_
  refine (bind_some (addU64_eq (by omega))).trans ?_
  refine (bind_some (subU64_eq (by omega))).trans ?_
  have hyear : (doe - doe / 1460 + doe / 36524 - doe / 146096) / 365 = yearOfEra doe := rfl
  have hstart : 365 * yearOfEra doe + yearOfEra doe / 4 - yearOfEra doe / 100 =
    eraYearStart (yearOfEra doe) := rfl
  refine (bind_some (mulU64_eq (by omega))).trans ?_
  rw [hyear]
  refine (bind_some (addU64_eq (by omega))).trans ?_
  refine (bind_some (mulU64_eq (by omega))).trans ?_
  refine (bind_some (addU64_eq (by omega))).trans ?_
  refine (bind_some (subU64_eq (by omega))).trans ?_
  rw [hstart]
  refine (bind_some (subU64_eq (by omega))).trans ?_
  have hdoy : doe - eraYearStart (yearOfEra doe) = dayOfYear doe := rfl
  rw [hdoy]
  refine (bind_some (mulU64_eq (by omega))).trans ?_
  refine (bind_some (addU64_eq (by omega))).trans ?_
  refine (bind_some (mulU64_eq (by omega))).trans ?_
  refine (bind_some (addU64_eq (by omega))).trans ?_
  refine (bind_some (subU64_eq (by omega))).trans ?_
  refine (bind_some (addU64_eq (by omega))).trans ?_
  unfold civil
  rw [hdoez]
  dsimp only
  generalize hmp : (5 * dayOfYear doe + 2) / 153 = mp
  split
  · refine (bind_some (addU64_eq (by omega))).trans ?_
    rw [if_neg (by omega), if_neg (by omega)]
    rfl
  · refine (bind_some (subU64_eq (by omega))).trans ?_
    rw [if_pos (by omega), if_pos (by omega)]
    refine (bind_some (addU64_eq (by omega))).trans ?_
    rfl

/-- The first of March by both counts. -/
theorem daysBeforeMarch (era : Int) {yoe : Nat} (h : yoe < 400) :
    daysBeforeYear (yoe + era * 400) + daysBeforeMonth (yoe + era * 400) 3 =
      era * 146097 + eraYearStart yoe + 60 := by
  unfold daysBeforeYear eraYearStart
  by_cases hl : Leap (yoe + era * 400)
  · have hm : daysBeforeMonth (yoe + era * 400) 3 = 60 := by simp [daysBeforeMonth, monthLength, hl]
    rw [hm]
    unfold Leap at hl
    omega
  · have hm : daysBeforeMonth (yoe + era * 400) 3 = 59 := by simp [daysBeforeMonth, monthLength, hl]
    rw [hm]
    unfold Leap at hl
    omega

/-- The months from March on. -/
theorem daysBeforeMonth_march (y : Int) {mp : Nat} (h : mp ≤ 10) :
    daysBeforeMonth y (mp + 3) = daysBeforeMonth y 3 + (153 * mp + 2) / 5 := by
  interval_cases mp <;> simp [daysBeforeMonth, monthLength, Nat.add_assoc]

theorem leap_of_dayOfYear {doe : Nat} (h : doe < 146097) (hday : dayOfYear doe = 365) (era : Nat) :
    Leap (yearOfEra doe + era * 400 + 1) := by
  obtain ⟨hlt, hle, hnext⟩ := yearOfEra_bounds h
  unfold dayOfYear at hday
  generalize yearOfEra doe = yoe at *
  unfold Leap
  rcases hnext with hnext | hlast
  · unfold eraYearStart at hnext hle hday
    have hlength : 1 + yoe / 4 + (yoe + 1) / 100 ≤ (yoe + 1) / 4 + yoe / 100 := by omega
    have hfour : (yoe + 1) % 4 = 0 := by omega
    have hcentury : (yoe + 1) % 100 ≠ 0 := by omega
    omega
  · omega

/-- The arithmetic gives the date of the day. -/
theorem civil_eq (z : Nat) : ∃ a : Date, civil z = (a.year.toNat, a.month, a.day) ∧ 0 ≤ a.year ∧
    a.number = z + 60 := by
  have hdoe : z % 146097 < 146097 := Nat.mod_lt _ (by decide)
  obtain ⟨hlt, hle, -⟩ := yearOfEra_bounds hdoe
  have hday := dayOfYear_le hdoe
  have hleap := leap_of_dayOfYear hdoe
  have hmarch := daysBeforeMarch (z / 146097 : Nat) hlt
  have hsplit : dayOfYear (z % 146097) = z % 146097 - eraYearStart (yearOfEra (z % 146097)) := rfl
  unfold civil
  dsimp only
  generalize hdoy : dayOfYear (z % 146097) = doy at *
  generalize yearOfEra (z % 146097) = yoe at *
  generalize hera : z / 146097 = era at *
  generalize hmp : (5 * doy + 2) / 153 = mp
  have hmp12 : mp ≤ 11 := by omega
  by_cases hten : mp < 10
  · have hbefore := daysBeforeMonth_march (yoe + era * 400) (show mp ≤ 10 by omega)
    have hvalid : Valid (yoe + era * 400) (mp + 3) (doy - (153 * mp + 2) / 5 + 1) := by
      refine ⟨by omega, by omega, ?_⟩
      clear hbefore hmarch
      unfold monthLength
      interval_cases mp <;> simp <;> omega
    refine ⟨⟨yoe + era * 400, mp + 3, _, hvalid⟩, ?_, by dsimp only; omega, ?_⟩
    · rw [if_pos hten, if_neg (by omega)]
      rfl
    · unfold Date.number
      dsimp only
      omega
  · obtain ⟨m, rfl⟩ := Nat.exists_eq_add_of_le (not_lt.mp hten)
    have hbefore : daysBeforeMonth (yoe + era * 400) 13 =
        daysBeforeMonth (yoe + era * 400) 3 + 306 := daysBeforeMonth_march _ (show 10 ≤ 10 from le_rfl)
    rw [daysBeforeMonth_year] at hbefore
    have hvalid : Valid (yoe + era * 400 + 1) (m + 1) (doy - (153 * (10 + m) + 2) / 5 + 1) := by
      refine ⟨by omega, by omega, ?_⟩
      have hleap := fun h => hleap h era
      clear hbefore hmarch
      unfold monthLength
      have hm : m ≤ 1 := by omega
      interval_cases m
      · simp
        omega
      · simp
        split_ifs with hl
        · omega
        · have : doy ≠ 365 := fun h => hl (hleap h)
          omega
    refine ⟨⟨yoe + era * 400 + 1, m + 1, _, hvalid⟩, ?_, by dsimp only; omega, ?_⟩
    · rw [if_neg hten, if_pos (by omega)]
      dsimp only
      congr 2
      omega
    · unfold Date.number
      dsimp only
      rw [daysBeforeYear_succ]
      have hm : daysBeforeMonth (yoe + era * 400 + 1) (m + 1) = 31 * m := by
        have hm : m ≤ 1 := by omega
        interval_cases m <;> rfl
      rw [hm]
      omega

/-! The arithmetic of the second conversion. -/

private theorem floorEra (y : Int) : (if 0 ≤ y then y else y - 399).tdiv 400 = y / 400 := by
  split_ifs with h
  · exact Int.tdiv_eq_ediv_of_nonneg h
  · have hneg : y - 399 = -(399 - y) := by ring
    rw [hneg, Int.neg_tdiv, Int.tdiv_eq_ediv_of_nonneg (by omega)]
    omega

/-- Year and month from March on. -/
def marchYear (a : Date) : Int := if a.month ≤ 2 then a.year - 1 else a.year

def marchMonth (a : Date) : Nat := if 2 < a.month then a.month - 3 else a.month + 9

theorem number_march (a : Date) : a.number = marchYear a / 400 * 146097 +
    eraYearStart (marchYear a % 400).toNat + ((153 * marchMonth a + 2) / 5 + a.day - 1 : Nat) + 60 := by
  have hyoe : (marchYear a % 400).toNat < 400 := by omega
  have hmarch := daysBeforeMarch (marchYear a / 400) hyoe
  have hyear : ((marchYear a % 400).toNat : Int) + marchYear a / 400 * 400 = marchYear a := by omega
  rw [hyear] at hmarch
  have hd := a.valid.2.1
  unfold Date.number
  unfold marchYear marchMonth at *
  split_ifs at * with hm
  · omega
  · have hlast : daysBeforeMonth (a.year - 1) 13 = daysBeforeMonth (a.year - 1) 3 + 306 :=
      daysBeforeMonth_march _ (show 10 ≤ 10 from le_rfl)
    have hnext := daysBeforeYear_succ (a.year - 1)
    rw [sub_add_cancel, ← daysBeforeMonth_year, hlast] at hnext
    have hmonth : daysBeforeMonth a.year a.month = 31 * (a.month - 1) := by
      have hm1 := a.valid.1.1
      generalize a.month = m at *
      interval_cases m <;> rfl
    rw [hmonth, hnext]
    have hm1 := a.valid.1.1
    omega
  · have hmonth := daysBeforeMonth_march a.year (show a.month - 3 ≤ 10 by have := a.valid.1.2; omega)
    rw [Nat.sub_add_cancel (by omega)] at hmonth
    rw [hmonth]
    omega
  · omega

/-- The arithmetic after year and month are counted from March, for days of any small number. -/
theorem dateToDays_march {year month : Int} {y : Int} {mp day : Nat}
    (hyear : (if month ≤ 2 then subI64 year 1 else some year) = some y)
    (hmonth : (if 2 < month then subI64 month 3 else addI64 month 9) = some (mp : Int))
    (hy0 : -1 ≤ y) (hy1 : y < 2^63) (hmp : mp < 100) (hday : day < 100) :
    dateToDays year month day =
      if (153 * mp + 2) / 5 + day = 0 then none
      else fitI64 (y / 400 * 146097 +
        (eraYearStart (y % 400).toNat + ((153 * mp + 2) / 5 + day - 1) : Nat)) >>= (subI64 · 719468) := by
  have hyoe : (y % 400).toNat < 400 := by omega
  have hround : (if 0 ≤ y then some y else subI64 y 399) = some (if 0 ≤ y then y else y - 399) := by
    split_ifs
    · rfl
    · exact fitI64_eq (by omega)
  have hmod : y - y / 400 * 400 = y % 400 := by omega
  unfold dateToDays
  refine (bind_some hyear).trans ?_
  refine (bind_some hround).trans ?_
  rw [floorEra]
  refine (bind_some (fitI64_eq (by omega))).trans ?_
  refine (bind_some (fitI64_eq (by omega))).trans ?_
  rw [hmod, asU64_eq (by omega) (by omega)]
  refine (bind_some hmonth).trans ?_
  rw [asU64_eq (by omega) (by omega), Int.toNat_natCast, asU64_eq (by omega) (by omega), Int.toNat_natCast]
  generalize (y % 400).toNat = yoe at *
  refine (bind_some (mulU64_eq (by omega))).trans ?_
  refine (bind_some (addU64_eq (by omega))).trans ?_
  refine (bind_some (addU64_eq (by omega))).trans ?_
  split_ifs with hzero
  · rw [subU64, if_neg (by omega)]
    rfl
  refine (bind_some (subU64_eq (by omega))).trans ?_
  refine (bind_some (mulU64_eq (by omega))).trans ?_
  refine (bind_some (addU64_eq (by omega))).trans ?_
  refine (bind_some (subU64_eq (by omega))).trans ?_
  have hstart : yoe * 365 + yoe / 4 - yoe / 100 = eraYearStart yoe := by
    unfold eraYearStart
    omega
  rw [hstart]
  have hlast : eraYearStart yoe ≤ 146097 := by
    unfold eraYearStart
    omega
  refine (bind_some (addU64_eq (by omega))).trans ?_
  by_cases hera : y / 400 * 146097 < 2^63
  · refine (bind_some (fitI64_eq (by omega))).trans ?_
    rw [asI64_eq (by omega)]
    rfl
  · rw [mulI64, fitI64_none (by omega), fitI64_none (by omega)]
    rfl

private theorem marchYear_eq {a : Date} (h0 : 0 ≤ a.year) (h1 : a.year < 2^63) :
    (if (a.month : Int) ≤ 2 then subI64 a.year 1 else some a.year) = some (marchYear a) := by
  unfold marchYear
  split_ifs with h h' h'
  · exact fitI64_eq (by omega)
  · omega
  · omega
  · rfl

theorem marchMonth_eq {m : Nat} (h : m < 100) :
    (if (2 : Int) < m then subI64 m 3 else addI64 m 9) =
      some ((if 2 < m then m - 3 else m + 9 : Nat) : Int) := by
  split_ifs with h h' h'
  · refine (fitI64_eq (by omega)).trans ?_
    rw [Nat.cast_sub (by omega)]
    rfl
  · omega
  · omega
  · exact fitI64_eq (by omega)

/-- The arithmetic gives the number of the date, where it fits. -/
theorem dateToDays_eq (a : Date) (h0 : 0 ≤ a.year) (h1 : a.year < 2^63) :
    dateToDays a.year a.month a.day =
      if a.number - 60 < 2^63 then some (a.number - 719528) else none := by
  have hmarch := number_march a
  have hy0 : -1 ≤ marchYear a := by unfold marchYear; split_ifs <;> omega
  have hy1 : marchYear a < 2^63 := by unfold marchYear; split_ifs <;> omega
  have hm := a.valid.1
  have hmp : marchMonth a < 100 := by
    unfold marchMonth
    split_ifs <;> omega
  have hd0 := a.valid.2.1
  have hd1 := a.valid.2.2.trans (monthLength_le a.year a.month)
  have hmonth : (if (2 : Int) < a.month then subI64 a.month 3 else addI64 a.month 9) =
      some (marchMonth a : Int) := marchMonth_eq (by omega)
  rw [dateToDays_march (marchYear_eq h0 h1) hmonth hy0 hy1 hmp (by omega), if_neg (by omega)]
  have hyoe : (marchYear a % 400).toNat < 400 := by omega
  generalize (marchYear a % 400).toNat = yoe at *
  split_ifs with hfit
  · refine (bind_some (fitI64_eq (by omega))).trans ?_
    refine (fitI64_eq (by omega)).trans ?_
    congr 1
    omega
  · rw [fitI64_none (by omega)]
    rfl

/-! Dates as texts. -/

/-- `YYYY-MM-DD` -/
def dateText (a : Date) : Chars :=
  Text.padded 4 a.year.toNat ++ ('-' :: (Text.padded 2 a.month ++ ('-' :: Text.padded 2 a.day)))

theorem size_dash : size ['-'] = 1 := by decide

theorem parseDateToDays_text {a : Date} (h0 : 0 ≤ a.year) (h1 : a.year ≤ 9999) (rest : Chars) :
    parseDateToDays (dateText a ++ rest) = some (some (a.number - 719528)) := by
  obtain ⟨⟨hm1, hm12⟩, hd1, hdl⟩ := a.valid
  have hd31 := hdl.trans (monthLength_le a.year a.month)
  have hsize (w n : Nat) : size (Text.padded w n) = w := Text.size_padded w n
  have hdash : '-'.utf8Size = 1 := rfl
  have hyear : sliceTo 4 (dateText a ++ rest) = some (Text.padded 4 a.year.toNat) := by
    have h := Text.sliceTo_append (Text.padded 4 a.year.toNat)
      ('-' :: (Text.padded 2 a.month ++ ('-' :: Text.padded 2 a.day)) ++ rest)
    rwa [hsize, ← List.append_assoc] at h
  have hmonth : slice 5 7 (dateText a ++ rest) = some (Text.padded 2 a.month) := by
    have h := Text.slice_append (Text.padded 4 a.year.toNat ++ ['-']) (Text.padded 2 a.month)
      ('-' :: Text.padded 2 a.day ++ rest)
    rw [Text.size_append, hsize, hsize, size_dash] at h
    simpa [dateText] using h
  have hday : slice 8 10 (dateText a ++ rest) = some (Text.padded 2 a.day) := by
    have h := Text.slice_append (Text.padded 4 a.year.toNat ++ ('-' :: Text.padded 2 a.month ++ ['-']))
      (Text.padded 2 a.day) rest
    rw [Text.size_append, Text.size_append, Text.size_cons, hsize, hsize, hsize, size_dash, hdash] at h
    simpa [dateText] using h
  have hlong : ¬ size (dateText a ++ rest) < 10 := by
    simp only [dateText, Text.size_append, Text.size_cons, hsize]
    omega
  have hfit : dateToDays a.year a.month a.day = some (a.number - 719528) := by
    have hnum := (number_bounds a).2
    have hmono := daysBeforeYear_mono (show a.year + 1 ≤ 10000 by omega)
    have hlast : daysBeforeYear 10000 = 3652425 := by decide
    rw [dateToDays_eq a h0 (by omega), if_pos (by omega)]
  have hpy : parseI64 (Text.padded 4 a.year.toNat) = some (a.year.toNat : Int) :=
    Text.parseI64_padded (by decide) (by omega) (by omega)
  have hpm : parseI64 (Text.padded 2 a.month) = some (a.month : Int) :=
    Text.parseI64_padded (by decide) (by omega) (by omega)
  have hpd : parseI64 (Text.padded 2 a.day) = some (a.day : Int) :=
    Text.parseI64_padded (by decide) (by omega) (by omega)
  rw [Int.toNat_of_nonneg h0] at hpy
  unfold parseDateToDays
  simp [hlong, hyear, hmonth, hday, hpy, hpm, hpd, hfit]

/-- Texts that start with dates. -/
theorem daysBetween_text {a b : Date} (ha : 0 ≤ a.year ∧ a.year ≤ 9999)
    (hb : 0 ≤ b.year ∧ b.year ≤ 9999) (rest rest' : Chars) :
    daysBetween (dateText a ++ rest) (dateText b ++ rest') = some (b.number - a.number) := by
  have hbounds (c : Date) (hc : 0 ≤ c.year ∧ c.year ≤ 9999) : 0 ≤ c.number ∧ c.number < 3652425 := by
    have hnum := number_bounds c
    have hfirst := daysBeforeYear_mono hc.1
    have hmono := daysBeforeYear_mono (show c.year + 1 ≤ 10000 by omega)
    have hzero : daysBeforeYear 0 = 0 := by decide
    have hlast : daysBeforeYear 10000 = 3652425 := by decide
    omega
  have hab := hbounds a ha
  have hbb := hbounds b hb
  unfold daysBetween
  rw [parseDateToDays_text ha.1 ha.2, parseDateToDays_text hb.1 hb.2]
  refine (fitI64_eq (by omega)).trans ?_
  congr 1
  ring

/-- Dates whose texts have four digits for the year. -/
def FourDigits (a : Date) : Prop := 0 ≤ a.year ∧ a.year ≤ 9999

instance (a : Date) : Decidable (FourDigits a) :=
  inferInstanceAs (Decidable (0 ≤ a.year ∧ a.year ≤ 9999))

theorem daysBetween_dates {a b : Date} (ha : FourDigits a) (hb : FourDigits b) :
    daysBetween (dateText a) (dateText b) = some (b.number - a.number) := by
  have h := daysBetween_text ha hb [] []
  rwa [List.append_nil, List.append_nil] at h

private theorem epoch_number : epoch.number = 719528 := by decide

private theorem epoch_le {a : Date} (h : 1970 ≤ a.year) : 719528 ≤ a.number := by
  have hmono := daysBeforeYear_mono h
  have hfirst : daysBeforeYear 1970 = 719528 := by decide
  have hnum := (number_bounds a).1
  omega

private theorem year_le {a : Date} (h : 0 ≤ a.year) : 365 * a.year ≤ a.number := by
  have hnum := (number_bounds a).1
  unfold daysBeforeYear at hnum
  omega

/-- A day gives the date that comes so many days after the epoch. -/
theorem daysToDate_date {d : Nat} (h : d + 719468 < 2^64) :
    ∃ a : Date, daysToDate d = some (a.year.toNat, a.month, a.day) ∧ 1970 ≤ a.year ∧
      a.number = d + 719528 := by
  obtain ⟨a, hcivil, h0, hnum⟩ := civil_eq (d + 719468)
  have hyear : 1970 ≤ a.year := by
    by_contra hlt
    have hmono := daysBeforeYear_mono (show a.year + 1 ≤ 1970 by omega)
    have hfirst : daysBeforeYear 1970 = 719528 := by decide
    have hb := (number_bounds a).2
    omega
  refine ⟨a, by rw [daysToDate_eq h, hcivil], hyear, ?_⟩
  rw [hnum]
  push_cast
  ring

theorem daysToDate_number {a : Date} (h : 1970 ≤ a.year) (hfit : a.number < 2^63 + 60) :
    daysToDate (a.number - 719528).toNat = some (a.year.toNat, a.month, a.day) := by
  have hle := epoch_le h
  obtain ⟨b, hb, -, hnum⟩ := daysToDate_date (d := (a.number - 719528).toNat) (by omega)
  have hab : b = a := number_injective (by omega)
  rw [hb, hab]

/-- Both conversions are exact as far as their arithmetic fits, and dates are apart by as many days as
lead from one to the other. -/
theorem calendar_exact (d : Nat) (a b c : Date) :
    (d + 719468 < 2^64 → ∃ a : Date, daysToDate d = some (a.year.toNat, a.month, a.day) ∧
      Date.next^[d] epoch = a ∧
      (d + 719468 < 2^63 → dateToDays a.year a.month a.day = some (d : Int))) ∧
    (1970 ≤ a.year → a.number < 2^63 + 60 → ∃ n : Nat,
      dateToDays a.year a.month a.day = some (n : Int) ∧
      daysToDate n = some (a.year.toNat, a.month, a.day)) ∧
    (FourDigits a → FourDigits b → ∃ n, daysBetween (dateText a) (dateText b) = some n ∧
      ∀ k : Nat, (n = k ↔ Date.next^[k] a = b) ∧ (n = -k ↔ Date.next^[k] b = a)) ∧
    (FourDigits a → FourDigits b → FourDigits c → b < c →
      (∃ m n, daysBetween (dateText a) (dateText b) = some m ∧
        daysBetween (dateText a) (dateText c) = some n ∧ m < n) ∧
      ∃ m n, daysBetween (dateText b) (dateText a) = some m ∧
        daysBetween (dateText c) (dateText a) = some n ∧ n < m) := by
  refine ⟨fun h => ?_, fun h hfit => ?_, fun ha hb => ?_, fun ha hb hc hlt => ?_⟩
  · obtain ⟨a, hdate, hyear, hnum⟩ := daysToDate_date h
    refine ⟨a, hdate, (number_sub_eq epoch a d).mp ?_, fun hfit => ?_⟩
    · rw [epoch_number]
      omega
    · have hle := year_le (show 0 ≤ a.year by omega)
      rw [dateToDays_eq a (by omega) (by omega), if_pos (by omega), hnum, add_sub_cancel_right]
  · have hle := epoch_le h
    have hyear := year_le (show 0 ≤ a.year by omega)
    refine ⟨(a.number - 719528).toNat, ?_, daysToDate_number h hfit⟩
    rw [dateToDays_eq a (by omega) (by omega), if_pos (by omega), Int.toNat_of_nonneg (by omega)]
  · refine ⟨_, daysBetween_dates ha hb, fun k => ⟨number_sub_eq a b k, ?_⟩⟩
    rw [← number_sub_eq b a k]
    omega
  · have hnum := number_lt hlt
    exact ⟨⟨_, _, daysBetween_dates ha hb, daysBetween_dates ha hc, by omega⟩,
      ⟨_, _, daysBetween_dates hb ha, daysBetween_dates hc ha, by omega⟩⟩

def leapDay : Date := ⟨2024, 2, 29, by decide⟩

def newYear : Date := ⟨2025, 1, 1, valid_newYear 2025⟩

theorem calendar_exact_sample :
    (∃ a : Date, daysToDate 20000 = some (a.year.toNat, a.month, a.day) ∧
      Date.next^[20000] epoch = a ∧ dateToDays a.year a.month a.day = some 20000) ∧
    (∃ n : Nat, dateToDays 2024 2 29 = some (n : Int) ∧ daysToDate n = some (2024, 2, 29)) ∧
    (∃ n, daysBetween (dateText leapDay) (dateText leapDay.next) = some n ∧
      ∀ k : Nat, (n = k ↔ Date.next^[k] leapDay = leapDay.next) ∧
        (n = -k ↔ Date.next^[k] leapDay.next = leapDay)) ∧
    (∃ m n, daysBetween (dateText leapDay) (dateText leapDay.next) = some m ∧
      daysBetween (dateText leapDay) (dateText newYear) = some n ∧ m < n) ∧
    ∃ m n, daysBetween (dateText leapDay.next) (dateText leapDay) = some m ∧
      daysBetween (dateText newYear) (dateText leapDay) = some n ∧ n < m := by
  obtain ⟨hdate, hdays, hapart, hmono⟩ := calendar_exact 20000 leapDay leapDay.next newYear
  obtain ⟨a, ha, hnext, hback⟩ := hdate (by decide)
  exact ⟨⟨a, ha, hnext, hback (by decide)⟩, hdays (by decide) (by decide),
    hapart (by decide) (by decide), hmono (by decide) (by decide) (by decide)
      (lt_def.mpr (by decide))⟩

/-- The second conversion runs out of its 64 bits before the first. -/
theorem dateToDays_overflows : 2^63 + 719468 < 2^64 ∧
    daysToDate (2^63) = some (25252734927768524, 7, 28) ∧
    dateToDays 25252734927768524 7 28 = none := by decide

end PulseNull.Praxis
