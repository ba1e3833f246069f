import PulseNull.Praxis.Dates
import PulseNull.Text.Mentions

/-! The scan of the journal documents for dates. A slice that is out of range or within a character,
and an integer that overflows, is a panic: none. -/
namespace PulseNull.Praxis
open Arith Calendar
open Text (Chars Casing size slice sliceFrom sliceTo find toLowercase trimChars isCharBoundary
  Mentions NoSigma find_lowercase toLowercase_ascii asciiCasing)

/-- The first line of a text and what follows it, `str::lines`. -/
def charLines (line : Chars) : Chars → List Chars
  | [] => if line = [] then [] else [line]
  | c :: text =>
    if c = '\n' then
      (if line.getLast? = some '\r' then line.dropLast else line) :: charLines [] text
    else charLines (line ++ [c]) text

/-- `str::trim_start_matches`; it takes at most as many steps as there are characters. -/
def trimStartMatches (part : Chars) : Nat → Chars → Chars
  | 0, text => text
  | n + 1, text =>
    if part.isPrefixOf text then trimStartMatches part n (text.drop part.length) else text

def afterHashes (hashes line : Chars) : Chars := trimChars (trimStartMatches hashes line.length line)

/-- A date at the start of a text. -/
def dateAt (rest : Chars) : Option (Option Chars) :=
  if size rest < 10 then some none
  else do
    if (← slice 4 5 rest) ≠ ['-'] then return none
    if (← slice 7 8 rest) ≠ ['-'] then return none
    if !(← sliceTo 4 rest).all Char.isDigit then return none
    if !(← slice 5 7 rest).all Char.isDigit then return none
    if !(← slice 8 10 rest).all Char.isDigit then return none
    return some (← sliceTo 10 rest)

def findDateInStr : Chars → Option (Option Chars)
  | [] => some none
  | c :: text =>
    if c.isDigit then do
      match ← dateAt (c :: text) with
      | some date => return some date
      | none => findDateInStr text
    else findDateInStr text

/-- `extract_date_field` -/
def extractDateField (T : Casing) (line field : Chars) : Option (Option Chars) :=
  match find (toLowercase T field) (toLowercase T line) with
  | none => some none
  | some idx => (sliceFrom (idx + size field) line).bind findDateInStr

structure ThoughtEntry where
  title : Chars
  lastTouched : Option Chars
  started : Option Chars
  deriving DecidableEq

structure ThoughtScan where
  entries : List ThoughtEntry
  inActive : Bool
  title : Option Chars
  lastTouched : Option Chars
  started : Option Chars
  deriving DecidableEq

def ThoughtScan.new : ThoughtScan := ⟨[], false, none, none, none⟩

/-- The entry that ends here, if one is open. -/
def ThoughtScan.save (s : ThoughtScan) : ThoughtScan :=
  match s.title with
  | some title => { s with
      entries := s.entries ++ [⟨title, s.lastTouched, s.started⟩]
      title := none
      lastTouched := none
      started := none }
  | none => s

def ThoughtScan.line (T : Casing) (s : ThoughtScan) (line : Chars) : Option ThoughtScan :=
  if "## ".toList.isPrefixOf line then
    some { s.save with
      inActive := (find "active".toList (toLowercase T (afterHashes "## ".toList line))).isSome }
  else if s.inActive && "### ".toList.isPrefixOf line then
    some { s.save with title := some (afterHashes "### ".toList line) }
  else if s.title.isSome then do
    let touched ← extractDateField T line "Last touched".toList
    let started ← extractDateField T line "started".toList
    let capital ← extractDateField T line "Started".toList
    return { s with
      lastTouched := touched.or s.lastTouched
      started := capital.or (started.or s.started) }
  else some s

def parseThoughts (T : Casing) (content : Chars) : Option (List ThoughtEntry) :=
  ((charLines [] content).foldlM (ThoughtScan.line T) .new).map fun s => s.save.entries

structure LogScan where
  count : Nat
  oldest : Option Chars
  newest : Option Chars
  deriving DecidableEq

def LogScan.line (s : LogScan) (line : Chars) : Option LogScan :=
  if "### ".toList.isPrefixOf line then do
    match ← findDateInStr line with
    | some date => return {
        count := s.count + 1
        oldest := if s.oldest.all (date < ·) then some date else s.oldest
        newest := if s.newest.all (· < date) then some date else s.newest }
    | none => return { s with count := s.count + 1 }
  else some s

def countLogEntries (content : Chars) : Option LogScan :=
  (charLines [] content).foldlM LogScan.line ⟨0, none, none⟩

/-! Days of date texts that need not be dates. -/

/-- Any year, month and day of four and two digits give a number of days, but for day 0 of month 3. -/
theorem dateToDays_digits {year month day : Nat} (hy : year < 10000) (hm : month < 100)
    (hd : day < 100) : (month = 3 ∧ day = 0 ∧ dateToDays year month day = none) ∨
      (¬(month = 3 ∧ day = 0) ∧ ∃ n, dateToDays year month day = some n ∧ n.natAbs < 2^40) := by
  have hyear : (if (month : Int) ≤ 2 then subI64 year 1 else some (year : Int)) =
      some (if month ≤ 2 then (year : Int) - 1 else year) := by
    split_ifs
    · exact fitI64_eq (by omega)
    · omega
    · omega
    · rfl
  have hmonth := marchMonth_eq hm
  generalize hY : (if month ≤ 2 then (year : Int) - 1 else year) = y at hyear
  generalize hM : (if 2 < month then month - 3 else month + 9) = mp at hmonth
  have hy0 : -1 ≤ y ∧ y < 10000 := by
    split_ifs at hY <;> omega
  have hmp : mp < 100 := by
    split_ifs at hM <;> omega
  have hzero : mp = 0 ↔ month = 3 := by
    split_ifs at hM <;> omega
  have hyoe : eraYearStart (y % 400).toNat ≤ 146097 := by
    unfold eraYearStart
    omega
  have hmarch := dateToDays_march hyear hmonth hy0.1 (by omega) hmp hd
  by_cases hday : month = 3 ∧ day = 0
  · refine .inl ⟨hday.1, hday.2, ?_⟩
    rw [hmarch, if_pos (by omega)]
  · refine .inr ⟨hday, ?_⟩
    rw [hmarch, if_neg (by omega)]
    refine ⟨_, (bind_some (fitI64_eq (by omega))).trans (fitI64_eq (by omega)), by omega⟩

/-! Dates at the start of a text. -/

/-- The shape `YYYY-MM-DD`, of digits that need not make a date. -/
def DateShape (date : Chars) : Prop := ∃ y m d : Chars, date = y ++ '-' :: (m ++ '-' :: d) ∧
  (y.length = 4 ∧ m.length = 2 ∧ d.length = 2) ∧ ∀ c ∈ y ++ m ++ d, c.isDigit = true

private theorem digit_size {c : Char} (h : c.isDigit = true) : c.utf8Size = 1 := by
  unfold Char.isDigit at h
  simp only [Bool.and_eq_true, decide_eq_true_eq, UInt32.le_iff_toNat_le] at h
  unfold Char.utf8Size
  rw [if_pos]
  rw [UInt32.le_iff_toNat_le]
  exact h.2.trans (by decide)

private theorem digits_size {text : Chars} (h : ∀ c ∈ text, c.isDigit = true) :
    size text = text.length := by
  induction text with
  | nil => rfl
  | cons c text ih =>
    obtain ⟨hc, htext⟩ := List.forall_mem_cons.mp h
    rw [Text.size_cons, digit_size hc, ih htext, List.length_cons, Nat.add_comm]

/-- The slices that the reading of a date takes lie between characters. -/
structure Clear (rest : Chars) : Prop where
  dash : isCharBoundary rest 4 = true ∧ isCharBoundary rest 5 = true
  second : slice 4 5 rest = some ['-'] →
    isCharBoundary rest 7 = true ∧ isCharBoundary rest 8 = true
  stop : slice 4 5 rest = some ['-'] → slice 7 8 rest = some ['-'] →
    (∀ y ∈ sliceTo 4 rest, y.all Char.isDigit = true) →
    (∀ m ∈ slice 5 7 rest, m.all Char.isDigit = true) → isCharBoundary rest 10 = true

theorem size_shape {date : Chars} (h : DateShape date) : size date = 10 := by
  obtain ⟨y, m, d, rfl, ⟨hy, hm, hd⟩, hdigits⟩ := h
  simp only [List.forall_mem_append] at hdigits
  obtain ⟨⟨hdy, hdm⟩, hdd⟩ := hdigits
  have hdash : '-'.utf8Size = 1 := rfl
  rw [Text.size_append, Text.size_cons, Text.size_append, Text.size_cons, digits_size hdy,
    digits_size hdm, digits_size hdd, hy, hm, hd, hdash]

/-- The parts of a date and where they stand. -/
theorem slices_shape {y m d : Chars} (hlen : y.length = 4 ∧ m.length = 2 ∧ d.length = 2)
    (hdy : ∀ c ∈ y, c.isDigit = true) (hdm : ∀ c ∈ m, c.isDigit = true)
    (hdd : ∀ c ∈ d, c.isDigit = true) (tail : Chars) :
    sliceTo 4 (y ++ '-' :: (m ++ '-' :: d) ++ tail) = some y ∧
    slice 5 7 (y ++ '-' :: (m ++ '-' :: d) ++ tail) = some m ∧
    slice 8 10 (y ++ '-' :: (m ++ '-' :: d) ++ tail) = some d := by
  have hsy := (digits_size hdy).trans hlen.1
  have hsm := (digits_size hdm).trans hlen.2.1
  have hsd := (digits_size hdd).trans hlen.2.2
  have hdash : '-'.utf8Size = 1 := rfl
  refine ⟨Text.sliceTo_eq_some.mpr ⟨'-' :: (m ++ '-' :: d) ++ tail, by simp, hsy⟩,
    Text.slice_eq_some.mpr ⟨y ++ ['-'], '-' :: (d ++ tail), by simp, ?_, hsm⟩,
    Text.slice_eq_some.mpr ⟨y ++ '-' :: (m ++ ['-']), tail, by simp, ?_, hsd⟩⟩
  · rw [Text.size_append, size_dash, hsy]
  · rw [Text.size_append, Text.size_cons, Text.size_append, size_dash, hsy, hsm, hdash]

theorem dateAt_shape {date : Chars} (h : DateShape date) (tail : Chars) :
    dateAt (date ++ tail) = some (some date) := by
  have hsize := size_shape h
  obtain ⟨y, m, d, rfl, hlen, hdigits⟩ := h
  simp only [List.forall_mem_append] at hdigits
  obtain ⟨⟨hdy, hdm⟩, hdd⟩ := hdigits
  obtain ⟨hyear, hmonth, hday⟩ := slices_shape hlen hdy hdm hdd tail
  have hsy := (digits_size hdy).trans hlen.1
  have hsm := (digits_size hdm).trans hlen.2.1
  have hdash : '-'.utf8Size = 1 := rfl
  have hone : slice 4 5 (y ++ '-' :: (m ++ '-' :: d) ++ tail) = some ['-'] :=
    Text.slice_eq_some.mpr ⟨y, m ++ '-' :: (d ++ tail), by simp, hsy, size_dash⟩
  have htwo : slice 7 8 (y ++ '-' :: (m ++ '-' :: d) ++ tail) = some ['-'] :=
    Text.slice_eq_some.mpr ⟨y ++ '-' :: m, d ++ tail, by simp,
      by rw [Text.size_append, Text.size_cons, hsy, hsm, hdash], size_dash⟩
  have hwhole : sliceTo 10 (y ++ '-' :: (m ++ '-' :: d) ++ tail) = some (y ++ '-' :: (m ++ '-' :: d)) :=
    Text.sliceTo_eq_some.mpr ⟨tail, rfl, hsize⟩
  have hlong : ¬ size (y ++ '-' :: (m ++ '-' :: d) ++ tail) < 10 := by
    rw [Text.size_append, hsize]
    omega
  unfold dateAt
  rw [if_neg hlong, hone, htwo, hyear, hmonth, hday, hwhole]
  simp only [Option.bind_eq_bind, Option.bind_some, ne_eq, not_true_eq_false, if_false,
    List.all_eq_true.mpr hdy, List.all_eq_true.mpr hdm, List.all_eq_true.mpr hdd, Bool.not_true,
    Bool.false_eq_true]
  rfl

private theorem digits_length {text : Chars} {n : Nat} (h : text.all Char.isDigit = true)
    (hn : size text = n) : text.length = n := by
  rw [← digits_size (List.all_eq_true.mp h), hn]

/-- The parts that were read make up a date. -/
theorem shape_of_slices {rest y m d : Chars} (hdash : slice 4 5 rest = some ['-'])
    (hdash' : slice 7 8 rest = some ['-']) (hy : sliceTo 4 rest = some y)
    (hm : slice 5 7 rest = some m) (hd : slice 8 10 rest = some d)
    (hall : (y.all Char.isDigit = true ∧ m.all Char.isDigit = true) ∧ d.all Char.isDigit = true) :
    ∃ tail, rest = (y ++ '-' :: (m ++ '-' :: d)) ++ tail ∧ DateShape (y ++ '-' :: (m ++ '-' :: d)) := by
  obtain ⟨r, hr, hsy⟩ := Text.sliceTo_eq_some.mp hy
  have hfour : sliceFrom 4 rest = some r := Text.sliceFrom_eq_some.mpr ⟨y, hr, hsy⟩
  obtain ⟨r₅, h₄, h₅⟩ := Text.slice_next (by decide) hdash
  obtain ⟨r₇, h₅', h₇⟩ := Text.slice_next (by decide) hm
  obtain ⟨r₈, h₇', h₈⟩ := Text.slice_next (by decide) hdash'
  obtain ⟨tail, h₈', -⟩ := Text.slice_next (by decide) hd
  obtain rfl : r = ['-'] ++ r₅ := Option.some.inj (hfour.symm.trans h₄)
  obtain rfl : r₅ = m ++ r₇ := Option.some.inj (h₅.symm.trans h₅')
  obtain rfl : r₇ = ['-'] ++ r₈ := Option.some.inj (h₇.symm.trans h₇')
  obtain rfl : r₈ = d ++ tail := Option.some.inj (h₈.symm.trans h₈')
  obtain ⟨_, _, _, _, hsm⟩ := Text.slice_eq_some.mp hm
  obtain ⟨_, _, _, _, hsd⟩ := Text.slice_eq_some.mp hd
  refine ⟨tail, by rw [hr]; simp, y, m, d, rfl, ⟨digits_length hall.1.1 hsy, digits_length hall.1.2 hsm,
    digits_length hall.2 hsd⟩, ?_⟩
  simp only [List.forall_mem_append]
  exact ⟨⟨List.all_eq_true.mp hall.1.1, List.all_eq_true.mp hall.1.2⟩, List.all_eq_true.mp hall.2⟩

/-- The reading of a date panics where a slice does not lie between characters, and gives nothing but
dates. -/
theorem dateAt_cases (rest : Chars) :
    (10 ≤ size rest ∧ ¬ Clear rest ∧ dateAt rest = none) ∨
    ((10 ≤ size rest → Clear rest) ∧ ∃ r, dateAt rest = some r ∧
      ∀ date ∈ r, ∃ tail, rest = date ++ tail ∧ DateShape date) := by
  by_cases hlong : size rest < 10
  · exact .inr ⟨fun h => absurd hlong (not_lt.mpr h), none, if_pos hlong, by simp⟩
  unfold dateAt
  rw [if_neg hlong]
  have h45 := Text.slice_isSome (show 4 ≤ 5 by decide) rest
  have h78 := Text.slice_isSome (show 7 ≤ 8 by decide) rest
  have h57 := Text.slice_isSome (show 5 ≤ 7 by decide) rest
  have h80 := Text.slice_isSome (show 8 ≤ 10 by decide) rest
  have h4 := Text.sliceTo_isSome 4 rest
  have h10 := Text.sliceTo_isSome 10 rest
  cases hdash : slice 4 5 rest with
  | none =>
    refine .inl ⟨not_lt.mp hlong, fun h => ?_, rfl⟩
    simp [hdash, h.dash] at h45
  | some one =>
    rw [hdash, Option.isSome_some, eq_self_iff_true, true_iff] at h45
    by_cases hone : one = ['-']
    swap
    · refine .inr ⟨fun _ => ⟨h45, fun h => ?_, fun h => ?_⟩, none, by simp [hone], by simp⟩
      · exact absurd (Option.some.inj (hdash.symm.trans h)) hone
      · exact absurd (Option.some.inj (hdash.symm.trans h)) hone
    subst hone
    cases hdash' : slice 7 8 rest with
    | none =>
      refine .inl ⟨not_lt.mp hlong, fun h => ?_, by simp⟩
      simp [hdash', h.second hdash] at h78
    | some two =>
      rw [hdash', Option.isSome_some, eq_self_iff_true, true_iff] at h78
      by_cases htwo : two = ['-']
      swap
      · refine .inr ⟨fun _ => ⟨h45, fun _ => h78, fun _ h => ?_⟩, none, by simp [htwo], by simp⟩
        exact absurd (Option.some.inj (hdash'.symm.trans h)) htwo
      subst htwo
      obtain ⟨y, hy⟩ := Option.isSome_iff_exists.mp (h4.mpr h45.1)
      obtain ⟨m, hm⟩ := Option.isSome_iff_exists.mp (h57.mpr ⟨h45.2, h78.1⟩)
      rw [hy, hm]
      by_cases hdigits : y.all Char.isDigit = true ∧ m.all Char.isDigit = true
      swap
      · refine .inr ⟨fun _ => ⟨h45, fun _ => h78, fun _ _ hyd hmd => ?_⟩, none, ?_, by simp⟩
        · exact absurd ⟨hyd y hy, hmd m hm⟩ hdigits
        · simp only [Option.bind_eq_bind, Option.bind_some, ne_eq, not_true_eq_false, if_false]
          cases hyd : y.all Char.isDigit with
          | false =>
            simp only [Bool.not_false, if_true]
            rfl
          | true =>
            have hmd : m.all Char.isDigit = false :=
              Bool.eq_false_iff.mpr fun hmd => hdigits ⟨hyd, hmd⟩
            simp only [hmd, Bool.not_false, Bool.not_true, Bool.false_eq_true, if_true, if_false]
            rfl
      have hclear (h : isCharBoundary rest 10 = true) : Clear rest :=
        ⟨h45, fun _ => h78, fun _ _ _ _ => h⟩
      simp only [Option.bind_eq_bind, Option.bind_some, ne_eq, not_true_eq_false, if_false, hdigits,
        Bool.not_true, Bool.false_eq_true]
      cases hday : slice 8 10 rest with
      | none =>
        refine .inl ⟨not_lt.mp hlong, fun h => ?_, rfl⟩
        have hstop := h.stop hdash hdash'
          (fun z hz => Option.some.inj (hy.symm.trans hz) ▸ hdigits.1)
          (fun z hz => Option.some.inj (hm.symm.trans hz) ▸ hdigits.2)
        simp [hday, h78.2, hstop] at h80
      | some d =>
        rw [hday, Option.isSome_some, eq_self_iff_true, true_iff] at h80
        cases hdd : d.all Char.isDigit with
        | false =>
          refine .inr ⟨fun _ => hclear h80.2, none, ?_, by simp⟩
          simp only [Option.bind_some, hdd, Bool.not_false, if_true]
          rfl
        | true =>
          obtain ⟨tail, hrest, hshape⟩ := shape_of_slices hdash hdash' hy hm hday ⟨hdigits, hdd⟩
          obtain ⟨w, hw⟩ := Option.isSome_iff_exists.mp (h10.mpr h80.2)
          refine .inr ⟨fun _ => hclear h80.2, some w, ?_, fun date hdate => ?_⟩
          · simp only [Option.bind_some, hdd, hw, Bool.not_true, Bool.false_eq_true, if_false]
            rfl
          · obtain rfl : w = date := Option.some.inj hdate
            have hten : sliceTo 10 rest = some (y ++ '-' :: (m ++ '-' :: d)) :=
              Text.sliceTo_eq_some.mpr ⟨tail, hrest, size_shape hshape⟩
            obtain rfl : y ++ '-' :: (m ++ '-' :: d) = w := Option.some.inj (hten.symm.trans hw)
            exact ⟨tail, hrest, hshape⟩

/-! What a date text says of days. -/

/-- Days to a date of four digits can be counted. -/
def CountsDays (date : Chars) : Prop :=
  ∀ today : Date, FourDigits today → (daysBetween date (dateText today)).isSome = true

private theorem digit_bounds {c : Char} (h : c.isDigit = true) : 48 ≤ c.toNat ∧ c.toNat ≤ 57 := by
  unfold Char.isDigit at h
  simp only [Bool.and_eq_true, decide_eq_true_eq, UInt32.le_iff_toNat_le] at h
  exact h

theorem digitsNumber_lt {digits : Chars} (h : ∀ c ∈ digits, c.isDigit = true) :
    Text.digitsNumber digits < 10 ^ digits.length := by
  induction digits using List.reverseRecOn with
  | nil => exact Nat.zero_lt_one
  | append_singleton digits c ih =>
    have hc := digit_bounds (h c (by simp))
    have hinit := ih fun d hd => h d (List.mem_append_left [c] hd)
    unfold Text.digitsNumber at *
    rw [List.foldl_append, List.length_append, List.length_singleton, Nat.pow_succ]
    simp only [List.foldl_cons, List.foldl_nil]
    omega

private theorem eq_of_toNat {c : Char} {d : Char} (h : c.toNat = d.toNat) : c = d := Char.toNat_inj.mp h

private theorem two_digits {ds : Chars} (hlen : ds.length = 2) (h : ∀ c ∈ ds, c.isDigit = true)
    (a b : Char) (ha : a.isDigit = true) (hb : b.isDigit = true) :
    Text.digitsNumber ds = Text.digitsNumber [a, b] ↔ ds = [a, b] := by
  obtain ⟨c, d, rfl⟩ := List.length_eq_two.mp hlen
  have hc := digit_bounds (h c (by simp))
  have hd := digit_bounds (h d (by simp))
  have ha := digit_bounds ha
  have hb := digit_bounds hb
  simp only [Text.digitsNumber, List.foldl_cons, List.foldl_nil, List.cons.injEq, and_true]
  rw [← Char.toNat_inj, ← Char.toNat_inj]
  omega

def marchZero : Chars := "-03-00".toList

theorem parseDateToDays_shape {y m d : Chars} (hlen : y.length = 4 ∧ m.length = 2 ∧ d.length = 2)
    (hdigits : ∀ c ∈ y ++ m ++ d, c.isDigit = true) :
    parseDateToDays (y ++ '-' :: (m ++ '-' :: d)) =
      (dateToDays (Text.digitsNumber y) (Text.digitsNumber m) (Text.digitsNumber d)).map some := by
  have hshape : DateShape (y ++ '-' :: (m ++ '-' :: d)) := ⟨y, m, d, rfl, hlen, hdigits⟩
  have hsize := size_shape hshape
  simp only [List.forall_mem_append] at hdigits
  obtain ⟨⟨hdy, hdm⟩, hdd⟩ := hdigits
  obtain ⟨hyear, hmonth, hday⟩ := slices_shape hlen hdy hdm hdd []
  rw [List.append_nil] at hyear hmonth hday
  have hpy : Text.parseI64 y = some (Text.digitsNumber y : Int) :=
    Text.parseI64_digits (by rintro rfl; cases hlen.1) hdy ((digitsNumber_lt hdy).trans (by rw [hlen.1]; decide))
  have hpm : Text.parseI64 m = some (Text.digitsNumber m : Int) :=
    Text.parseI64_digits (by rintro rfl; cases hlen.2.1) hdm ((digitsNumber_lt hdm).trans (by rw [hlen.2.1]; decide))
  have hpd : Text.parseI64 d = some (Text.digitsNumber d : Int) :=
    Text.parseI64_digits (by rintro rfl; cases hlen.2.2) hdd ((digitsNumber_lt hdd).trans (by rw [hlen.2.2]; decide))
  unfold parseDateToDays
  rw [hsize]
  simp only [lt_irrefl, if_false, hyear, hmonth, hday, Option.bind_eq_bind, Option.bind_some, hpy, hpm, hpd]
  cases dateToDays (Text.digitsNumber y) (Text.digitsNumber m) (Text.digitsNumber d) <;> rfl

/-- Any date text counts days but those of day 00 of month 03. -/
theorem countsDays_iff {date : Chars} (h : DateShape date) : CountsDays date ↔ ¬ marchZero <:+ date := by
  obtain ⟨y, m, d, rfl, hlen, hdigits⟩ := h
  have hparse := parseDateToDays_shape hlen hdigits
  simp only [List.forall_mem_append] at hdigits
  obtain ⟨⟨hdy, hdm⟩, hdd⟩ := hdigits
  have hy := digitsNumber_lt hdy
  have hm := digitsNumber_lt hdm
  have hd := digitsNumber_lt hdd
  rw [hlen.1] at hy
  rw [hlen.2.1] at hm
  rw [hlen.2.2] at hd
  have hsuffix : marchZero <:+ y ++ '-' :: (m ++ '-' :: d) ↔
      Text.digitsNumber m = 3 ∧ Text.digitsNumber d = 0 := by
    have hmonth := two_digits hlen.2.1 hdm '0' '3' (by decide) (by decide)
    have hday := two_digits hlen.2.2 hdd '0' '0' (by decide) (by decide)
    rw [show Text.digitsNumber ['0', '3'] = 3 from rfl] at hmonth
    rw [show Text.digitsNumber ['0', '0'] = 0 from rfl] at hday
    rw [hmonth, hday]
    constructor
    · rintro ⟨t, ht⟩
      obtain ⟨-, htail⟩ := List.append_inj' ht (by simp [marchZero, hlen])
      obtain ⟨c, c', rfl⟩ := List.length_eq_two.mp hlen.2.1
      obtain ⟨e, e', rfl⟩ := List.length_eq_two.mp hlen.2.2
      rw [show marchZero = ['-', '0', '3', '-', '0', '0'] from rfl] at htail
      simp only [List.cons_append, List.nil_append, List.cons.injEq, and_true, true_and] at htail
      obtain ⟨rfl, rfl, rfl, rfl⟩ := htail
      exact ⟨rfl, rfl⟩
    · rintro ⟨rfl, rfl⟩
      exact ⟨y, rfl⟩
  rw [hsuffix]
  rcases dateToDays_digits hy hm hd with ⟨hmonth, hday, hnone⟩ | ⟨hok, n, hn, hbound⟩
  · refine iff_of_false (fun h => ?_) fun h => h ⟨hmonth, hday⟩
    have hepoch := h epoch (by decide)
    unfold daysBetween at hepoch
    rw [hparse, hnone] at hepoch
    cases hepoch
  · refine iff_of_true (fun today htoday => ?_) hok
    have htext := parseDateToDays_text htoday.1 htoday.2 []
    rw [List.append_nil] at htext
    have hnum := number_bounds today
    have hfirst := daysBeforeYear_mono htoday.1
    have hmono := daysBeforeYear_mono (show today.year + 1 ≤ 10000 by have := htoday.2; omega)
    have hzero : daysBeforeYear 0 = 0 := by decide
    have hlast : daysBeforeYear 10000 = 3652425 := by decide
    unfold daysBetween
    rw [hparse, hn, htext]
    show (subI64 (today.number - 719528) n).isSome = true
    rw [subI64, fitI64_eq (by omega)]
    rfl

/-! Dates in a text. -/

/-- Up to the first date, each digit has clear surroundings where ten bytes are left; and the first
date is not day 00 of month 03. -/
def Legible : Chars → Prop
  | [] => True
  | c :: text =>
    if c.isDigit then
      (10 ≤ size (c :: text) → Clear (c :: text)) ∧
      ((∃ date tail, c :: text = date ++ tail ∧ DateShape date ∧ ¬ marchZero <:+ date) ∨
        (¬ ∃ date tail, c :: text = date ++ tail ∧ DateShape date) ∧ Legible text)
    else Legible text

/-- The text is read to the end or to a date, which is in it and counts days. -/
def Reads (text : Chars) : Prop :=
  ∃ r, findDateInStr text = some r ∧ ∀ date ∈ r, date <:+: text ∧ CountsDays date

theorem shape_unique {date date' tail tail' : Chars} (h : DateShape date) (h' : DateShape date')
    (he : date ++ tail = date' ++ tail') : date = date' := by
  have hpre := Text.isPrefix_of_size ⟨tail, rfl⟩ ⟨tail', he.symm⟩
    (by rw [size_shape h, size_shape h'] : size date ≤ size date')
  have hpre' := Text.isPrefix_of_size ⟨tail', he.symm⟩ ⟨tail, rfl⟩
    (by rw [size_shape h, size_shape h'] : size date' ≤ size date)
  exact hpre.eq_of_length_le hpre'.length_le

/-- What is found is a date and stands in the text. -/
theorem findDateInStr_found {text : Chars} {r : Option Chars} (h : findDateInStr text = some r) :
    ∀ date ∈ r, date <:+: text ∧ DateShape date := by
  induction text with
  | nil =>
    obtain rfl := Option.some.inj h
    simp
  | cons c text ih =>
    have hskip (h : findDateInStr text = some r) : ∀ date ∈ r, date <:+: c :: text ∧ DateShape date :=
      fun date hd => ⟨(ih h date hd).1.trans (List.suffix_cons c text).isInfix, (ih h date hd).2⟩
    unfold findDateInStr at h
    split at h
    · rcases dateAt_cases (c :: text) with ⟨-, -, hnone⟩ | ⟨-, r', hr', hdate⟩
      · rw [hnone] at h
        cases h
      · rw [hr'] at h
        cases r' with
        | none => exact hskip h
        | some date =>
          obtain ⟨tail, htail, hshape⟩ := hdate date rfl
          obtain rfl : some date = r := Option.some.inj h
          rintro _ ⟨rfl⟩
          exact ⟨⟨[], tail, htail.symm⟩, hshape⟩
    · exact hskip h

theorem reads_iff (text : Chars) : Reads text ↔ Legible text := by
  have hreads (text : Chars) : Reads text ↔
      ∃ r, findDateInStr text = some r ∧ ∀ date ∈ r, CountsDays date := by
    constructor
    · rintro ⟨r, hr, hdate⟩
      exact ⟨r, hr, fun date hd => (hdate date hd).2⟩
    · rintro ⟨r, hr, hdate⟩
      exact ⟨r, hr, fun date hd => ⟨(findDateInStr_found hr date hd).1, hdate date hd⟩⟩
  induction text with
  | nil => exact iff_of_true ⟨none, rfl, by simp⟩ trivial
  | cons c text ih =>
    rw [hreads] at ih ⊢
    unfold findDateInStr Legible
    split
    · rcases dateAt_cases (c :: text) with ⟨hlong, hclear, hnone⟩ | ⟨hclear, r, hr, hdate⟩
      · refine iff_of_false ?_ fun h => hclear (h.1 hlong)
        rw [hnone]
        rintro ⟨r, h, -⟩
        cases h
      · rw [hr]
        cases r with
        | some date =>
          obtain ⟨tail, htail, hshape⟩ := hdate date rfl
          constructor
          · rintro ⟨r, h, hall⟩
            obtain rfl : some date = r := Option.some.inj h
            exact ⟨hclear, .inl ⟨date, tail, htail, hshape, (countsDays_iff hshape).mp (hall date rfl)⟩⟩
          · rintro ⟨-, ⟨date', tail', htail', hshape', hmarch⟩ | ⟨hno, -⟩⟩
            · obtain rfl : date = date' := shape_unique hshape hshape' (htail.symm.trans htail')
              refine ⟨some date, rfl, ?_⟩
              rintro _ ⟨rfl⟩
              exact (countsDays_iff hshape).mpr hmarch
            · exact absurd ⟨date, tail, htail, hshape⟩ hno
        | none =>
          have hno : ¬ ∃ date tail, c :: text = date ++ tail ∧ DateShape date := by
            rintro ⟨date, tail, htail, hshape⟩
            have hfound := dateAt_shape hshape tail
            rw [← htail, hr] at hfound
            cases hfound
          refine ih.trans ?_
          constructor
          · intro h
            exact ⟨hclear, .inr ⟨hno, h⟩⟩
          · rintro ⟨-, ⟨date, tail, htail, hshape, -⟩ | ⟨-, h⟩⟩
            · exact absurd ⟨date, tail, htail, hshape⟩ hno
            · exact h
    · exact ih

/-! Dates after a field. -/

variable {T : Casing}

def dateFields : List Chars := ["Last touched".toList, "started".toList, "Started".toList]

/-- Up to the end of the first mention of the field the line is as long as its lower case, and what
follows is legible. -/
def FieldClear (T : Casing) (line field : Chars) : Prop :=
  ∀ a b, line = a ++ b → Mentions T (toLowercase T field) a →
    size (toLowercase T a) = size a ∧ Legible b

/-- The index found in the lower case stands for the end of the first mention in the line, and what
follows is read to the end or to a date of the line that counts days. -/
structure FieldReads (T : Casing) (line field : Chars) : Prop where
  place : ∀ idx, find (toLowercase T field) (toLowercase T line) = some idx →
    ∃ a b, line = a ++ b ∧ Mentions T (toLowercase T field) a ∧ size a = idx + size field
  read : ∃ r, extractDateField T line field = some r ∧ ∀ date ∈ r, date <:+: line ∧ CountsDays date

private theorem dateField_spec {field : Chars} (h : field ∈ dateFields) :
    NoSigma (toLowercase T field) ∧ (toLowercase T field).getLast? = some 'd' ∧
      size (toLowercase T field) = size field := by
  have hall : dateFields.all (fun field => (field.all fun c => c.toNat < 128) &&
      (field.map Char.toLower).all (fun c => c ≠ 'σ' && c ≠ 'ς') &&
      ((field.map Char.toLower).getLast? = some 'd') &&
      (size (field.map Char.toLower) = size field)) = true := by decide
  have hfield := List.all_eq_true.mp hall field h
  simp only [Bool.and_eq_true, decide_eq_true_eq] at hfield
  obtain ⟨⟨⟨hascii, hsigma⟩, hlast⟩, hsize⟩ := hfield
  rw [toLowercase_ascii hascii]
  refine ⟨fun c hc => ?_, hlast, hsize⟩
  have hc := List.all_eq_true.mp hsigma c hc
  simpa using hc

theorem fieldReads_iff {line field : Chars} (hf : field ∈ dateFields) :
    FieldReads T line field ↔ FieldClear T line field := by
  obtain ⟨hsigma, hlast, hsize⟩ := dateField_spec (T := T) hf
  have hfind {n : Nat} : find (toLowercase T field) (toLowercase T line) = some n ↔
      ∃ a b, line = a ++ b ∧ Mentions T (toLowercase T field) a ∧
        n + size (toLowercase T field) = size (toLowercase T a) :=
    find_lowercase hsigma hlast (by decide)
  cases h : find (toLowercase T field) (toLowercase T line) with
  | none =>
    have hread : extractDateField T line field = some none := by
      rw [extractDateField, h]
    refine iff_of_true ⟨by simp [h], none, hread, by simp⟩ ?_
    intro a b hab hm
    have hsome := hfind.mpr ⟨a, b, hab, hm, Nat.sub_add_cancel hm.size_le⟩
    rw [h] at hsome
    cases hsome
  | some idx =>
    obtain ⟨a, b, rfl, hm, hidx⟩ := hfind.mp h
    have hread (hlen : idx + size field = size a) :
        extractDateField T (a ++ b) field = findDateInStr b := by
      rw [extractDateField, h]
      dsimp only
      rw [hlen, Text.sliceFrom_append]
      rfl
    have hafter : Reads b ↔ ∃ r, findDateInStr b = some r ∧ ∀ date ∈ r, date <:+: a ++ b ∧ CountsDays date := by
      constructor
      · rintro ⟨r, hr, hdate⟩
        exact ⟨r, hr, fun date hd => ⟨(hdate date hd).1.trans (List.suffix_append a b).isInfix,
          (hdate date hd).2⟩⟩
      · rintro ⟨r, hr, hdate⟩
        exact ⟨r, hr, fun date hd => ⟨(findDateInStr_found hr date hd).1, (hdate date hd).2⟩⟩
    constructor
    · rintro ⟨hplace, r, hr, hdate⟩ a' b' hab hm'
      obtain rfl : a = a' := hm.unique hm' ⟨b, rfl⟩ ⟨b', hab.symm⟩
      obtain rfl : b = b' := List.append_cancel_left hab
      obtain ⟨a₂, b₂, hab₂, hm₂, hlen⟩ := hplace idx h
      obtain rfl : a = a₂ := hm.unique hm₂ ⟨b, rfl⟩ ⟨b₂, hab₂.symm⟩
      refine ⟨by omega, (reads_iff b).mp (hafter.mpr ⟨r, ?_, hdate⟩)⟩
      rw [← hread hlen.symm, hr]
    · intro hclear
      obtain ⟨hlen, hlegible⟩ := hclear a b rfl hm
      obtain ⟨r, hr, hdate⟩ := hafter.mp ((reads_iff b).mpr hlegible)
      refine ⟨fun n hn => ⟨a, b, rfl, hm, ?_⟩, r, ?_, hdate⟩
      · obtain rfl : idx = n := Option.some.inj (h.symm.trans hn)
        omega
      · rw [hread (by omega), hr]

/-! The whole scan. -/

/-- The lines searched for fields: those of an open thought. -/
def fieldLines (T : Casing) : Bool → Bool → List Chars → List Chars
  | _, _, [] => []
  | active, opened, line :: lines =>
    if "## ".toList.isPrefixOf line then
      fieldLines T (find "active".toList (toLowercase T (afterHashes "## ".toList line))).isSome false lines
    else if active && "### ".toList.isPrefixOf line then fieldLines T active true lines
    else if opened then line :: fieldLines T active opened lines
    else fieldLines T active opened lines

/-- The headings of the log. -/
def logHeads (content : Chars) : List Chars :=
  (charLines [] content).filter fun line => "### ".toList.isPrefixOf line

/-- A date that stands in a line of the text and counts days. -/
def Found (content date : Chars) : Prop :=
  (∃ line ∈ charLines [] content, date <:+: line) ∧ CountsDays date

/-- The scan of both documents gives results, no call in it fails, and all dates are found in lines. -/
structure ScanSafe (T : Casing) (thoughts log : Chars) : Prop where
  entries : ∃ entries, parseThoughts T thoughts = some entries ∧ ∀ e ∈ entries,
    (∀ date ∈ e.lastTouched, Found thoughts date) ∧ ∀ date ∈ e.started, Found thoughts date
  fields : ∀ line ∈ fieldLines T false false (charLines [] thoughts), ∀ field ∈ dateFields,
    FieldReads T line field
  counted : ∃ s, countLogEntries log = some s ∧
    (∀ date ∈ s.oldest, Found log date) ∧ ∀ date ∈ s.newest, Found log date
  heads : ∀ line ∈ logHeads log, Reads line

structure ScanClear (T : Casing) (thoughts log : Chars) : Prop where
  fields : ∀ line ∈ fieldLines T false false (charLines [] thoughts), ∀ field ∈ dateFields,
    FieldClear T line field
  heads : ∀ line ∈ logHeads log, Legible line

variable {good : Chars → Prop}

/-- All dates of a scan are good. -/
structure ThoughtScan.All (good : Chars → Prop) (s : ThoughtScan) : Prop where
  entries : ∀ e ∈ s.entries, (∀ date ∈ e.lastTouched, good date) ∧ ∀ date ∈ e.started, good date
  lastTouched : ∀ date ∈ s.lastTouched, good date
  started : ∀ date ∈ s.started, good date

theorem ThoughtScan.All.save {s : ThoughtScan} (h : s.All good) : s.save.All good := by
  unfold ThoughtScan.save
  split
  · refine ⟨fun e he => ?_, by simp, by simp⟩
    rcases List.mem_append.mp he with he | he
    · exact h.entries e he
    · rw [List.mem_singleton.mp he]
      exact ⟨h.lastTouched, h.started⟩
  · exact h

theorem save_title (s : ThoughtScan) : s.save.title = none := by
  unfold ThoughtScan.save
  split
  · rfl
  · next h => exact h

theorem save_inActive (s : ThoughtScan) : s.save.inActive = s.inActive := by
  unfold ThoughtScan.save
  split <;> rfl

private theorem or_all {r : Option Chars} {o : Option Chars} (hr : ∀ date ∈ r, good date)
    (ho : ∀ date ∈ o, good date) : ∀ date ∈ r.or o, good date := by
  cases r with
  | none => exact ho
  | some date => exact hr

theorem foldlM_thoughts {lines : List Chars} {s : ThoughtScan} (h : s.All good)
    (hf : ∀ line ∈ fieldLines T s.inActive s.title.isSome lines, ∀ field ∈ dateFields,
      ∃ r, extractDateField T line field = some r ∧ ∀ date ∈ r, good date) :
    ∃ s', lines.foldlM (ThoughtScan.line T) s = some s' ∧ s'.All good := by
  induction lines generalizing s with
  | nil => exact ⟨s, rfl, h⟩
  | cons line lines ih =>
    rw [List.foldlM_cons]
    unfold fieldLines at hf
    unfold ThoughtScan.line
    split_ifs at hf ⊢ with hsection hhead hopen
    · exact ih ⟨h.save.entries, h.save.lastTouched, h.save.started⟩ (by simpa [save_title] using hf)
    · exact ih ⟨h.save.entries, h.save.lastTouched, h.save.started⟩ (by simpa [save_inActive] using hf)
    · obtain ⟨hline, hlines⟩ := List.forall_mem_cons.mp hf
      obtain ⟨touched, ht, htg⟩ := hline "Last touched".toList (by decide)
      obtain ⟨started, hs, hsg⟩ := hline "started".toList (by decide)
      obtain ⟨capital, hc, hcg⟩ := hline "Started".toList (by decide)
      rw [ht, hs, hc]
      exact ih ⟨h.entries, or_all htg h.lastTouched, or_all hcg (or_all hsg h.started)⟩ hlines
    · exact ih h hf

theorem mem_fieldLines {active opened : Bool} {lines : List Chars} {line : Chars}
    (h : line ∈ fieldLines T active opened lines) : line ∈ lines := by
  induction lines generalizing active opened with
  | nil => exact h
  | cons l lines ih =>
    unfold fieldLines at h
    split_ifs at h
    · exact List.mem_cons_of_mem l (ih h)
    · exact List.mem_cons_of_mem l (ih h)
    · rcases List.mem_cons.mp h with rfl | h
      · exact List.mem_cons_self
      · exact List.mem_cons_of_mem l (ih h)
    · exact List.mem_cons_of_mem l (ih h)

theorem foldlM_log {lines : List Chars} {s : LogScan} (ho : ∀ date ∈ s.oldest, good date)
    (hn : ∀ date ∈ s.newest, good date)
    (hf : ∀ line ∈ lines, "### ".toList.isPrefixOf line = true →
      ∃ r, findDateInStr line = some r ∧ ∀ date ∈ r, good date) :
    ∃ s', lines.foldlM LogScan.line s = some s' ∧
      (∀ date ∈ s'.oldest, good date) ∧ ∀ date ∈ s'.newest, good date := by
  induction lines generalizing s with
  | nil => exact ⟨s, rfl, ho, hn⟩
  | cons line lines ih =>
    obtain ⟨hline, hlines⟩ := List.forall_mem_cons.mp hf
    rw [List.foldlM_cons]
    unfold LogScan.line
    split_ifs with hhead
    · obtain ⟨r, hr, hgood⟩ := hline hhead
      rw [hr]
      cases r with
      | none => exact ih ho hn hlines
      | some date =>
        refine ih ?_ ?_ hlines
        · dsimp only
          split_ifs
          · exact hgood
          · exact ho
        · dsimp only
          split_ifs
          · exact hgood
          · exact hn
    · exact ih ho hn hlines

/-- The scan is safe exactly on clear documents. -/
theorem scan_safe_iff (T : Casing) (thoughts log : Chars) :
    ScanSafe T thoughts log ↔ ScanClear T thoughts log := by
  constructor
  · intro h
    exact ⟨fun line hl field hf => (fieldReads_iff hf).mp (h.fields line hl field hf),
      fun line hl => (reads_iff line).mp (h.heads line hl)⟩
  · intro h
    have hfields : ∀ line ∈ fieldLines T false false (charLines [] thoughts), ∀ field ∈ dateFields,
        FieldReads T line field :=
      fun line hl field hf => (fieldReads_iff hf).mpr (h.fields line hl field hf)
    have hheads : ∀ line ∈ logHeads log, Reads line :=
      fun line hl => (reads_iff line).mpr (h.heads line hl)
    refine ⟨?_, hfields, ?_, hheads⟩
    · have hnew : ThoughtScan.new.All (Found thoughts) :=
        ⟨by simp [ThoughtScan.new], by simp [ThoughtScan.new], by simp [ThoughtScan.new]⟩
      obtain ⟨s, hs, hall⟩ := foldlM_thoughts hnew fun line hl field hf => by
        obtain ⟨r, hr, hdate⟩ := (hfields line hl field hf).read
        exact ⟨r, hr, fun date hd => ⟨⟨line, mem_fieldLines hl, (hdate date hd).1⟩, (hdate date hd).2⟩⟩
      exact ⟨s.save.entries, by rw [parseThoughts, hs]; rfl, hall.save.entries⟩
    · have hlines : ∀ line ∈ charLines [] log, "### ".toList.isPrefixOf line = true →
          ∃ r, findDateInStr line = some r ∧ ∀ date ∈ r, Found log date := by
        intro line hl hhead
        obtain ⟨r, hr, hdate⟩ := hheads line (List.mem_filter.mpr ⟨hl, hhead⟩)
        exact ⟨r, hr, fun date hd => ⟨⟨line, hl, (hdate date hd).1⟩, (hdate date hd).2⟩⟩
      exact foldlM_log (by simp) (by simp) hlines

/-- A slice that starts past the end, one within a character, and a day before the first of March. -/
theorem scan_panics :
    parseThoughts asciiCasing "## Active\n### Sea\nİ started".toList = none ∧
    countLogEntries "### 12 días y más".toList = none ∧
    findDateInStr "### 2026-03-00".toList = some (some "2026-03-00".toList) ∧
    daysBetween "2026-03-00".toList "2026-03-01".toList = none ∧
    ¬ ScanSafe asciiCasing "## Active\n### Sea\nİ started".toList "### 12 días y más".toList := by
  have hthoughts : parseThoughts asciiCasing "## Active\n### Sea\nİ started".toList = none := by decide
  refine ⟨hthoughts, by decide, by decide, by decide, fun h => ?_⟩
  obtain ⟨entries, hentries, -⟩ := h.entries
  rw [hthoughts] at hentries
  cases hentries

end PulseNull.Praxis
