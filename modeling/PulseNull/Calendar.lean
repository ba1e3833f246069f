import Mathlib

/-! The proleptic Gregorian calendar: valid dates, the day after a date, and the number of a date. -/
namespace PulseNull.Calendar

def Leap (y : Int) : Prop := y % 4 = 0 ∧ (y % 100 ≠ 0 ∨ y % 400 = 0)

instance : DecidablePred Leap := fun y =>
  inferInstanceAs (Decidable (y % 4 = 0 ∧ (y % 100 ≠ 0 ∨ y % 400 = 0)))

def monthLength (y : Int) (m : Nat) : Nat :=
  if m = 2 then if Leap y then 29 else 28
  else if m = 4 ∨ m = 6 ∨ m = 9 ∨ m = 11 then 30 else 31

def Valid (y : Int) (m d : Nat) : Prop := (1 ≤ m ∧ m ≤ 12) ∧ 1 ≤ d ∧ d ≤ monthLength y m

instance (y : Int) (m d : Nat) : Decidable (Valid y m d) :=
  inferInstanceAs (Decidable ((1 ≤ m ∧ m ≤ 12) ∧ 1 ≤ d ∧ d ≤ monthLength y m))

@[ext] structure Date where
  year : Int
  month : Nat
  day : Nat
  valid : Valid year month day
  deriving DecidableEq

theorem monthLength_pos (y : Int) (m : Nat) : 1 ≤ monthLength y m := by
  unfold monthLength
  split_ifs <;> decide

theorem monthLength_le (y : Int) (m : Nat) : monthLength y m ≤ 31 := by
  unfold monthLength
  split_ifs <;> decide

theorem Valid.nextDay {y : Int} {m d : Nat} (h : Valid y m d) (hd : d < monthLength y m) :
    Valid y m (d + 1) := ⟨h.1, Nat.le_add_left 1 d, hd⟩

theorem valid_nextMonth (y : Int) {m : Nat} (hm : m < 12) : Valid y (m + 1) 1 :=
  ⟨⟨Nat.le_add_left 1 m, hm⟩, le_rfl, monthLength_pos y (m + 1)⟩

theorem valid_newYear (y : Int) : Valid y 1 1 := ⟨by decide, le_rfl, monthLength_pos y 1⟩

/-- The day after. -/
def Date.next (a : Date) : Date :=
  if hd : a.day < monthLength a.year a.month then ⟨a.year, a.month, a.day + 1, a.valid.nextDay hd⟩
  else if hm : a.month < 12 then ⟨a.year, a.month + 1, 1, valid_nextMonth a.year hm⟩
  else ⟨a.year + 1, 1, 1, valid_newYear (a.year + 1)⟩

instance : LT Date :=
  ⟨fun a b => a.year < b.year ∨ a.year = b.year ∧
    (a.month < b.month ∨ a.month = b.month ∧ a.day < b.day)⟩

theorem lt_def {a b : Date} : a < b ↔ a.year < b.year ∨ a.year = b.year ∧
    (a.month < b.month ∨ a.month = b.month ∧ a.day < b.day) := Iff.rfl

/-! Numbers of days, from the first day of the year 0. -/

/-- With a leap day for each leap year before. -/
def daysBeforeYear (y : Int) : Int := 365 * y + (y + 3) / 4 - (y + 99) / 100 + (y + 399) / 400

def daysBeforeMonth (y : Int) : Nat → Nat
  | 0 | 1 => 0
  | m + 2 => daysBeforeMonth y (m + 1) + monthLength y (m + 1)

def Date.number (a : Date) : Int := daysBeforeYear a.year + daysBeforeMonth a.year a.month + a.day - 1

def yearLength (y : Int) : Nat := if Leap y then 366 else 365

theorem daysBeforeYear_succ (y : Int) : daysBeforeYear (y + 1) = daysBeforeYear y + yearLength y := by
  unfold daysBeforeYear yearLength
  split_ifs with h
  · unfold Leap at h
    push_cast
    omega
  · unfold Leap at h
    push_cast
    omega

theorem daysBeforeYear_mono {x y : Int} (h : x ≤ y) : daysBeforeYear x ≤ daysBeforeYear y := by
  induction y, h using Int.leInduction with
  | base => rfl
  | succ y _ ih =>
    rw [daysBeforeYear_succ]
    omega

theorem daysBeforeMonth_succ (y : Int) {m : Nat} (h : 1 ≤ m) :
    daysBeforeMonth y (m + 1) = daysBeforeMonth y m + monthLength y m := by
  obtain ⟨k, rfl⟩ := Nat.exists_eq_add_of_le' h
  rfl

theorem daysBeforeMonth_mono (y : Int) {m n : Nat} (hm : 1 ≤ m) (h : m ≤ n) :
    daysBeforeMonth y m ≤ daysBeforeMonth y n := by
  induction n, h using Nat.le_induction with
  | base => rfl
  | succ n hn ih =>
    rw [daysBeforeMonth_succ y (hm.trans hn)]
    omega

theorem daysBeforeMonth_year (y : Int) : daysBeforeMonth y 13 = yearLength y := by
  unfold yearLength
  split_ifs with h <;> simp [daysBeforeMonth, monthLength, h]

theorem number_next (a : Date) : a.next.number = a.number + 1 := by
  obtain ⟨y, m, d, ⟨⟨hm1, hm12⟩, hd1, hdl⟩⟩ := a
  unfold Date.next Date.number
  split_ifs with hd hm <;> dsimp only at *
  · push_cast
    ring
  · rw [daysBeforeMonth_succ y hm1]
    push_cast
    omega
  · obtain rfl : m = 12 := by omega
    have hlast : yearLength y = daysBeforeMonth y 12 + monthLength y 12 := by
      rw [← daysBeforeMonth_year, daysBeforeMonth_succ y (by decide)]
    have hfirst : daysBeforeMonth (y + 1) 1 = 0 := rfl
    rw [daysBeforeYear_succ, hfirst, hlast]
    push_cast
    omega

theorem number_bounds (a : Date) :
    daysBeforeYear a.year ≤ a.number ∧ a.number < daysBeforeYear (a.year + 1) := by
  obtain ⟨y, m, d, ⟨⟨hm1, hm12⟩, hd1, hdl⟩⟩ := a
  have hend := daysBeforeMonth_mono y (Nat.le_add_left 1 m) (show m + 1 ≤ 13 by omega)
  rw [daysBeforeMonth_succ y hm1, daysBeforeMonth_year] at hend
  rw [daysBeforeYear_succ]
  unfold Date.number
  dsimp only
  omega

theorem number_lt {a b : Date} (h : a < b) : a.number < b.number := by
  rcases lt_def.mp h with hy | ⟨hy, hm | ⟨hm, hd⟩⟩
  · calc a.number < daysBeforeYear (a.year + 1) := (number_bounds a).2
      _ ≤ daysBeforeYear b.year := daysBeforeYear_mono hy
      _ ≤ b.number := (number_bounds b).1
  · have hmono := daysBeforeMonth_mono a.year (Nat.le_add_left 1 a.month) hm
    rw [daysBeforeMonth_succ a.year a.valid.1.1] at hmono
    have hd := a.valid.2.2
    have hd' := b.valid.2.1
    unfold Date.number
    rw [← hy]
    omega
  · unfold Date.number
    rw [← hy, ← hm]
    omega

theorem lt_trichotomy (a b : Date) : a < b ∨ a = b ∨ b < a := by
  rw [lt_def, lt_def, Date.ext_iff]
  omega

theorem number_lt_iff {a b : Date} : a.number < b.number ↔ a < b := by
  refine ⟨fun h => ?_, number_lt⟩
  rcases lt_trichotomy a b with hab | rfl | hba
  · exact hab
  · exact absurd h (lt_irrefl _)
  · exact absurd (number_lt hba) h.asymm

theorem number_injective : Function.Injective Date.number := by
  intro a b h
  rcases lt_trichotomy a b with hab | hab | hba
  · exact absurd h (number_lt hab).ne
  · exact hab
  · exact absurd h (number_lt hba).ne'

theorem number_iterate (n : Nat) (a : Date) : (Date.next^[n] a).number = a.number + n := by
  induction n with
  | zero => simp
  | succ n ih =>
    rw [Function.iterate_succ_apply', number_next, ih]
    push_cast
    ring

/-- Numbers differ by the number of days from one date to the other. -/
theorem number_sub_eq (a b : Date) (n : Nat) : b.number - a.number = n ↔ Date.next^[n] a = b := by
  constructor
  · intro h
    apply number_injective
    rw [number_iterate]
    omega
  · rintro rfl
    rw [number_iterate]
    ring

def epoch : Date := ⟨1970, 1, 1, valid_newYear 1970⟩

end PulseNull.Calendar
