/-
HighJump.Lib.Gregorian — the proleptic Gregorian calendar on integers.

A day is numbered by the days since 1970-01-01, a month by
`12 * year + month - 1`. `dayNumber` counts up to a date; `yearOf`,
`monthOf` and `dayOf` read it back from the number: the year is estimated
from the mean length of a year and corrected by one, the month comes
from the day of the year. Months are a tiling of the days, and years are
twelve months each.
-/
import HighJump.Lib.Tiling

namespace HighJump.Lib.Gregorian

open HighJump.Lib (Tiling)

/-! ## Counting forward -/

/-- Every fourth year, of the centuries only every fourth. -/
def IsLeap (y : Int) : Prop := y % 4 = 0 ∧ (y % 100 ≠ 0 ∨ y % 400 = 0)

instance (y : Int) : Decidable (IsLeap y) := inferInstanceAs (Decidable (_ ∧ _))

def leapDay (y : Int) : Int := if IsLeap y then 1 else 0

def daysInMonth (y m : Int) : Int :=
  if m = 2 then 28 + leapDay y else if m = 4 ∨ m = 6 ∨ m = 9 ∨ m = 11 then 30 else 31

/-- Days before January 1 of year `y`, from January 1 of year 1. -/
def daysBeforeYear (y : Int) : Int :=
  365 * (y - 1) + (y - 1) / 4 - (y - 1) / 100 + (y - 1) / 400

/-- Days of year `y` before month `m`. From March on, five months have
153 days. -/
def daysBeforeMonth (y m : Int) : Int :=
  if m ≤ 2 then 31 * (m - 1) else (153 * (m - 3) + 2) / 5 + 59 + leapDay y

/-- The number of a date; 1970-01-01 is day 719162 from 0001-01-01. -/
def dayNumber (y m d : Int) : Int := daysBeforeYear y + daysBeforeMonth y m + (d - 1) - 719162

theorem leapDay_mem (y : Int) : leapDay y = 0 ∨ leapDay y = 1 := by
  unfold leapDay
  split <;> simp

/-- A year has 365 days, and its leap day. -/
theorem daysBeforeYear_succ (y : Int) :
    daysBeforeYear (y + 1) = daysBeforeYear y + 365 + leapDay y := by
  unfold daysBeforeYear leapDay
  split
  · rename_i h
    unfold IsLeap at h
    omega
  · rename_i h
    unfold IsLeap at h
    omega

/-- The months' lengths add up. -/
theorem daysBeforeMonth_succ (y : Int) {m : Int} (h1 : 1 ≤ m) (h11 : m ≤ 11) :
    daysBeforeMonth y (m + 1) = daysBeforeMonth y m + daysInMonth y m := by
  have hm : m = 1 ∨ m = 2 ∨ m = 3 ∨ m = 4 ∨ m = 5 ∨ m = 6 ∨ m = 7 ∨ m = 8 ∨ m = 9 ∨ m = 10 ∨
      m = 11 := by omega
  rcases hm with rfl | rfl | rfl | rfl | rfl | rfl | rfl | rfl | rfl | rfl | rfl <;>
    simp [daysBeforeMonth, daysInMonth] <;> omega

theorem daysBeforeMonth_december (y : Int) :
    daysBeforeMonth y 12 + daysInMonth y 12 = 365 + leapDay y := by
  simp [daysBeforeMonth, daysInMonth]
  omega

@[simp] theorem daysBeforeMonth_january (y : Int) : daysBeforeMonth y 1 = 0 := rfl

theorem daysInMonth_pos (y m : Int) : 0 < daysInMonth y m := by
  have := leapDay_mem y
  unfold daysInMonth
  split
  · omega
  · split <;> omega

/-! ## Reading back -/

/-- The year of the `n`-th day from 0001-01-01: 146097 days are 400
years, which puts the estimate at most one year off. -/
def yearOfCount (n : Int) : Int :=
  let y := n * 400 / 146097 + 1
  if n < daysBeforeYear y then y - 1 else if daysBeforeYear (y + 1) ≤ n then y + 1 else y

def yearOf (n : Int) : Int := yearOfCount (n + 719162)

/-- The day of the year, from 0. -/
def dayOfYear (n : Int) : Int := n + 719162 - daysBeforeYear (yearOf n)

/-- The month of day `k` of a year with `l` leap days. -/
def monthOfYearDay (l k : Int) : Int :=
  if k < 31 then 1 else if k < 59 + l then 2 else (5 * (k - 59 - l) + 2) / 153 + 3

def monthOf (n : Int) : Int := monthOfYearDay (leapDay (yearOf n)) (dayOfYear n)

def dayOf (n : Int) : Int := dayOfYear n - daysBeforeMonth (yearOf n) (monthOf n) + 1

theorem yearOfCount_spec (n : Int) :
    daysBeforeYear (yearOfCount n) ≤ n ∧ n < daysBeforeYear (yearOfCount n + 1) := by
  unfold yearOfCount
  generalize hy : n * 400 / 146097 + 1 = y
  -- the estimate's year or one next to it
  have hlo : daysBeforeYear (y - 1) ≤ n := by
    unfold daysBeforeYear
    omega
  have hhi : n < daysBeforeYear (y + 1 + 1) := by
    unfold daysBeforeYear
    omega
  dsimp only
  split
  · rename_i hlt
    rw [show y - 1 + 1 = y by omega]
    exact ⟨hlo, hlt⟩
  · split
    · rename_i hle
      exact ⟨hle, hhi⟩
    · rename_i hge hlt
      exact ⟨Int.not_lt.mp hge, Int.not_le.mp hlt⟩

/-- A month is found in its year. -/
theorem monthOfYearDay_spec (y : Int) {k : Int} (h0 : 0 ≤ k) (hk : k < 365 + leapDay y) :
    1 ≤ monthOfYearDay (leapDay y) k ∧ monthOfYearDay (leapDay y) k ≤ 12 ∧
      daysBeforeMonth y (monthOfYearDay (leapDay y) k) ≤ k ∧
      k < daysBeforeMonth y (monthOfYearDay (leapDay y) k) +
        daysInMonth y (monthOfYearDay (leapDay y) k) := by
  have hl := leapDay_mem y
  unfold monthOfYearDay
  split
  · simp [daysBeforeMonth, daysInMonth]
    omega
  · split
    · simp [daysBeforeMonth, daysInMonth]
      omega
    · generalize hm : (5 * (k - 59 - leapDay y) + 2) / 153 + 3 = m
      have h3 : 3 ≤ m := by omega
      have h12 : m ≤ 12 := by omega
      refine ⟨by omega, h12, ?_, ?_⟩
      · unfold daysBeforeMonth
        rw [if_neg (by omega)]
        omega
      · unfold daysBeforeMonth daysInMonth
        rw [if_neg (by omega), if_neg (by omega)]
        split <;> omega

theorem yearOf_spec (n : Int) :
    daysBeforeYear (yearOf n) ≤ n + 719162 ∧ n + 719162 < daysBeforeYear (yearOf n + 1) :=
  yearOfCount_spec (n + 719162)

theorem dayOfYear_mem (n : Int) : 0 ≤ dayOfYear n ∧ dayOfYear n < 365 + leapDay (yearOf n) := by
  have h := yearOf_spec n
  rw [daysBeforeYear_succ] at h
  unfold dayOfYear
  omega

theorem monthOf_mem (n : Int) : 1 ≤ monthOf n ∧ monthOf n ≤ 12 := by
  obtain ⟨h0, hk⟩ := dayOfYear_mem n
  obtain ⟨h1, h12, -, -⟩ := monthOfYearDay_spec (yearOf n) h0 hk
  exact ⟨h1, h12⟩

theorem dayOf_mem (n : Int) : 1 ≤ dayOf n ∧ dayOf n ≤ daysInMonth (yearOf n) (monthOf n) := by
  obtain ⟨h0, hk⟩ := dayOfYear_mem n
  obtain ⟨-, -, hlo, hhi⟩ := monthOfYearDay_spec (yearOf n) h0 hk
  unfold dayOf monthOf
  omega

/-- A date read off a number has that number. -/
theorem dayNumber_read (n : Int) : dayNumber (yearOf n) (monthOf n) (dayOf n) = n := by
  unfold dayNumber dayOf dayOfYear
  omega

/-! ## Months and years as tilings -/

/-- The first day of month `i`. -/
def monthStart (i : Int) : Int := dayNumber (i / 12) (i % 12 + 1) 1

/-- The year and the month in a month's number. -/
theorem monthNumber_div_mod (y : Int) {m : Int} (h1 : 1 ≤ m) (h12 : m ≤ 12) :
    (12 * y + (m - 1)) / 12 = y ∧ (12 * y + (m - 1)) % 12 + 1 = m := by
  omega

theorem dayNumber_eq_monthStart {y m : Int} (h1 : 1 ≤ m) (h12 : m ≤ 12) (d : Int) :
    dayNumber y m d = monthStart (12 * y + (m - 1)) + (d - 1) := by
  obtain ⟨hy, hm⟩ := monthNumber_div_mod y h1 h12
  rw [monthStart, hy, hm]
  unfold dayNumber
  omega

/-- The next month starts when this one's days are over. -/
theorem monthStart_succ (i : Int) :
    monthStart (i + 1) = monthStart i + daysInMonth (i / 12) (i % 12 + 1) := by
  unfold monthStart dayNumber
  by_cases h : i % 12 = 11
  · -- December: the year turns
    have hy : (i + 1) / 12 = i / 12 + 1 := by omega
    have hm : (i + 1) % 12 = 0 := by omega
    have hdec := daysBeforeMonth_december (i / 12)
    rw [hy, hm, h, daysBeforeYear_succ, Int.zero_add, daysBeforeMonth_january,
      show (11 : Int) + 1 = 12 from rfl]
    omega
  · have hy : (i + 1) / 12 = i / 12 := by omega
    have hm : (i + 1) % 12 + 1 = i % 12 + 1 + 1 := by omega
    rw [hy, hm, daysBeforeMonth_succ (i / 12) (by omega) (by omega)]
    omega

/-- The months cut the days. -/
def months : Tiling Int where
  index n := 12 * yearOf n + (monthOf n - 1)
  start := monthStart
  start_index_le n := by
    obtain ⟨h1, h12⟩ := monthOf_mem n
    have hd := dayOf_mem n
    have hn := dayNumber_read n
    rw [dayNumber_eq_monthStart h1 h12] at hn
    omega
  lt_start_succ n := by
    obtain ⟨h1, h12⟩ := monthOf_mem n
    have hd := dayOf_mem n
    have hn := dayNumber_read n
    obtain ⟨hy, hm⟩ := monthNumber_div_mod (yearOf n) h1 h12
    rw [dayNumber_eq_monthStart h1 h12] at hn
    rw [monthStart_succ, hy, hm]
    omega
  start_lt_start_succ i := by
    have h := daysInMonth_pos (i / 12) (i % 12 + 1)
    rw [monthStart_succ]
    omega

/-- Twelve months a year, January of year 0 being month 0. -/
def years : Tiling Int := months.trans (.blocks 12 0 (by omega))

/-- A day is in the month its date says. -/
theorem months_index_dayNumber {y m d : Int} (h1 : 1 ≤ m) (h12 : m ≤ 12) (hd1 : 1 ≤ d)
    (hd : d ≤ daysInMonth y m) : months.index (dayNumber y m d) = 12 * y + (m - 1) := by
  obtain ⟨hy, hm⟩ := monthNumber_div_mod y h1 h12
  have hsucc := monthStart_succ (12 * y + (m - 1))
  rw [hy, hm] at hsucc
  refine months.index_eq_iff.mpr ?_
  change monthStart _ ≤ _ ∧ _ < monthStart _
  rw [dayNumber_eq_monthStart h1 h12, hsucc]
  omega

theorem months_index (n : Int) : months.index n = 12 * yearOf n + (monthOf n - 1) := rfl

theorem months_index_div (n : Int) : months.index n / 12 = yearOf n :=
  (monthNumber_div_mod (yearOf n) (monthOf_mem n).1 (monthOf_mem n).2).1

theorem months_index_mod (n : Int) : months.index n % 12 + 1 = monthOf n :=
  (monthNumber_div_mod (yearOf n) (monthOf_mem n).1 (monthOf_mem n).2).2

theorem years_index (n : Int) : years.index n = yearOf n := by
  rw [years, Tiling.trans_index, Tiling.blocks_index, Int.add_zero, months_index_div]

/-- The number of a date is read as that date. -/
theorem read_dayNumber {y m d : Int} (h1 : 1 ≤ m) (h12 : m ≤ 12) (hd1 : 1 ≤ d)
    (hd : d ≤ daysInMonth y m) :
    yearOf (dayNumber y m d) = y ∧ monthOf (dayNumber y m d) = m ∧ dayOf (dayNumber y m d) = d := by
  have hi := months_index_dayNumber h1 h12 hd1 hd
  have hmem := monthOf_mem (dayNumber y m d)
  rw [months_index] at hi
  have hy : yearOf (dayNumber y m d) = y := by omega
  have hm : monthOf (dayNumber y m d) = m := by omega
  refine ⟨hy, hm, ?_⟩
  have hread := dayNumber_read (dayNumber y m d)
  rw [hy, hm] at hread
  unfold dayNumber at hread ⊢
  omega

end HighJump.Lib.Gregorian
