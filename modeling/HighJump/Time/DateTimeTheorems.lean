/-
HighJump.Time.DateTimeTheorems — dates and times read and put together.

What the functions of `DateTime` share: the date of a midnight, the day
numbers of the dates `Date.make` accepts, and the range of years in terms
of months. A function on a time is described by the tiling its period
belongs to, so the lemmas speak of `months.index` and `monthStart` where
the source speaks of a year and a month.
-/
import HighJump.Time.DateTime

namespace HighJump.Time

open HighJump.Lib HighJump.Lib.Gregorian

@[simp] theorem Moon.number_june : Moon.june.number = 6 := rfl

theorem Weekday.ofNumber_eq_sunday {w : Int} (h0 : 0 ≤ w) (h6 : w ≤ 6) :
    Weekday.ofNumber w = .sunday ↔ w = 0 := by
  have hw : w = 0 ∨ w = 1 ∨ w = 2 ∨ w = 3 ∨ w = 4 ∨ w = 5 ∨ w = 6 := by omega
  rcases hw with rfl | rfl | rfl | rfl | rfl | rfl | rfl <;> decide

/-! ## The range of years -/

theorem inRange_of_between {a b n : Int} (ha : InRange a) (hb : InRange b) (h1 : a ≤ n)
    (h2 : n ≤ b) : InRange n := by
  have hlo := years.index_mono h1
  have hhi := years.index_mono h2
  rw [years_index, years_index] at hlo hhi
  exact ⟨Int.le_trans ha.1 hlo, Int.le_trans hhi hb.2⟩

/-- A month's days are in range when its year is. -/
theorem inRange_iff_month {n : Int} :
    InRange n ↔ 1400 ≤ months.index n / 12 ∧ months.index n / 12 ≤ 9999 := by
  rw [months_index_div]
  rfl

theorem inRange_monthStart {i : Int} :
    InRange (monthStart i) ↔ 1400 ≤ i / 12 ∧ i / 12 ≤ 9999 := by
  have hi : months.index (monthStart i) = i := months.index_start i
  rw [inRange_iff_month, hi]

/-- The numbers here are small. -/
theorem int32_wrap {x : Int} (h1 : -1000000 ≤ x) (h2 : x ≤ 1000000) : IntType.int32.wrap x = x := by
  have hmin : IntType.int32.min = -2147483648 := by decide
  have hmax : IntType.int32.max = 2147483647 := by decide
  exact IntType.int32.wrap_of_mem ⟨by omega, by omega⟩

theorem years_start (j : Int) : years.start j = monthStart (12 * j) := by
  rw [years, Tiling.trans_start, Tiling.blocks_start, Int.sub_zero]
  rfl

theorem years_index_month (n : Int) : years.index n = months.index n / 12 := by
  rw [years, Tiling.trans_index, Tiling.blocks_index, Int.add_zero]

/-! ## Times of day -/

namespace DateTime

/-- 00:00:00 on day `n`. -/
def midnight (n : Int) : DateTime := .ticks (n * dayTicks)

/-- 23:59:59 on day `n`. -/
def lastSecond (n : Int) : DateTime := .ticks (n * dayTicks + 86399000000)

@[simp] theorem ofDate_midnight (n : Int) : ofDate (.on n) 0 0 0 0 = midnight n := by
  simp [ofDate, midnight, timeDuration]

@[simp] theorem ofDate_lastSecond (n : Int) : ofDate (.on n) 23 59 59 0 = lastSecond n := by
  simp [ofDate, lastSecond, timeDuration]

theorem date_ticks (count : Int) (h : InRange (count / dayTicks)) :
    (ticks count).date = some (.on (count / dayTicks)) := if_pos h

theorem date_midnight {n : Int} (h : InRange n) : (midnight n).date = some (.on n) := by
  have hn : n * dayTicks / dayTicks = n := Int.mul_ediv_cancel n (by decide)
  rw [midnight, date_ticks _ (by rwa [hn]), hn]

/-- A time with a day in range is a number of ticks on that day. -/
theorem of_date {t : DateTime} {n : Int} (h : t.date = some (.on n)) :
    InRange n ∧ ∃ count, t = .ticks count ∧ count / dayTicks = n := by
  cases t with
  | null => cases h
  | ticks count =>
    rw [date] at h
    split at h
    · rename_i hrange
      obtain rfl : count / dayTicks = n := Date.on.inj (Option.some.inj h)
      exact ⟨hrange, count, rfl, rfl⟩
    · cases h

variable {t : DateTime} {n : Int}

theorem ne_null (h : t.date = some (.on n)) : t ≠ .null := by
  rintro rfl
  cases h

end DateTime

/-! ## Dates -/

namespace Date

theorem ushort_wrap {x : Int} (h0 : 0 ≤ x) (h : x ≤ 9999) : ushort.wrap x = x := by
  refine ushort.wrap_of_mem ⟨h0, ?_⟩
  have hmax : ushort.max = 65535 := by decide
  omega

/-- A date is put together where its parts are in order. -/
theorem make_eq {y m d : Int} (hy1 : 1400 ≤ y) (hy2 : y ≤ 9999) (hm1 : 1 ≤ m) (hm2 : m ≤ 12)
    (hd1 : 1 ≤ d) (hd2 : d ≤ daysInMonth y m) : make y m d = some (.on (dayNumber y m d)) := by
  have hdays : daysInMonth y m ≤ 31 := by
    have := leapDay_mem y
    unfold daysInMonth
    split
    · omega
    · split <;> omega
  unfold make
  rw [ushort_wrap (by omega) hy2, ushort_wrap (by omega) (by omega),
    ushort_wrap (by omega) (by omega)]
  exact if_pos ⟨hy1, hy2, hm1, hm2, hd1, hd2⟩

/-- The first of month `j`. -/
theorem make_first {y m j : Int} (hy1 : 1400 ≤ y) (hy2 : y ≤ 9999) (hm1 : 1 ≤ m) (hm2 : m ≤ 12)
    (hj : 12 * y + (m - 1) = j) : make y m 1 = some (.on (monthStart j)) := by
  have hpos := daysInMonth_pos y m
  rw [make_eq hy1 hy2 hm1 hm2 (Int.le_refl 1) (by omega), dayNumber_eq_monthStart hm1 hm2, hj]
  simp

/-- The last of a month is the day before month `j`, the next. -/
theorem make_last {y m j : Int} (hy1 : 1400 ≤ y) (hy2 : y ≤ 9999) (hm1 : 1 ≤ m) (hm2 : m ≤ 12)
    (hj : 12 * y + m = j) : make y m (daysInMonth y m) = some (.on (monthStart j - 1)) := by
  have hpos := daysInMonth_pos y m
  have hsucc := monthStart_succ (12 * y + (m - 1))
  obtain ⟨hy, hm⟩ := monthNumber_div_mod y hm1 hm2
  have hday : monthStart (12 * y + (m - 1)) + (daysInMonth y m - 1) = monthStart j - 1 := by
    rw [hy, hm, show 12 * y + (m - 1) + 1 = j by omega] at hsucc
    omega
  rw [make_eq hy1 hy2 hm1 hm2 (by omega) (Int.le_refl _), dayNumber_eq_monthStart hm1 hm2, hday]

theorem ymd_on {n : Int} (h : InRange n) :
    (Date.on n).ymd = some ⟨months.index n / 12, months.index n % 12 + 1, dayOf n⟩ := by
  rw [months_index_div, months_index_mod]
  exact if_pos h

/-- A date put together is taken apart into the same numbers. -/
theorem make_ymd {y m d : Int} (hy1 : 1400 ≤ y) (hy2 : y ≤ 9999) (hm1 : 1 ≤ m) (hm2 : m ≤ 12)
    (hd1 : 1 ≤ d) (hd2 : d ≤ daysInMonth y m) : (make y m d).bind ymd = some ⟨y, m, d⟩ := by
  obtain ⟨hy, hm, hd⟩ := read_dayNumber hm1 hm2 hd1 hd2
  have hrange : InRange (dayNumber y m d) := by
    unfold InRange
    omega
  rw [make_eq hy1 hy2 hm1 hm2 hd1 hd2, Option.bind_some, ymd, if_pos hrange, hy, hm, hd]

/-- A date taken apart is put together again. -/
theorem make_on {n : Int} (h : InRange n) :
    make (months.index n / 12) (months.index n % 12 + 1) (dayOf n) = some (.on n) := by
  obtain ⟨hm1, hm2⟩ := monthOf_mem n
  obtain ⟨hd1, hd2⟩ := dayOf_mem n
  rw [months_index_div, months_index_mod, make_eq h.1 h.2 hm1 hm2 hd1 hd2, dayNumber_read]

/-- Adding months lands in the month so many on, on some day of it. -/
theorem addMonths_eq {n k : Int} (h : InRange n) (h1 : 1400 ≤ (months.index n + k) / 12)
    (h2 : (months.index n + k) / 12 ≤ 9999) :
    ∃ n', (Date.on n).addMonths k = some (.on n') ∧ InRange n' ∧
      months.index n' = months.index n + k := by
  have hd := dayOf_mem n
  have hpos := daysInMonth_pos ((months.index n + k) / 12) ((months.index n + k) % 12 + 1)
  have hindex : 12 * (months.index n / 12) + (months.index n % 12 + 1 - 1) + k =
      months.index n + k := by omega
  simp only [addMonths, ymd_on h, Option.bind_eq_bind, Option.bind_some, hindex]
  generalize hday : (if dayOf n = daysInMonth (months.index n / 12) (months.index n % 12 + 1) then
    daysInMonth ((months.index n + k) / 12) ((months.index n + k) % 12 + 1) else
    min (dayOf n) (daysInMonth ((months.index n + k) / 12) ((months.index n + k) % 12 + 1))) = day
  have hday1 : 1 ≤ day := by
    split at hday <;> omega
  have hday2 : day ≤ daysInMonth ((months.index n + k) / 12) ((months.index n + k) % 12 + 1) := by
    split at hday <;> omega
  have hmonth := months_index_dayNumber (y := (months.index n + k) / 12)
    (m := (months.index n + k) % 12 + 1) (by omega) (by omega) hday1 hday2
  refine ⟨_, make_eq h1 h2 (by omega) (by omega) hday1 hday2, ?_, ?_⟩
  · rw [inRange_iff_month, hmonth]
    omega
  · rw [hmonth]
    omega

end Date

namespace DateTime

variable {t : DateTime} {n : Int}

theorem month_eq (h : t.date = some (.on n)) :
    ∃ m, t.month = some m ∧ m.number = months.index n % 12 + 1 := by
  obtain ⟨hrange, -⟩ := of_date h
  refine ⟨Moon.ofNumber (months.index n % 12 + 1), ?_,
    Moon.number_ofNumber (by omega) (by omega)⟩
  rw [month, if_neg (ne_null h), h]
  simp [Date.ymd_on hrange]

theorem dayOfWeek_eq (h : t.date = some (.on n)) :
    t.dayOfWeek = some (Weekday.ofNumber ((n + 4) % 7)) := by
  obtain ⟨hrange, -⟩ := of_date h
  rw [dayOfWeek, if_neg (ne_null h), h]
  exact if_pos hrange

theorem ofYmd_first {y m j : Int} (hy1 : 1400 ≤ y) (hy2 : y ≤ 9999) (hm1 : 1 ≤ m) (hm2 : m ≤ 12)
    (hj : 12 * y + (m - 1) = j) : ofYmd y m 1 0 0 0 0 = some (midnight (monthStart j)) := by
  rw [ofYmd, Date.make_first hy1 hy2 hm1 hm2 hj]
  simp

theorem ofYmd_last {y m d j : Int} (hy1 : 1400 ≤ y) (hy2 : y ≤ 9999) (hm1 : 1 ≤ m) (hm2 : m ≤ 12)
    (hd : d = daysInMonth y m) (hj : 12 * y + m = j) :
    ofYmd y m d 23 59 59 0 = some (lastSecond (monthStart j - 1)) := by
  rw [ofYmd, hd, Date.make_last hy1 hy2 hm1 hm2 hj]
  simp

theorem nextDay_eq (h : t.date = some (.on n)) (k : Nat) :
    t.nextDay k = some (midnight (n + k)) := by
  rw [nextDay, h]
  simp [Date.addDays]

theorem preDay_eq (h : t.date = some (.on n)) (k : Nat) :
    t.preDay k = some (midnight (n - k)) := by
  rw [preDay, h]
  simp [Date.addDays, Int.sub_eq_add_neg]

end DateTime

end HighJump.Time
