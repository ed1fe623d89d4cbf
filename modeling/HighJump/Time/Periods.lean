/-
HighJump.Time.Periods — days, weeks, months, quarters, half-years, years.

Each kind of period is a tiling of the days. Its three functions come to
the tiling's: `startOf` to midnight of the tile's first day, `endOf` to
23:59:59 of its last, `next` to midnight of the next tile's first. What
the periods have in common follows from the tilings alone. Steps of
several months or years go by the same numbers, forward and back.
-/
import HighJump.Time.Stepping

namespace HighJump.Time

open HighJump.Lib HighJump.Lib.Gregorian

/-- The kinds of period. -/
inductive Period where
  | day | week | month | quarter | halfYear | year
  deriving DecidableEq, Repr

namespace DateTime

/-- `_tm + seconds(s)`. -/
def addSeconds : DateTime → Int → DateTime
  | .null, _ => .null
  | .ticks count, s => .ticks (count + s * 1000000)

theorem lastSecond_addSeconds (n : Int) : (lastSecond (n - 1)).addSeconds 1 = midnight n := by
  simp only [lastSecond, addSeconds, midnight, dayTicks, ticks.injEq]
  omega

theorem midnight_addSeconds (n k : Int) :
    (midnight n).addSeconds (k * 86400) = midnight (n + k) := by
  simp only [addSeconds, midnight, dayTicks, ticks.injEq]
  omega

end DateTime

namespace Period

/-- Weeks start on Mondays; 1970-01-01 was a Thursday. -/
def tiling : Period → Tiling Int
  | .day => .blocks 1 0 (by decide)
  | .week => .blocks 7 3 (by decide)
  | .month => months
  | .quarter => Part.quarter.tiling
  | .halfYear => Part.half.tiling
  | .year => years

def startOf : Period → DateTime → Option DateTime
  | .day => DateTime.startOfDay
  | .week => DateTime.startOfWeek
  | .month => DateTime.startOfMonth
  | .quarter => DateTime.startOfQuarter
  | .halfYear => DateTime.startOfHalfYear
  | .year => DateTime.startOfYear

def endOf : Period → DateTime → Option DateTime
  | .day => DateTime.endOfDay
  | .week => DateTime.endOfWeek
  | .month => DateTime.endOfMonth
  | .quarter => DateTime.endOfQuarter
  | .halfYear => DateTime.endOfHalfYear
  | .year => DateTime.endOfYear

/-- The source has no `next_week`: seven days on from the start. -/
def next : Period → DateTime → Option DateTime
  | .day => (DateTime.nextDay · 1)
  | .week => fun t => t.startOfWeek.map fun s => s.addSeconds (7 * 86400)
  | .month => (DateTime.nextMonth · 1)
  | .quarter => (DateTime.nextQuarter · 1)
  | .halfYear => (DateTime.nextHalfYear · 1)
  | .year => (DateTime.nextYear · 1)

end Period

namespace DateTime

variable {t : DateTime} {n : Int}

/-! ## Days -/

theorem startOfDay_eq (ht : t.date = some (.on n)) : t.startOfDay = some (midnight n) := by
  rw [startOfDay, ht]
  simp

theorem endOfDay_eq (ht : t.date = some (.on n)) : t.endOfDay = some (lastSecond n) := by
  obtain ⟨hn, -⟩ := of_date ht
  simp only [endOfDay, ht, Option.bind_eq_bind, Option.bind_some, Date.ymd_on hn, ofYmd,
    Date.make_on hn, Option.map_some, ofDate_lastSecond]

/-! ## Weeks -/

theorem week_start (n : Int) : Period.week.tiling.start (Period.week.tiling.index n) =
    if (n + 4) % 7 = 0 then n - 6 else n + (1 - (n + 4) % 7) := by
  simp only [Period.tiling, Tiling.blocks_start, Tiling.blocks_index]
  split <;> omega

theorem week_end (n : Int) : Period.week.tiling.start (Period.week.tiling.index n + 1) - 1 =
    if (n + 4) % 7 = 0 then n else n + (7 - (n + 4) % 7) := by
  simp only [Period.tiling, Tiling.blocks_start, Tiling.blocks_index]
  split <;> omega

theorem startOfWeek_eq (ht : t.date = some (.on n))
    (h : InRange (Period.week.tiling.start (Period.week.tiling.index n))) :
    t.startOfWeek = some (midnight (Period.week.tiling.start (Period.week.tiling.index n))) := by
  rw [week_start] at h ⊢
  simp only [startOfWeek, dayOfWeek_eq ht, ht, Option.bind_eq_bind, Option.bind_some,
    Weekday.ofNumber_eq_sunday (w := (n + 4) % 7) (by omega) (by omega),
    Weekday.number_ofNumber (w := (n + 4) % 7) (by omega) (by omega), Date.addDays,
    ofDate_midnight]
  split at h
  · rename_i hsunday
    rw [if_pos hsunday, if_pos hsunday]
    exact startOfDay_eq (date_midnight h)
  · rename_i hsunday
    rw [if_neg hsunday, if_neg hsunday]
    exact startOfDay_eq (date_midnight h)

theorem endOfWeek_eq (ht : t.date = some (.on n)) :
    t.endOfWeek =
      some (lastSecond (Period.week.tiling.start (Period.week.tiling.index n + 1) - 1)) := by
  rw [week_end]
  simp only [endOfWeek, dayOfWeek_eq ht, ht, Option.bind_eq_bind, Option.bind_some,
    Weekday.ofNumber_eq_sunday (w := (n + 4) % 7) (by omega) (by omega),
    Weekday.number_ofNumber (w := (n + 4) % 7) (by omega) (by omega), Date.addDays,
    ofDate_lastSecond, Option.pure_def]
  split <;> rfl

/-! ## Months -/

theorem startOfMonth_eq (ht : t.date = some (.on n)) :
    t.startOfMonth = some (midnight (monthStart (months.index n))) := by
  obtain ⟨hn, -⟩ := of_date ht
  obtain ⟨m, hm, hnumber⟩ := month_eq ht
  have hyear := inRange_iff_month.mp hn
  simp only [startOfMonth, ht, Date.ymd_on hn, hm, hnumber, Option.bind_eq_bind, Option.bind_some]
  exact ofYmd_first (by omega) (by omega) (by omega) (by omega) (by omega)

theorem endOfMonth_eq (ht : t.date = some (.on n)) :
    t.endOfMonth = some (lastSecond (monthStart (months.index n + 1) - 1)) := by
  obtain ⟨hn, -⟩ := of_date ht
  have hyear := inRange_iff_month.mp hn
  have hlast := Date.make_last (y := months.index n / 12) (m := months.index n % 12 + 1)
    (j := months.index n + 1) (by omega) (by omega) (by omega) (by omega) (by omega)
  simp only [endOfMonth, Date.endOfMonth, ht, Date.ymd_on hn, Option.bind_eq_bind,
    Option.bind_some, hlast, Option.pure_def, ofDate_lastSecond]

/-- Months are added, and the day set to the first. -/
theorem addMonths_first {k : Int} (hn : InRange n)
    (h : InRange (monthStart (months.index n + k))) :
    (((Date.on n).addMonths k).bind fun e => e.ymd.bind fun p => Date.make p.year p.month 1) =
      some (.on (monthStart (months.index n + k))) := by
  rw [inRange_monthStart] at h
  obtain ⟨n', hadd, hn', hindex⟩ := Date.addMonths_eq hn h.1 h.2
  rw [hadd, Option.bind_some, Date.ymd_on hn', Option.bind_some]
  dsimp only
  exact Date.make_first (by omega) (by omega) (by omega) (by omega) (by omega)

theorem monthCount_eq {k : Nat} (hk : k < 2 ^ 15) : monthCount k = k := by
  rw [monthCount, int32_wrap (by omega) (by omega)]
  refine short.wrap_of_mem ⟨?_, ?_⟩
  · exact Int.le_trans (by decide) (Int.natCast_nonneg k)
  · exact Int.le_of_lt_add_one (Int.ofNat_lt.mpr hk)

theorem nextMonth_eq (ht : t.date = some (.on n)) {k : Nat} (hk : k < 2 ^ 15)
    (h : InRange (monthStart (months.index n + k))) :
    t.nextMonth k = some (midnight (monthStart (months.index n + k))) := by
  obtain ⟨hn, -⟩ := of_date ht
  have hfirst := addMonths_first hn h
  simp only [nextMonth, ht, Option.bind_eq_bind, Option.bind_some, Option.pure_def]
  rw [monthCount_eq hk, ← Option.bind_assoc, ← Option.bind_assoc]
  rw [← Option.bind_assoc] at hfirst
  rw [hfirst, Option.bind_some, ofDate_midnight]

theorem preMonth_eq (ht : t.date = some (.on n)) {k : Nat} (hk : k < 2 ^ 15)
    (h : InRange (monthStart (months.index n - k))) :
    t.preMonth k = some (midnight (monthStart (months.index n - k))) := by
  obtain ⟨hn, -⟩ := of_date ht
  rw [Int.sub_eq_add_neg] at h ⊢
  have hfirst := addMonths_first hn h
  simp only [preMonth, ht, Option.bind_eq_bind, Option.bind_some, Option.pure_def]
  rw [monthCount_eq hk, ← Option.bind_assoc, ← Option.bind_assoc]
  rw [← Option.bind_assoc] at hfirst
  rw [hfirst, Option.bind_some, ofDate_midnight]

/-- Months back undo months on, up to the day of the month, where the
functor keeps their number. -/
theorem preMonth_nextMonth (ht : t.date = some (.on n)) {k : Nat} (hk : k < 2 ^ 15)
    (h : InRange (monthStart (months.index n + k))) :
    (t.nextMonth k).bind (·.preMonth k) = t.startOfMonth := by
  have hindex : months.index (monthStart (months.index n + k)) - k = months.index n := by
    rw [show months.index (monthStart (months.index n + k)) = _ from months.index_start _]
    omega
  have hn := inRange_monthStart.mpr (inRange_iff_month.mp (of_date ht).1)
  rw [nextMonth_eq ht hk h, Option.bind_some, preMonth_eq (date_midnight h) hk (by rwa [hindex]),
    hindex, startOfMonth_eq ht]

/-! ## Years -/

theorem startOfYear_eq (ht : t.date = some (.on n)) :
    t.startOfYear = some (midnight (years.start (years.index n))) := by
  obtain ⟨hn, -⟩ := of_date ht
  have hyear := inRange_iff_month.mp hn
  simp only [startOfYear, ht, Date.ymd_on hn, Option.bind_eq_bind, Option.bind_some, years_start,
    years_index_month]
  exact ofYmd_first (by omega) (by omega) (by omega) (by omega) (by omega)

theorem endOfYear_eq (ht : t.date = some (.on n)) :
    t.endOfYear = some (lastSecond (years.start (years.index n + 1) - 1)) := by
  obtain ⟨hn, -⟩ := of_date ht
  have hyear := inRange_iff_month.mp hn
  simp only [endOfYear, ht, Date.ymd_on hn, Option.bind_eq_bind, Option.bind_some, years_start,
    years_index_month]
  exact ofYmd_last (by omega) (by omega) (by omega) (by omega) rfl (by omega)

/-- A step of years, once the target is computed. -/
theorem make_year {j : Int} (h : InRange (years.start j)) :
    Date.make (IntType.int32.wrap j) 1 1 = some (.on (years.start j)) := by
  rw [years_start, inRange_monthStart] at h
  rw [years_start, int32_wrap (by omega) (by omega)]
  exact Date.make_first (by omega) (by omega) (by omega) (by omega) (by omega)

theorem nextYear_eq (ht : t.date = some (.on n)) (k : Nat)
    (h : InRange (years.start (years.index n + k))) :
    t.nextYear k = some (midnight (years.start (years.index n + k))) := by
  obtain ⟨hn, -⟩ := of_date ht
  simp only [nextYear, ht, Date.ymd_on hn, Option.bind_eq_bind, Option.bind_some, Option.pure_def]
  rw [← years_index_month, make_year h, Option.bind_some, ofDate_midnight]

theorem preYear_eq (ht : t.date = some (.on n)) (k : Nat)
    (h : InRange (years.start (years.index n - k))) :
    t.preYear k = some (midnight (years.start (years.index n - k))) := by
  obtain ⟨hn, -⟩ := of_date ht
  simp only [preYear, ht, Date.ymd_on hn, Option.bind_eq_bind, Option.bind_some, Option.pure_def]
  rw [← years_index_month, make_year h, Option.bind_some, ofDate_midnight]

theorem preYear_nextYear (ht : t.date = some (.on n)) (k : Nat)
    (h : InRange (years.start (years.index n + k))) :
    (t.nextYear k).bind (·.preYear k) = t.startOfYear := by
  have hindex : years.index (years.start (years.index n + k)) - k = years.index n := by
    rw [Tiling.index_start]
    omega
  have hn : InRange (years.start (years.index n)) := by
    rw [years_start, inRange_monthStart, years_index_month]
    have hyear := inRange_iff_month.mp (of_date ht).1
    omega
  rw [nextYear_eq ht k h, Option.bind_some, preYear_eq (date_midnight h) k (by rwa [hindex]),
    hindex, startOfYear_eq ht]

/-! ## Last days of quarters and half-years -/

theorem endOfQuarter_eq (ht : t.date = some (.on n)) :
    t.endOfQuarter =
      some (lastSecond (Part.quarter.tiling.start (Part.quarter.tiling.index n + 1) - 1)) := by
  obtain ⟨hn, -⟩ := of_date ht
  obtain ⟨m, hm, hnumber⟩ := month_eq ht
  have hyear := inRange_iff_month.mp hn
  rw [Part.tiling_index, Part.tiling_start]
  simp only [endOfQuarter, hm, ht, Date.ymd_on hn, Option.bind_eq_bind, Option.bind_some, hnumber,
    Part.months]
  split_ifs
  all_goals
    exact ofYmd_last (by omega) (by omega) (by omega) (by omega) rfl (by omega)

theorem endOfHalfYear_eq (ht : t.date = some (.on n)) :
    t.endOfHalfYear =
      some (lastSecond (Part.half.tiling.start (Part.half.tiling.index n + 1) - 1)) := by
  obtain ⟨hn, -⟩ := of_date ht
  obtain ⟨m, hm, hnumber⟩ := month_eq ht
  have hyear := inRange_iff_month.mp hn
  rw [Part.tiling_index, Part.tiling_start]
  simp only [endOfHalfYear, hm, ht, Date.ymd_on hn, Option.bind_eq_bind, Option.bind_some, hnumber,
    Part.months, Moon.number_june]
  split_ifs
  all_goals
    exact ofYmd_last (by omega) (by omega) (by omega) (by omega) rfl (by omega)

end DateTime

namespace Period

variable {t : DateTime} {n : Int} (p : Period)

/-! ## What the kinds have in common -/

theorem day_start (n : Int) : day.tiling.start (day.tiling.index n) = n := by
  simp only [tiling, Tiling.blocks_start, Tiling.blocks_index]
  omega

theorem day_start_succ (n : Int) : day.tiling.start (day.tiling.index n + 1) = n + 1 := by
  simp only [tiling, Tiling.blocks_start, Tiling.blocks_index]
  omega

theorem week_start_succ (i : Int) : week.tiling.start (i + 1) = week.tiling.start i + 7 := by
  simp only [tiling, Tiling.blocks_start]
  omega

theorem startOf_eq (ht : t.date = some (.on n))
    (h : InRange (p.tiling.start (p.tiling.index n))) :
    p.startOf t = some (.midnight (p.tiling.start (p.tiling.index n))) := by
  cases p with
  | day => rw [day_start]; exact DateTime.startOfDay_eq ht
  | week => exact DateTime.startOfWeek_eq ht h
  | month => exact DateTime.startOfMonth_eq ht
  | quarter => exact Part.quarter.startOf_eq ht
  | halfYear => exact Part.half.startOf_eq ht
  | year => exact DateTime.startOfYear_eq ht

theorem endOf_eq (ht : t.date = some (.on n)) :
    p.endOf t = some (.lastSecond (p.tiling.start (p.tiling.index n + 1) - 1)) := by
  cases p with
  | day => rw [day_start_succ, Int.add_sub_cancel]; exact DateTime.endOfDay_eq ht
  | week => exact DateTime.endOfWeek_eq ht
  | month => exact DateTime.endOfMonth_eq ht
  | quarter => exact DateTime.endOfQuarter_eq ht
  | halfYear => exact DateTime.endOfHalfYear_eq ht
  | year => exact DateTime.endOfYear_eq ht

/-- The day's period and the first day of the next are in range. -/
structure Roomy (n : Int) : Prop where
  start : InRange (p.tiling.start (p.tiling.index n))
  next : InRange (p.tiling.start (p.tiling.index n + 1))

instance (n : Int) : Decidable (p.Roomy n) :=
  decidable_of_iff (InRange (p.tiling.start (p.tiling.index n)) ∧
    InRange (p.tiling.start (p.tiling.index n + 1))) ⟨fun h => ⟨h.1, h.2⟩, fun h => ⟨h.1, h.2⟩⟩

/-- Periods in range on either side leave room. -/
theorem roomy_of_neighbours (hpre : InRange (p.tiling.start (p.tiling.index n - 1)))
    (hnext : InRange (p.tiling.start (p.tiling.index n + 1))) : p.Roomy n where
  start := inRange_of_between hpre hnext (p.tiling.start_mono (by omega))
    (p.tiling.start_mono (by omega))
  next := hnext

theorem next_eq (ht : t.date = some (.on n)) (h : p.Roomy n) :
    p.next t = some (.midnight (p.tiling.start (p.tiling.index n + 1))) := by
  cases p with
  | day => rw [day_start_succ]; exact DateTime.nextDay_eq ht 1
  | week =>
    simp only [next, DateTime.startOfWeek_eq ht h.start, Option.map_some]
    rw [DateTime.midnight_addSeconds, week_start_succ]
  | month => exact DateTime.nextMonth_eq ht (by decide) h.next
  | quarter => exact Part.quarter.next_eq ht h.next
  | halfYear => exact Part.half.next_eq ht h.next
  | year => exact DateTime.nextYear_eq ht 1 h.next

/-- The kind a period is a part of. -/
def whole : Period → Option Period
  | .month => some .quarter
  | .quarter => some .halfYear
  | .halfYear => some .year
  | _ => none

variable {p}

theorem whole_refines {q : Period} (h : p.whole = some q) : p.tiling.Refines q.tiling := by
  cases p <;> cases h
  · exact months.refines_trans _
  · refine Tiling.Refines.trans_left months fun a b hab => ?_
    simp only [Tiling.blocks_index, Part.months] at hab ⊢
    omega
  · refine Tiling.Refines.trans_left months fun a b hab => ?_
    simp only [Tiling.blocks_index, Part.months] at hab ⊢
    omega

/-- A quarter, a half-year or a year starts in range when a day of it
is. -/
theorem inRange_start_of_whole {q : Period} (h : p.whole = some q) (hn : InRange n) :
    InRange (q.tiling.start (q.tiling.index n)) := by
  cases p <;> cases h
  · exact Part.quarter.inRange_start_index hn
  · exact Part.half.inRange_start_index hn
  · rw [inRange_iff_month] at hn
    rw [tiling, years_start, inRange_monthStart, years_index_month]
    omega

/-- A time between the first and the last second of a period is on a day
of it. -/
theorem date_of_between (hroomy : p.Roomy n) {u : Int}
    (h1 : p.tiling.start (p.tiling.index n) * dayTicks ≤ u)
    (h2 : u ≤ (p.tiling.start (p.tiling.index n + 1) - 1) * dayTicks + 86399000000) :
    (DateTime.ticks u).date = some (.on (u / dayTicks)) ∧
      p.tiling.index (u / dayTicks) = p.tiling.index n := by
  obtain ⟨hstart, hnext⟩ := hroomy
  have hday : p.tiling.start (p.tiling.index n) ≤ u / dayTicks ∧
      u / dayTicks < p.tiling.start (p.tiling.index n + 1) := by
    unfold dayTicks at *
    omega
  exact ⟨DateTime.date_ticks u (inRange_of_between hstart hnext hday.1 hday.2.le),
    p.tiling.index_eq_iff.mpr hday⟩

/-- A whole second of a day is before the last one's end. -/
theorem le_of_wholeSecond {count last : Int} (hwhole : 1000000 ∣ count)
    (h : count / dayTicks ≤ last) : count ≤ last * dayTicks + 86399000000 := by
  unfold dayTicks at *
  omega

end Period

open DateTime in
/-- What the functions of `p` do at a time: it is between the two ends of
its period, as is every other time that has these ends; a second after
the end the next period starts; and a period that is part of a larger one
lies within it. -/
def Period.TilesAt (p : Period) (count : Int) : Prop :=
  ∃ s e : Int, p.startOf (.ticks count) = some (.ticks s) ∧
    p.endOf (.ticks count) = some (.ticks e) ∧ s ≤ count ∧ count ≤ e ∧
    (∀ u, s ≤ u → u ≤ e →
      p.startOf (.ticks u) = some (.ticks s) ∧ p.endOf (.ticks u) = some (.ticks e)) ∧
    p.next (.ticks count) = some ((ticks e).addSeconds 1) ∧
    p.startOf ((ticks e).addSeconds 1) = some ((ticks e).addSeconds 1) ∧
    ∀ q, p.whole = some q → ∃ v w, q.startOf (.ticks count) = some (.ticks v) ∧
      q.endOf (.ticks count) = some (.ticks w) ∧ v ≤ s ∧ e ≤ w

open DateTime in
/-- Periods tile time, at every whole second. -/
theorem periods_tile (p : Period) {count : Int} (hwhole : 1000000 ∣ count)
    (hroomy : p.Roomy (count / dayTicks)) : p.TilesAt count := by
  have hlo := p.tiling.start_index_le (count / dayTicks)
  have hhi := p.tiling.lt_start_succ (count / dayTicks)
  have hle : count ≤ (p.tiling.start (p.tiling.index (count / dayTicks) + 1) - 1) * dayTicks +
      86399000000 := Period.le_of_wholeSecond hwhole (by omega)
  have hge : p.tiling.start (p.tiling.index (count / dayTicks)) * dayTicks ≤ count :=
    Int.le_trans (Int.mul_le_mul_of_nonneg_right hlo (by decide))
      (Int.ediv_mul_le count (by decide))
  obtain ⟨hdate, -⟩ := Period.date_of_between hroomy hge hle
  refine ⟨_, _, p.startOf_eq hdate hroomy.start, p.endOf_eq hdate, hge, hle, fun u h1 h2 => ?_, ?_,
    ?_, fun q hq => ?_⟩
  · obtain ⟨hu, hindex⟩ := Period.date_of_between hroomy h1 h2
    have hstart := p.startOf_eq hu (by rw [hindex]; exact hroomy.start)
    have hend := p.endOf_eq hu
    rw [hindex] at hstart hend
    exact ⟨hstart, hend⟩
  · rw [p.next_eq hdate hroomy]
    exact congrArg some (lastSecond_addSeconds _).symm
  · have hnext := p.startOf_eq (date_midnight hroomy.next)
    rw [Tiling.index_start] at hnext
    have hsecond := lastSecond_addSeconds (p.tiling.start (p.tiling.index (count / dayTicks) + 1))
    rw [lastSecond] at hsecond
    rw [hsecond]
    exact hnext hroomy.next
  · obtain ⟨hv, hw⟩ := (Period.whole_refines hq).within (count / dayTicks)
    have hq := q.startOf_eq hdate (Period.inRange_start_of_whole hq (of_date hdate).1)
    refine ⟨_, _, hq, q.endOf_eq hdate, ?_, ?_⟩
    · exact Int.mul_le_mul_of_nonneg_right hv (by decide)
    · exact Int.add_le_add_right (Int.mul_le_mul_of_nonneg_right (by omega) (by decide)) _

/-- Noon on 2024-12-31, in a week of two years. -/
theorem periods_tile_new_year :
    Period.week.TilesAt 1735646400000000 ∧ Period.halfYear.TilesAt 1735646400000000 :=
  ⟨periods_tile .week (by decide) (by decide), periods_tile .halfYear (by decide) (by decide)⟩

end HighJump.Time
