/-
HighJump.Time.Stepping — quarters and half-years, forward and back.

Forward, the target is divided into years and parts; backward, years are
taken off until it is not below zero. Both come to the first day of the
part whose number is the sum or the difference (`Part.next_eq`,
`Part.pre_eq`), so steps compose as numbers do.
-/
import HighJump.Time.DateTimeTheorems

namespace HighJump.Time

open HighJump.Lib HighJump.Lib.Gregorian

namespace Part

theorem months_pos (part : Part) : 0 < part.months := by
  cases part <;> decide

/-- The parts as a tiling of the days. -/
def tiling (part : Part) : Tiling Int :=
  Gregorian.months.trans (.blocks part.months 0 part.months_pos)

theorem tiling_index (part : Part) (n : Int) :
    part.tiling.index n = Gregorian.months.index n / part.months := by
  rw [tiling, Tiling.trans_index, Tiling.blocks_index, Int.add_zero]

theorem tiling_start (part : Part) (j : Int) :
    part.tiling.start j = monthStart (part.months * j) := by
  rw [tiling, Tiling.trans_start, Tiling.blocks_start, Int.sub_zero]
  rfl

theorem inRange_start {part : Part} {j : Int} :
    InRange (part.tiling.start j) ↔ 1400 ≤ part.months * j / 12 ∧ part.months * j / 12 ≤ 9999 := by
  rw [tiling_start, inRange_monthStart]

/-- Parts carried over into years. -/
theorem carry (part : Part) (q k : Int) :
    q / part.perYear + (q % part.perYear + k) / part.perYear = (q + k) / part.perYear ∧
      (q % part.perYear + k) % part.perYear = (q + k) % part.perYear := by
  cases part
  · simp only [perYear]
    omega
  · simp only [perYear]
    omega

/-- A year and a part of it make a month. -/
theorem make_part (part : Part) {j : Int} (h : InRange (part.tiling.start j)) :
    Date.make (j / part.perYear) (j % part.perYear * part.months + 1) 1 =
      some (.on (part.tiling.start j)) := by
  rw [inRange_start] at h
  rw [tiling_start]
  cases part
  · simp only [months, perYear] at h ⊢
    exact Date.make_first (by omega) (by omega) (by omega) (by omega) (by omega)
  · simp only [months, perYear] at h ⊢
    exact Date.make_first (by omega) (by omega) (by omega) (by omega) (by omega)

/-- The loop borrows as often as floor division does. -/
theorem borrow_eq (part : Part) (target targetYear : Int) (h : target < part.perYear) :
    part.borrow target targetYear =
      (target % part.perYear, targetYear + target / part.perYear) := by
  induction target, targetYear using borrow.induct part with
  | case1 target targetYear hneg ih =>
    rw [borrow, if_pos hneg, ih (by cases part <;> simp only [perYear] at * <;> omega)]
    cases part <;> simp only [perYear, Prod.mk.injEq] <;> omega
  | case2 target targetYear hpos =>
    rw [borrow, if_neg hpos, Int.emod_eq_of_lt (by omega) h, Int.ediv_eq_zero_of_lt (by omega) h,
      Int.add_zero]

/-- Between years of Boost's there are not a million parts. -/
theorem index_bounds (part : Part) {n : Int} (h : InRange n) :
    0 ≤ part.tiling.index n ∧ part.tiling.index n < 40000 := by
  rw [inRange_iff_month] at h
  rw [tiling_index]
  cases part
  · simp only [months]
    omega
  · simp only [months]
    omega

theorem emod_perYear_mem (part : Part) (q : Int) :
    0 ≤ q % part.perYear ∧ q % part.perYear < part.perYear ∧ part.perYear ≤ 4 := by
  cases part
  · simp only [perYear]
    omega
  · simp only [perYear]
    omega

variable {t : DateTime} {d : Int} {k : Nat}

/-- What both directions read: the year, and the part of it. -/
theorem current_eq (part : Part) (h : InRange d) :
    ∃ p, (Date.on d).ymd = some p ∧ p.year = part.tiling.index d / part.perYear ∧
      (p.month - 1).tdiv part.months = part.tiling.index d % part.perYear := by
  refine ⟨_, Date.ymd_on h, ?_, ?_⟩
  · rw [tiling_index]
    cases part
    · simp only [months, perYear]
      omega
    · simp only [months, perYear]
      omega
  · rw [tiling_index, Int.add_sub_cancel, Int.tdiv_eq_ediv_of_nonneg (by omega)]
    cases part
    · simp only [months, perYear]
      omega
    · simp only [months, perYear]
      omega

/-- `next_quarter(k)` and `next_half_year(k)`: the start of the `k`-th
part on. -/
theorem next_eq (part : Part) (ht : t.date = some (.on d))
    (h : InRange (part.tiling.start (part.tiling.index d + k))) :
    part.next t k = some (.midnight (part.tiling.start (part.tiling.index d + k))) := by
  obtain ⟨hd, -⟩ := DateTime.of_date ht
  obtain ⟨p, hp, hyear, hcurrent⟩ := part.current_eq hd
  have hidx := part.index_bounds hd
  have htarget := part.index_bounds h
  have hmake := part.make_part h
  rw [Tiling.index_start] at htarget
  generalize part.tiling.index d = q at *
  have hmod := part.emod_perYear_mem q
  obtain ⟨hdiv, hrem⟩ := part.carry q k
  simp only [next, ht, hp, Option.bind_eq_bind, Option.bind_some, Option.pure_def]
  rw [hcurrent, hyear, int32_wrap (by omega) (by omega), Int.tdiv_eq_ediv_of_nonneg (by omega),
    Int.tmod_eq_emod_of_nonneg (by omega), hdiv, hrem, hmake, Option.bind_some,
    DateTime.ofDate_midnight]

/-- `pre_quarter(k)` and `pre_half_year(k)`: the start of the `k`-th part
back. -/
theorem pre_eq (part : Part) (ht : t.date = some (.on d))
    (h : InRange (part.tiling.start (part.tiling.index d - k))) :
    part.pre t k = some (.midnight (part.tiling.start (part.tiling.index d - k))) := by
  obtain ⟨hd, -⟩ := DateTime.of_date ht
  obtain ⟨p, hp, hyear, hcurrent⟩ := part.current_eq hd
  have hidx := part.index_bounds hd
  have htarget := part.index_bounds h
  have hmake := part.make_part h
  rw [Tiling.index_start] at htarget
  generalize part.tiling.index d = q at *
  have hmod := part.emod_perYear_mem q
  obtain ⟨hdiv, hrem⟩ := part.carry q (-k)
  rw [← Int.sub_eq_add_neg, ← Int.sub_eq_add_neg] at hdiv hrem
  simp only [pre, ht, hp, Option.bind_eq_bind, Option.bind_some, Option.pure_def]
  rw [hcurrent, hyear, int32_wrap (by omega) (by omega), borrow_eq part _ _ (by omega)]
  dsimp only
  rw [hdiv, hrem, hmake, Option.bind_some, DateTime.ofDate_midnight]

/-- `start_of_quarter` and `start_of_half_year`. -/
def startOf : Part → DateTime → Option DateTime
  | .quarter => DateTime.startOfQuarter
  | .half => DateTime.startOfHalfYear

theorem startOf_eq (part : Part) (ht : t.date = some (.on d)) :
    part.startOf t = some (.midnight (part.tiling.start (part.tiling.index d))) := by
  obtain ⟨hd, -⟩ := DateTime.of_date ht
  obtain ⟨m, hm, hnumber⟩ := DateTime.month_eq ht
  have hyear := inRange_iff_month.mp hd
  rw [tiling_index, tiling_start]
  cases part with
  | quarter =>
    simp only [startOf, DateTime.startOfQuarter, hm, ht, Date.ymd_on hd, Option.bind_eq_bind,
      Option.bind_some, hnumber, months]
    split_ifs
    all_goals
      exact DateTime.ofYmd_first (by omega) (by omega) (by omega) (by omega) (by omega)
  | half =>
    simp only [startOf, DateTime.startOfHalfYear, hm, ht, Date.ymd_on hd, Option.bind_eq_bind,
      Option.bind_some, hnumber, months, Moon.number_june]
    split_ifs
    all_goals
      exact DateTime.ofYmd_first (by omega) (by omega) (by omega) (by omega) (by omega)

/-! ## Steps compose -/

/-- A part starts in range when a day of it is. -/
theorem inRange_start_index (part : Part) (h : InRange d) :
    InRange (part.tiling.start (part.tiling.index d)) := by
  rw [inRange_iff_month] at h
  rw [inRange_start, tiling_index]
  cases part
  · simp only [months]
    omega
  · simp only [months]
    omega

theorem inRange_start_between (part : Part) {i j l : Int} (hi : InRange (part.tiling.start i))
    (hl : InRange (part.tiling.start l)) (hij : i ≤ j) (hjl : j ≤ l) :
    InRange (part.tiling.start j) :=
  inRange_of_between hi hl (part.tiling.start_mono hij) (part.tiling.start_mono hjl)

/-- The date of a part's start, for the next step. -/
theorem date_start (part : Part) {j : Int} (h : InRange (part.tiling.start j)) :
    (DateTime.midnight (part.tiling.start j)).date = some (.on (part.tiling.start j)) :=
  DateTime.date_midnight h

theorem next_next (part : Part) (ht : t.date = some (.on d)) (a b : Nat)
    (h : InRange (part.tiling.start (part.tiling.index d + a + b))) :
    ∃ u v, part.next t a = some u ∧ part.next u b = some v ∧ part.next t (a + b) = some v := by
  have hstart := part.inRange_start_index (DateTime.of_date ht).1
  have hmid := part.inRange_start_between hstart h
    (j := part.tiling.index d + a) (by omega) (by omega)
  have hsum : part.tiling.index d + a + b = part.tiling.index d + ((a + b : Nat) : Int) := by omega
  refine ⟨_, _, part.next_eq ht hmid, part.next_eq (part.date_start hmid) ?_, ?_⟩
  · rw [Tiling.index_start]
    exact h
  · rw [hsum] at h
    rw [Tiling.index_start, hsum]
    exact part.next_eq ht h

theorem pre_pre (part : Part) (ht : t.date = some (.on d)) (a b : Nat)
    (h : InRange (part.tiling.start (part.tiling.index d - a - b))) :
    ∃ u v, part.pre t a = some u ∧ part.pre u b = some v ∧ part.pre t (a + b) = some v := by
  have hstart := part.inRange_start_index (DateTime.of_date ht).1
  have hmid := part.inRange_start_between h hstart
    (j := part.tiling.index d - a) (by omega) (by omega)
  have hsum : part.tiling.index d - a - b = part.tiling.index d - ((a + b : Nat) : Int) := by omega
  refine ⟨_, _, part.pre_eq ht hmid, part.pre_eq (part.date_start hmid) ?_, ?_⟩
  · rw [Tiling.index_start]
    exact h
  · rw [hsum] at h
    rw [Tiling.index_start, hsum]
    exact part.pre_eq ht h

theorem pre_next (part : Part) (ht : t.date = some (.on d)) (n : Nat)
    (h : InRange (part.tiling.start (part.tiling.index d + n))) :
    ∃ u v, part.next t n = some u ∧ part.pre u n = some v ∧ part.startOf t = some v := by
  have hstart := part.inRange_start_index (DateTime.of_date ht).1
  have hback : part.tiling.index d + n - n = part.tiling.index d := by omega
  refine ⟨_, _, part.next_eq ht h, part.pre_eq (part.date_start h) ?_, ?_⟩
  · rw [Tiling.index_start, hback]
    exact hstart
  · rw [Tiling.index_start, hback]
    exact part.startOf_eq ht

theorem next_pre (part : Part) (ht : t.date = some (.on d)) (n : Nat)
    (h : InRange (part.tiling.start (part.tiling.index d - n))) :
    ∃ u v, part.pre t n = some u ∧ part.next u n = some v ∧ part.startOf t = some v := by
  have hstart := part.inRange_start_index (DateTime.of_date ht).1
  have hback : part.tiling.index d - n + n = part.tiling.index d := by omega
  refine ⟨_, _, part.pre_eq ht h, part.next_eq (part.date_start h) ?_, ?_⟩
  · rw [Tiling.index_start, hback]
    exact hstart
  · rw [Tiling.index_start, hback]
    exact part.startOf_eq ht

/-- Half-year `j` starts where quarter `2 * j` does. -/
theorem half_start (j : Int) : half.tiling.start j = quarter.tiling.start (2 * j) := by
  rw [tiling_start, tiling_start]
  congr 1
  simp only [months]
  omega

/-- From the start of a half-year a half is two quarters. -/
theorem next_double {j : Int} (hj : InRange (half.tiling.start j)) (n : Nat)
    (h : InRange (half.tiling.start (j + n))) :
    half.next (.midnight (half.tiling.start j)) n = some (.midnight (half.tiling.start (j + n))) ∧
      quarter.next (.midnight (half.tiling.start j)) (2 * n) =
        some (.midnight (half.tiling.start (j + n))) := by
  constructor
  · have hnext := half.next_eq (k := n) (half.date_start hj)
    rw [Tiling.index_start] at hnext
    exact hnext h
  · have hdouble : 2 * j + ((2 * n : Nat) : Int) = 2 * (j + n) := by omega
    rw [half_start] at hj h ⊢
    have hnext := quarter.next_eq (k := 2 * n) (quarter.date_start hj)
    rw [Tiling.index_start, hdouble] at hnext
    rw [half_start]
    exact hnext h

theorem pre_double {j : Int} (hj : InRange (half.tiling.start j)) (n : Nat)
    (h : InRange (half.tiling.start (j - n))) :
    half.pre (.midnight (half.tiling.start j)) n = some (.midnight (half.tiling.start (j - n))) ∧
      quarter.pre (.midnight (half.tiling.start j)) (2 * n) =
        some (.midnight (half.tiling.start (j - n))) := by
  constructor
  · have hpre := half.pre_eq (k := n) (half.date_start hj)
    rw [Tiling.index_start] at hpre
    exact hpre h
  · have hdouble : 2 * j - ((2 * n : Nat) : Int) = 2 * (j - n) := by omega
    rw [half_start] at hj h ⊢
    have hpre := quarter.pre_eq (k := 2 * n) (quarter.date_start hj)
    rw [Tiling.index_start, hdouble] at hpre
    rw [half_start]
    exact hpre h

end Part

open DateTime in
/-- Stepping by quarters and by half-years is adding to their numbers:
steps one way compose, steps there and back come to the start of the
part, and from the start of a half-year a half is two quarters. -/
theorem stepping_is_action {t : DateTime} {d : Int} (ht : t.date = some (.on d)) :
    (∀ (part : Part) (a b : Nat), InRange (part.tiling.start (part.tiling.index d + a + b)) →
      ∃ u v, part.next t a = some u ∧ part.next u b = some v ∧ part.next t (a + b) = some v) ∧
    (∀ (part : Part) (a b : Nat), InRange (part.tiling.start (part.tiling.index d - a - b)) →
      ∃ u v, part.pre t a = some u ∧ part.pre u b = some v ∧ part.pre t (a + b) = some v) ∧
    (∀ (part : Part) (n : Nat), InRange (part.tiling.start (part.tiling.index d + n)) →
      ∃ u v, part.next t n = some u ∧ part.pre u n = some v ∧ part.startOf t = some v) ∧
    (∀ (part : Part) (n : Nat), InRange (part.tiling.start (part.tiling.index d - n)) →
      ∃ u v, part.pre t n = some u ∧ part.next u n = some v ∧ part.startOf t = some v) ∧
    (∀ n : Nat, InRange (Part.half.tiling.start (Part.half.tiling.index d + n)) →
      ∃ s v, t.startOfHalfYear = some s ∧ s.nextHalfYear n = some v ∧
        s.nextQuarter (2 * n) = some v) ∧
    (∀ n : Nat, InRange (Part.half.tiling.start (Part.half.tiling.index d - n)) →
      ∃ s v, t.startOfHalfYear = some s ∧ s.preHalfYear n = some v ∧
        s.preQuarter (2 * n) = some v) := by
  refine ⟨fun part => part.next_next ht, fun part => part.pre_pre ht, fun part => part.pre_next ht,
    fun part => part.next_pre ht, fun n hn => ?_, fun n hn => ?_⟩
  · have hstart := Part.half.inRange_start_index (of_date ht).1
    obtain ⟨hhalf, hquarter⟩ := Part.next_double hstart n hn
    exact ⟨_, _, Part.half.startOf_eq ht, hhalf, hquarter⟩
  · have hstart := Part.half.inRange_start_index (of_date ht).1
    obtain ⟨hhalf, hquarter⟩ := Part.pre_double hstart n hn
    exact ⟨_, _, Part.half.startOf_eq ht, hhalf, hquarter⟩

/-- From the epoch, across turns of the year. -/
theorem stepping_is_action_epoch :
    (DateTime.ticks 0).date = some (.on 0) ∧
    (∃ u v, DateTime.nextQuarter (.ticks 0) 5 = some u ∧ u.nextQuarter 6 = some v ∧
      DateTime.nextQuarter (.ticks 0) 11 = some v) ∧
    (∃ u v, DateTime.preHalfYear (.ticks 0) 1 = some u ∧ u.preHalfYear 2 = some v ∧
      DateTime.preHalfYear (.ticks 0) 3 = some v) ∧
    (∃ u v, DateTime.nextHalfYear (.ticks 0) 3 = some u ∧ u.preHalfYear 3 = some v ∧
      DateTime.startOfHalfYear (.ticks 0) = some v) ∧
    (∃ u v, DateTime.preQuarter (.ticks 0) 5 = some u ∧ u.nextQuarter 5 = some v ∧
      DateTime.startOfQuarter (.ticks 0) = some v) ∧
    (∃ s v, DateTime.startOfHalfYear (.ticks 0) = some s ∧ s.nextHalfYear 3 = some v ∧
      s.nextQuarter 6 = some v) ∧
    ∃ s v, DateTime.startOfHalfYear (.ticks 0) = some s ∧ s.preHalfYear 3 = some v ∧
      s.preQuarter 6 = some v := by
  have ht : (DateTime.ticks 0).date = some (.on 0) := by decide
  obtain ⟨hnext, hpre, hthere, hback, hon, hoff⟩ := stepping_is_action ht
  exact ⟨ht, hnext .quarter 5 6 (by decide), hpre .half 1 2 (by decide), hthere .half 3 (by decide),
    hback .quarter 5 (by decide), hon 3 (by decide), hoff 3 (by decide)⟩

end HighJump.Time
