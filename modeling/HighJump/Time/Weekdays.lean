/-
HighJump.Time.Weekdays — the n-th weekday of a kind from a date.

`next_weekday` and `pre_weekday` compute where a walk from day to day would
stop: a weekday comes every seven days, so the first one after a day is at
most seven days on (`first_after`) and the others follow in weeks
(`nth_after`). The weeks are counted from 0. While the day searched for is
in Boost's range, the weeks are far too few for `unsigned long` to wrap.
-/
import HighJump.Time.WorkingDays

namespace HighJump.Time

open HighJump.Lib HighJump.Lib.Gregorian

namespace DateTime

/-- `next_weekday(target_day, n_week)`, in `unsigned long`. -/
def nextWeekday (t : DateTime) (targetDay : Weekday) (nWeek : Nat) : Option DateTime := do
  let w ← t.dayOfWeek
  let currentDay := w.number.toNat
  let target := targetDay.number.toNat
  if target > currentDay then t.nextDay ((target - currentDay + nWeek * 7) % 2 ^ 64)
  else t.nextDay ((7 - (currentDay - target) + nWeek * 7) % 2 ^ 64)

/-- `pre_weekday(target_day, n_week)`. -/
def preWeekday (t : DateTime) (targetDay : Weekday) (nWeek : Nat) : Option DateTime := do
  let w ← t.dayOfWeek
  let currentDay := w.number.toNat
  let target := targetDay.number.toNat
  if target < currentDay then t.preDay ((currentDay - target + nWeek * 7) % 2 ^ 64)
  else t.preDay ((7 - (target - currentDay) + nWeek * 7) % 2 ^ 64)

end DateTime

open DateTime

/-- Day `n` is a `w`. -/
def IsDay (w : Weekday) (n : Int) : Prop := (n + 4) % 7 = w.number

instance (w : Weekday) : DecidablePred (IsDay w) := fun _ => inferInstanceAs (Decidable (_ = _))

variable {w : Weekday} {t : DateTime} {n d : Int} {k : Nat}

theorem Weekday.number_mem (w : Weekday) : 0 ≤ w.number ∧ w.number ≤ 6 := by
  cases w <;> decide

/-! ## Weeks -/

/-- The only one of seven days in a row. -/
theorem first_after (hlt : n < d) (hle : d ≤ n + 7) (hd : IsDay w d) :
    IsNthAfter (IsDay w) n 1 d := by
  refine ⟨hlt, hd, Finset.card_eq_one.mpr ⟨d, ?_⟩⟩
  ext x
  simp only [Finset.mem_filter, Finset.mem_Ioc, Finset.mem_singleton, IsDay] at hd ⊢
  constructor
  · rintro ⟨⟨h1, h2⟩, hx⟩
    omega
  · rintro rfl
    exact ⟨⟨hlt, Int.le_refl _⟩, hd⟩

theorem first_before (hlt : d < n) (hle : n ≤ d + 7) (hd : IsDay w d) :
    IsNthBefore (IsDay w) n 1 d := by
  refine ⟨hlt, hd, Finset.card_eq_one.mpr ⟨d, ?_⟩⟩
  ext x
  simp only [Finset.mem_filter, Finset.mem_Ico, Finset.mem_singleton, IsDay] at hd ⊢
  constructor
  · rintro ⟨⟨h1, h2⟩, hx⟩
    omega
  · rintro rfl
    exact ⟨⟨Int.le_refl _, hlt⟩, hd⟩

theorem nth_after (h : IsNthAfter (IsDay w) n 1 d) (k : Nat) :
    IsNthAfter (IsDay w) n (k + 1) (d + k * 7) := by
  induction k with
  | zero => simpa using h
  | succ k ih =>
    have hday : IsDay w (d + (k + 1 : Nat) * 7) := by
      have hd := h.hit
      simp only [IsDay] at hd ⊢
      omega
    exact ih.add (first_after (by omega) (by omega) hday)

theorem nth_before (h : IsNthBefore (IsDay w) n 1 d) (k : Nat) :
    IsNthBefore (IsDay w) n (k + 1) (d - k * 7) := by
  induction k with
  | zero => simpa using h
  | succ k ih =>
    have hday : IsDay w (d - (k + 1 : Nat) * 7) := by
      have hd := h.hit
      simp only [IsDay] at hd ⊢
      omega
    have hnext := first_before (w := w) (d := d - (k + 1 : Nat) * 7) (n := d - k * 7) (by omega)
      (by omega) hday
    exact isNthBefore_iff_dual.mpr
      ((isNthBefore_iff_dual.mp ih).add (isNthBefore_iff_dual.mp hnext))

/-! ## The steps -/

/-- What `next_weekday` adds to a date. -/
theorem nextWeekday_step (ht : t.date = some (.on n)) (hk : 7 * (k + 1) < 2 ^ 64) :
    ∃ e, n < e ∧ e ≤ n + 7 ∧ IsDay w e ∧ t.nextWeekday w k = some (midnight (e + k * 7)) := by
  have hw := w.number_mem
  have hnumber := Weekday.number_ofNumber (w := (n + 4) % 7) (by omega) (by omega)
  simp only [nextWeekday, dayOfWeek_eq ht, Option.bind_eq_bind, Option.bind_some, hnumber,
    nextDay_eq ht]
  split
  next hgt =>
    refine ⟨n + (w.number - (n + 4) % 7), by omega, by omega, by simp only [IsDay]; omega, ?_⟩
    congr 2
    omega
  next hle =>
    refine ⟨n + (7 - ((n + 4) % 7 - w.number)), by omega, by omega, by simp only [IsDay]; omega, ?_⟩
    congr 2
    omega

theorem preWeekday_step (ht : t.date = some (.on n)) (hk : 7 * (k + 1) < 2 ^ 64) :
    ∃ e, e < n ∧ n ≤ e + 7 ∧ IsDay w e ∧ t.preWeekday w k = some (midnight (e - k * 7)) := by
  have hw := w.number_mem
  have hnumber := Weekday.number_ofNumber (w := (n + 4) % 7) (by omega) (by omega)
  simp only [preWeekday, dayOfWeek_eq ht, Option.bind_eq_bind, Option.bind_some, hnumber,
    preDay_eq ht]
  split
  next hlt =>
    refine ⟨n - ((n + 4) % 7 - w.number), by omega, by omega, by simp only [IsDay]; omega, ?_⟩
    congr 2
    omega
  next hge =>
    refine ⟨n - (7 - (w.number - (n + 4) % 7)), by omega, by omega, by simp only [IsDay]; omega, ?_⟩
    congr 2
    omega

/-! ## Days in range -/

theorem inRange_bounds (h : InRange n) : -208188 ≤ n ∧ n < 2932897 := by
  obtain ⟨hlo, hhi⟩ := h
  rw [← years_index] at hlo hhi
  have hfirst := (years.start_mono hlo).trans (years.start_index_le n)
  have hlast := (years.lt_start_succ n).trans_le (years.start_mono (Int.add_le_add_right hhi 1))
  exact ⟨le_of_eq_of_le (by decide) hfirst, lt_of_lt_of_eq hlast (by decide)⟩

/-- There are not that many weekdays in range. -/
theorem weeks_lt (hn : InRange n) (hd : InRange d) (h : IsNthAfter (IsDay w) n (k + 1) d) :
    7 * (k + 1) < 2 ^ 64 := by
  have hcount := Finset.card_filter_le (Finset.Ioc n d) (IsDay w)
  rw [h.count, Int.card_Ioc] at hcount
  have hlo := inRange_bounds hn
  have hhi := inRange_bounds hd
  omega

theorem weeks_lt_before (hn : InRange n) (hd : InRange d)
    (h : IsNthBefore (IsDay w) n (k + 1) d) : 7 * (k + 1) < 2 ^ 64 := by
  have hcount := Finset.card_filter_le (Finset.Ico d n) (IsDay w)
  rw [h.count, Int.card_Ico] at hcount
  have hlo := inRange_bounds hd
  have hhi := inRange_bounds hn
  omega

theorem nextWeekday_eq (ht : t.date = some (.on n)) (hd : InRange d)
    (h : IsNthAfter (IsDay w) n (k + 1) d) : t.nextWeekday w k = some (midnight d) := by
  obtain ⟨e, hlt, hle, hday, heq⟩ := nextWeekday_step ht (weeks_lt (of_date ht).1 hd h)
  rw [heq, IsNthAfter.unique h (nth_after (first_after hlt hle hday) k)]

theorem preWeekday_eq (ht : t.date = some (.on n)) (hd : InRange d)
    (h : IsNthBefore (IsDay w) n (k + 1) d) : t.preWeekday w k = some (midnight d) := by
  obtain ⟨e, hlt, hle, hday, heq⟩ := preWeekday_step ht (weeks_lt_before (of_date ht).1 hd h)
  rw [heq, IsNthBefore.unique h (nth_before (first_before hlt hle hday) k)]

/-- **Weekdays are counted exactly**, as long as the day searched for is in
Boost's range. `next_weekday(w, k)` is midnight of the `k + 1`-st `w`
strictly after the date and `pre_weekday(w, k)` that of the `k + 1`-st
strictly before it. So two steps are one, with one more week than both
have, and from a `w` the two undo each other. -/
theorem weekdays_counted (w : Weekday) (ht : t.date = some (.on n)) :
    (∀ k d, InRange d → IsNthAfter (IsDay w) n (k + 1) d →
      t.nextWeekday w k = some (midnight d)) ∧
    (∀ k d, InRange d → IsNthBefore (IsDay w) n (k + 1) d →
      t.preWeekday w k = some (midnight d)) ∧
    (∀ a b d, InRange d → IsNthAfter (IsDay w) n (a + 1 + (b + 1)) d →
      (t.nextWeekday w a).bind (·.nextWeekday w b) = t.nextWeekday w (a + b + 1)) ∧
    (∀ a b d, InRange d → IsNthBefore (IsDay w) n (a + 1 + (b + 1)) d →
      (t.preWeekday w a).bind (·.preWeekday w b) = t.preWeekday w (a + b + 1)) ∧
    (IsDay w n → ∀ k d, InRange d → IsNthAfter (IsDay w) n (k + 1) d →
      (t.nextWeekday w k).bind (·.preWeekday w k) = some (midnight n)) ∧
    (IsDay w n → ∀ k d, InRange d → IsNthBefore (IsDay w) n (k + 1) d →
      (t.preWeekday w k).bind (·.nextWeekday w k) = some (midnight n)) := by
  have hn : InRange n := (of_date ht).1
  refine ⟨fun k d hd h => nextWeekday_eq ht hd h, fun k d hd h => preWeekday_eq ht hd h,
    fun a b d hd h => ?_, fun a b d hd h => ?_, fun hday k d hd h => ?_, fun hday k d hd h => ?_⟩
  · -- the day between is in range, as it lies between two that are
    obtain ⟨e, hfirst, hsecond⟩ := h.split (by omega) (by omega)
    have he := inRange_of_between hn hd hfirst.lt.le hsecond.lt.le
    rw [nextWeekday_eq ht he hfirst, Option.bind_some, nextWeekday_eq (date_midnight he) hd hsecond,
      nextWeekday_eq ht hd (k := a + b + 1)
        (by rwa [show a + b + 1 + 1 = a + 1 + (b + 1) by omega])]
  · obtain ⟨e, hfirst, hsecond⟩ :=
      IsNthAfter.split (by omega) (by omega) (isNthBefore_iff_dual.mp h)
    have hfirst := isNthBefore_iff_dual.mpr hfirst
    have hsecond := isNthBefore_iff_dual.mpr hsecond
    have he := inRange_of_between hd hn hsecond.lt.le hfirst.lt.le
    rw [preWeekday_eq ht he hfirst, Option.bind_some, preWeekday_eq (date_midnight he) hd hsecond,
      preWeekday_eq ht hd (k := a + b + 1)
        (by rwa [show a + b + 1 + 1 = a + 1 + (b + 1) by omega])]
  · rw [nextWeekday_eq ht hd h, Option.bind_some, preWeekday_eq (date_midnight hd) hn
      (h.reverse hday)]
  · rw [preWeekday_eq ht hd h, Option.bind_some, nextWeekday_eq (date_midnight hd) hn
      (h.reverse hday)]

/-- From Thursday 1970-01-01 the second Monday is the 12th, and the fourth
is two weeks and one week on from the first. -/
theorem weekdays_counted_monday :
    (midnight 0).nextWeekday .monday 1 = some (midnight 11) ∧
      (midnight 11).nextWeekday .monday 1 = (midnight 0).nextWeekday .monday 3 := by
  have ht : (midnight 0).date = some (.on 0) := by decide
  obtain ⟨hnext, -, hadd, -⟩ := weekdays_counted .monday ht
  have hfirst : IsNthAfter (IsDay .monday) 0 1 4 := ⟨by decide, by decide, by decide⟩
  have hone := hnext 1 11 (by decide) (nth_after hfirst 1)
  have hboth := hadd 1 1 25 (by decide) (nth_after hfirst 3)
  rw [hone, Option.bind_some] at hboth
  exact ⟨hone, hboth⟩

end HighJump.Time
