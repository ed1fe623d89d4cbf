/-
HighJump.Time.WorkingDays — the n-th working day from a date.

`next_working_day` and `pre_working_day` walk day by day and count the
days the predicate accepts. The predicate answers for midnights, so what
it says is a set of days (`WorkingDays`); the walks come to the days
`IsNthAfter` and `IsNthBefore` name, and the laws between them are those
of counting.
-/
import HighJump.Time.DateTimeTheorems

namespace HighJump.Time

open HighJump.Lib HighJump.Lib.Gregorian DateTime

/-- A predicate's working days: it decides every date, and they go on
without end both ways. -/
structure WorkingDays (fn : IsWorkingDayFn) where
  works : Int → Bool
  decides : ∀ n, InRange n → fn (midnight n) = some (works n)
  after : ∀ n, ∃ d, n < d ∧ works d = true
  before : ∀ n, ∃ d, d < n ∧ works d = true

/-- Monday to Friday, which `get_working_day_func()` starts with. -/
def weekdays : WorkingDays getWorkingDayFunc where
  works n := (n + 4) % 7 != 0 && (n + 4) % 7 != 6
  decides n h := by
    have hw : (n + 4) % 7 = 0 ∨ (n + 4) % 7 = 1 ∨ (n + 4) % 7 = 2 ∨ (n + 4) % 7 = 3 ∨
        (n + 4) % 7 = 4 ∨ (n + 4) % 7 = 5 ∨ (n + 4) % 7 = 6 := by omega
    simp only [getWorkingDayFunc, date_midnight h, Option.bind_eq_bind, Option.bind_some,
      Date.dayOfWeek, if_pos h, Option.pure_def]
    rcases hw with hw | hw | hw | hw | hw | hw | hw <;> rw [hw] <;> rfl
  after n := ⟨7 * ((n + 4) / 7) + 4, by omega, by
    have hmod : (7 * ((n + 4) / 7) + 4 + 4) % 7 = 1 := by omega
    rw [hmod]
    rfl⟩
  before n := ⟨7 * ((n + 4) / 7) - 10, by omega, by
    have hmod : (7 * ((n + 4) / 7) - 10 + 4) % 7 = 1 := by omega
    rw [hmod]
    rfl⟩

namespace WorkingDays

variable {fn : IsWorkingDayFn} (W : WorkingDays fn) {t : DateTime} {n d : Int} {k : Nat}

/-- `d` is the `k`-th working day strictly after day `n`. -/
def NthAfter (n : Int) (k : Nat) (d : Int) : Prop := IsNthAfter (W.works · = true) n k d

/-- `d` is the `k`-th working day strictly before day `n`. -/
def NthBefore (n : Int) (k : Nat) (d : Int) : Prop := IsNthBefore (W.works · = true) n k d

theorem decides_midnight {c : Int} (h : InRange c) :
    fn (midnight c) = some (decide (W.works c = true)) := by
  rw [W.decides c h, Bool.decide_eq_true]

/-- The walk forward. -/
theorem nextWorkingDay_returns (ht : t.date = some (.on n)) (h : W.NthAfter n k d)
    (hd : InRange d) : Returns (t.nextWorkingDay fn k) (midnight d) := by
  obtain ⟨hn, -⟩ := of_date ht
  have hk := IsNthAfter.pos h
  have hbody : t.nextWorkingDay fn k =
      countTo fn (nextDay · 1) k (midnight (Order.succ n)) := by
    funext fuel
    rw [nextWorkingDay, nextDay_eq ht, Option.bind_eq_bind, Option.bind_some, if_neg (by omega)]
    rfl
  rw [hbody]
  refine countTo_returns midnight h (fun c h1 h2 => ?_) (fun c h1 h2 => ?_)
  · exact W.decides_midnight (inRange_of_between hn hd h1.le h2)
  · exact nextDay_eq (date_midnight (inRange_of_between hn hd h1.le h2.le)) 1

/-- The walk back: forward in the dual order. -/
theorem preWorkingDay_returns (ht : t.date = some (.on n)) (h : W.NthBefore n k d)
    (hd : InRange d) : Returns (t.preWorkingDay fn k) (midnight d) := by
  obtain ⟨hn, -⟩ := of_date ht
  have hk := IsNthBefore.pos h
  have hbody : t.preWorkingDay fn k = countTo fn (preDay · 1) k
      (midnight (OrderDual.ofDual (Order.succ (OrderDual.toDual n)))) := by
    funext fuel
    rw [preWorkingDay, preDay_eq ht, Option.bind_eq_bind, Option.bind_some, if_neg (by omega)]
    rfl
  rw [hbody]
  refine countTo_returns (fun c : Intᵒᵈ => midnight (OrderDual.ofDual c))
    (isNthBefore_iff_dual.mp h) (fun c h1 h2 => ?_) (fun c h1 h2 => ?_)
  · exact W.decides_midnight (inRange_of_between hd hn h2 h1.le)
  · exact preDay_eq (date_midnight (inRange_of_between hd hn h2.le h1.le)) 1

/-- The `b`-th working day and the `a`-th after it. -/
theorem nextWorkingDay_add (ht : t.date = some (.on n)) {a b : Nat} (ha : 1 ≤ a) (hb : 1 ≤ b)
    (h : W.NthAfter n (b + a) d) (hd : InRange d) :
    ∃ u, Returns (t.nextWorkingDay fn b) u ∧ Returns (u.nextWorkingDay fn a) (midnight d) := by
  obtain ⟨e, he, hed⟩ := IsNthAfter.split ha hb h
  have hrange := inRange_of_between (of_date ht).1 hd he.lt.le hed.lt.le
  exact ⟨midnight e, W.nextWorkingDay_returns ht he hrange,
    W.nextWorkingDay_returns (date_midnight hrange) hed hd⟩

theorem preWorkingDay_add (ht : t.date = some (.on n)) {a b : Nat} (ha : 1 ≤ a) (hb : 1 ≤ b)
    (h : W.NthBefore n (b + a) d) (hd : InRange d) :
    ∃ u, Returns (t.preWorkingDay fn b) u ∧ Returns (u.preWorkingDay fn a) (midnight d) := by
  obtain ⟨e, he, hed⟩ := IsNthBefore.split ha hb h
  have hrange := inRange_of_between hd (of_date ht).1 hed.lt.le he.lt.le
  exact ⟨midnight e, W.preWorkingDay_returns ht he hrange,
    W.preWorkingDay_returns (date_midnight hrange) hed hd⟩

end WorkingDays

/-- Working days are counted exactly, so counts add up, and from a
working day the walks undo each other. -/
theorem working_days_counted {fn : IsWorkingDayFn} (W : WorkingDays fn) {t : DateTime} {n : Int}
    (ht : t.date = some (.on n)) :
    (∀ k, 1 ≤ k → (∃! d, W.NthAfter n k d) ∧
      ∀ d, W.NthAfter n k d → InRange d → Returns (t.nextWorkingDay fn k) (midnight d)) ∧
    (∀ k, 1 ≤ k → (∃! d, W.NthBefore n k d) ∧
      ∀ d, W.NthBefore n k d → InRange d → Returns (t.preWorkingDay fn k) (midnight d)) ∧
    (∀ a b d, 1 ≤ a → 1 ≤ b → W.NthAfter n (a + b) d → InRange d →
      ∃ u, Returns (t.nextWorkingDay fn b) u ∧ Returns (u.nextWorkingDay fn a) (midnight d) ∧
        Returns (t.nextWorkingDay fn (a + b)) (midnight d)) ∧
    (∀ a b d, 1 ≤ a → 1 ≤ b → W.NthBefore n (a + b) d → InRange d →
      ∃ u, Returns (t.preWorkingDay fn b) u ∧ Returns (u.preWorkingDay fn a) (midnight d) ∧
        Returns (t.preWorkingDay fn (a + b)) (midnight d)) ∧
    (W.works n = true → ∀ k d, W.NthAfter n k d → InRange d →
      ∃ u, Returns (t.nextWorkingDay fn k) u ∧ Returns (u.preWorkingDay fn k) (midnight n)) ∧
    (W.works n = true → ∀ k d, W.NthBefore n k d → InRange d →
      ∃ u, Returns (t.preWorkingDay fn k) u ∧ Returns (u.nextWorkingDay fn k) (midnight n)) := by
  obtain ⟨hn, -⟩ := of_date ht
  refine ⟨fun k hk => ?_, fun k hk => ?_, fun a b d ha hb h hd => ?_, fun a b d ha hb h hd => ?_,
    fun hw k d h hd => ?_, fun hw k d h hd => ?_⟩
  · obtain ⟨d, hd⟩ := IsNthAfter.exists_nth W.after n hk
    exact ⟨⟨d, hd, fun _ he => IsNthAfter.unique he hd⟩, fun _ => W.nextWorkingDay_returns ht⟩
  · obtain ⟨d, hd⟩ := IsNthBefore.exists_nth W.before n hk
    exact ⟨⟨d, hd, fun _ he => IsNthBefore.unique he hd⟩, fun _ => W.preWorkingDay_returns ht⟩
  · have hboth := W.nextWorkingDay_returns ht h hd
    rw [Nat.add_comm] at h
    obtain ⟨u, hu, hv⟩ := W.nextWorkingDay_add ht ha hb h hd
    exact ⟨u, hu, hv, hboth⟩
  · have hboth := W.preWorkingDay_returns ht h hd
    rw [Nat.add_comm] at h
    obtain ⟨u, hu, hv⟩ := W.preWorkingDay_add ht ha hb h hd
    exact ⟨u, hu, hv, hboth⟩
  · exact ⟨midnight d, W.nextWorkingDay_returns ht h hd,
      W.preWorkingDay_returns (date_midnight hd) (IsNthAfter.reverse h hw) hn⟩
  · exact ⟨midnight d, W.preWorkingDay_returns ht h hd,
      W.nextWorkingDay_returns (date_midnight hd) (IsNthBefore.reverse h hw) hn⟩

/-- From Friday 1970-01-02 two working days on is Tuesday the 6th, over a
weekend, and back. -/
theorem working_days_counted_weekend :
    (∃ u, Returns (DateTime.nextWorkingDay getWorkingDayFunc (midnight 1) 2) u ∧
      Returns (u.preWorkingDay getWorkingDayFunc 2) (midnight 1)) ∧
    ∃ u, Returns (DateTime.nextWorkingDay getWorkingDayFunc (midnight 1) 1) u ∧
      Returns (u.nextWorkingDay getWorkingDayFunc 1) (midnight 5) ∧
        Returns (DateTime.nextWorkingDay getWorkingDayFunc (midnight 1) 2) (midnight 5) := by
  have ht : (midnight 1).date = some (.on 1) := by decide
  have hnth : weekdays.NthAfter 1 2 5 := ⟨by decide, by decide, by decide⟩
  obtain ⟨-, -, hadd, -, hundo, -⟩ := working_days_counted weekdays ht
  exact ⟨hundo (by decide) 2 5 hnth (by decide),
    hadd 1 1 5 (by decide) (by decide) hnth (by decide)⟩

/-! ## `n_day == 0` -/

/-- Seeking is counting to one. -/
theorem seekWorkingDay_eq (fn : IsWorkingDayFn) (step : DateTime → Option DateTime) (fuel : Nat)
    (current : DateTime) :
    seekWorkingDay fn step fuel current = countTo fn step 1 current fuel := by
  induction fuel generalizing current with
  | zero => rfl
  | succ fuel ih =>
    simp only [seekWorkingDay, countTo, repeatUntil, countTurn] at ih ⊢
    cases fn current with
    | none => rfl
    | some working =>
      cases working with
      | true => rfl
      | false =>
        cases step current with
        | none => rfl
        | some next => exact ih next

theorem nextWorkingDay_zero (fn : IsWorkingDayFn) (t : DateTime) :
    t.nextWorkingDay fn 0 = t.nextWorkingDay fn 1 := by
  funext fuel
  simp [nextWorkingDay, seekWorkingDay_eq]

theorem preWorkingDay_zero (fn : IsWorkingDayFn) (t : DateTime) :
    t.preWorkingDay fn 0 = t.preWorkingDay fn 1 := by
  funext fuel
  simp [preWorkingDay, seekWorkingDay_eq]

end HighJump.Time
