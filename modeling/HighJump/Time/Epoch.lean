/-
HighJump.Time.Epoch — sub-second times from their three constructors.

`date_time(time, ms)` and `from_ms_since_epoch` multiply milliseconds by
1000 to get Boost's microseconds, and `ms_since_epoch` reads them back.
`date_time(timeval)` does the same to a count that is in microseconds
already, so it agrees with the others on whole seconds only.
-/
import HighJump.Time.DateTime

namespace HighJump.Time

/-- One part alone keeps its sign. -/
theorem timeDuration_fs (x : Int) : timeDuration 0 0 0 x = x := by
  unfold timeDuration
  split <;> omega

theorem timeDuration_seconds (x : Int) : timeDuration 0 0 x 0 = x * 1000000 := by
  unfold timeDuration
  split <;> omega

namespace DateTime

theorem ofTime_eq (s m : Int) : ofTime s m = .ticks (1000 * (1000 * s + m)) := by
  rw [ofTime, fromTimeTicks, timeDuration_seconds, timeDuration_fs]
  congr 1
  omega

theorem fromMsSinceEpoch_eq (ms : Int) : fromMsSinceEpoch ms = .ticks (1000 * ms) := by
  rw [fromMsSinceEpoch, timeDuration_fs, epochTicks]
  congr 1
  omega

theorem ofTimeval_eq (tv : Timeval) :
    ofTimeval tv = .ticks (1000000 * tv.tvSec + 1000 * tv.tvUsec) := by
  rw [ofTimeval, fromTimeTicks, timeDuration_seconds, timeDuration_fs]
  congr 1
  omega

/-- Milliseconds are read back, before the epoch too. -/
theorem msSinceEpoch_ticks (ms : Int) : msSinceEpoch (.ticks (1000 * ms)) = some ms := by
  rw [msSinceEpoch, epochTicks, Int.sub_zero, Int.mul_tdiv_cancel_left ms (by decide)]

/-- Two of the constructors always agree, and what they build is read
back. -/
theorem ofTime_eq_fromMs (s m : Int) :
    ofTime s m = fromMsSinceEpoch (1000 * s + m) ∧
      msSinceEpoch (ofTime s m) = some (1000 * s + m) := by
  rw [ofTime_eq, fromMsSinceEpoch_eq, msSinceEpoch_ticks]
  exact ⟨rfl, rfl⟩

/-- The three agree on the milliseconds of a second, and it is read back,
exactly where there are none. -/
theorem subseconds_agree_iff (s m : Int) :
    (ofTime s m = ofTimeval ⟨s, 1000 * m⟩ ∧ ofTime s m = fromMsSinceEpoch (1000 * s + m) ∧
      msSinceEpoch (ofTime s m) = some (1000 * s + m)) ↔ m = 0 := by
  obtain ⟨hms, hread⟩ := ofTime_eq_fromMs s m
  constructor
  · rintro ⟨htv, -, -⟩
    rw [ofTime_eq, ofTimeval_eq] at htv
    have hticks := DateTime.ticks.inj htv
    dsimp only at hticks
    omega
  · rintro rfl
    refine ⟨?_, hms, hread⟩
    rw [ofTime_eq, ofTimeval_eq]
    congr 1
    dsimp only
    omega

/-- One millisecond after the epoch, taken for a second. -/
theorem timeval_off :
    ¬ ∀ s m : Int, 0 ≤ m → m < 1000 → InRange ((1000000 * s + 1000 * m) / dayTicks) →
      ofTime s m = ofTimeval ⟨s, 1000 * m⟩ ∧ ofTime s m = fromMsSinceEpoch (1000 * s + m) ∧
        msSinceEpoch (ofTime s m) = some (1000 * s + m) := by
  intro h
  have htv := (h 0 1 (by decide) (by decide) (by decide)).1
  revert htv
  decide

end DateTime

end HighJump.Time
