/-
HighJump.Time.DateTime — `hj::date_time` (`src/hj/time/date_time.hpp`) on
Boost's `ptime` and `gregorian::date`.

A time is the null time (`NullTime`, plus infinity) or a number of
microseconds since 1970-01-01; a date is plus infinity or a day number.
Boost computes with these numbers unchecked and refuses a year outside
1400 … 9999 when it takes a date apart or puts one together: `none` is
the exception it throws there. Its calendar arithmetic is that of
`HighJump.Lib.Gregorian`. The numbers are integers, without the 64 bits of
a tick count and the 32 bits of a day number, which no day in Boost's years
comes near: what is proved is about such days.
-/
import HighJump.Lib.Gregorian
import HighJump.Lib.MachineInt
import HighJump.Lib.Nth

namespace HighJump.Time

open HighJump.Lib HighJump.Lib.Gregorian

/-! ## Enumerations -/

/-- `hj::weekday`. -/
inductive Weekday where
  | sunday | monday | tuesday | wednesday | thursday | friday | saturday
  deriving DecidableEq, Repr

def Weekday.number : Weekday → Int
  | .sunday => 0
  | .monday => 1
  | .tuesday => 2
  | .wednesday => 3
  | .thursday => 4
  | .friday => 5
  | .saturday => 6

def Weekday.ofNumber : Int → Weekday
  | 1 => .monday
  | 2 => .tuesday
  | 3 => .wednesday
  | 4 => .thursday
  | 5 => .friday
  | 6 => .saturday
  | _ => .sunday

/-- `hj::moon`, the months. -/
inductive Moon where
  | january | february | march | april | may | june | july | august | september | october
  | november | december
  deriving DecidableEq, Repr

def Moon.number : Moon → Int
  | .january => 1
  | .february => 2
  | .march => 3
  | .april => 4
  | .may => 5
  | .june => 6
  | .july => 7
  | .august => 8
  | .september => 9
  | .october => 10
  | .november => 11
  | .december => 12

def Moon.ofNumber : Int → Moon
  | 2 => .february
  | 3 => .march
  | 4 => .april
  | 5 => .may
  | 6 => .june
  | 7 => .july
  | 8 => .august
  | 9 => .september
  | 10 => .october
  | 11 => .november
  | 12 => .december
  | _ => .january

theorem Weekday.number_ofNumber {w : Int} (h0 : 0 ≤ w) (h6 : w ≤ 6) :
    (Weekday.ofNumber w).number = w := by
  have hw : w = 0 ∨ w = 1 ∨ w = 2 ∨ w = 3 ∨ w = 4 ∨ w = 5 ∨ w = 6 := by omega
  rcases hw with rfl | rfl | rfl | rfl | rfl | rfl | rfl <;> rfl

theorem Moon.number_ofNumber {m : Int} (h1 : 1 ≤ m) (h12 : m ≤ 12) :
    (Moon.ofNumber m).number = m := by
  have hm : m = 1 ∨ m = 2 ∨ m = 3 ∨ m = 4 ∨ m = 5 ∨ m = 6 ∨ m = 7 ∨ m = 8 ∨ m = 9 ∨ m = 10 ∨
      m = 11 ∨ m = 12 := by omega
  rcases hm with rfl | rfl | rfl | rfl | rfl | rfl | rfl | rfl | rfl | rfl | rfl | rfl <;> rfl

/-! ## Boost's dates -/

/-- The days whose year `greg_year` takes. -/
def InRange (n : Int) : Prop := 1400 ≤ yearOf n ∧ yearOf n ≤ 9999

instance (n : Int) : Decidable (InRange n) := inferInstanceAs (Decidable (_ ∧ _))

/-- `boost::gregorian::date`. -/
inductive Date where
  | posInfin
  | on (n : Int)
  deriving DecidableEq, Repr

/-- `year_month_day_base`. -/
structure Ymd where
  year : Int
  month : Int
  day : Int
  deriving DecidableEq, Repr

/-- The `unsigned short` of years, months and days. -/
def ushort : IntType := ⟨.w16, false⟩

def short : IntType := ⟨.w16, true⟩

namespace Date

/-- `date(year, month, day)`: the numbers are narrowed, then checked. -/
def make (y m d : Int) : Option Date :=
  let year := ushort.wrap y
  let month := ushort.wrap m
  let day := ushort.wrap d
  if 1400 ≤ year ∧ year ≤ 9999 ∧ 1 ≤ month ∧ month ≤ 12 ∧ 1 ≤ day ∧
      day ≤ daysInMonth year month then
    some (.on (dayNumber year month day))
  else none

/-- `year_month_day()`, and with it `year()`, `month()` and `day()`. -/
def ymd : Date → Option Ymd
  | .posInfin => none
  | .on n => if InRange n then some ⟨yearOf n, monthOf n, dayOf n⟩ else none

/-- 1970-01-01 was a Thursday. -/
def dayOfWeek : Date → Option Weekday
  | .posInfin => none
  | .on n => if InRange n then some (Weekday.ofNumber ((n + 4) % 7)) else none

def endOfMonth (d : Date) : Option Date := do
  let p ← d.ymd
  make p.year p.month (daysInMonth p.year p.month)

/-- `date + date_duration(k)`; only a day in range is the one Boost comes
to. -/
def addDays : Date → Int → Date
  | .posInfin, _ => .posInfin
  | .on n, k => .on (n + k)

/-- `date + months(k)`: the last day of a month goes to the last day of
a month, another day at most there. -/
def addMonths (d : Date) (k : Int) : Option Date := do
  let p ← d.ymd
  let i := 12 * p.year + (p.month - 1) + k
  let year := i / 12
  let month := i % 12 + 1
  let last := daysInMonth year month
  make year month (if p.day = daysInMonth p.year p.month then last else min p.day last)

end Date

/-! ## Times -/

/-- `_tm`. -/
inductive DateTime where
  | null
  | ticks (count : Int)
  deriving DecidableEq, Repr

/-- Microseconds a day. -/
def dayTicks : Int := 86400000000

/-- `time_duration(hours, minutes, seconds, fs)` in ticks: one negative
part makes the whole negative. -/
def timeDuration (hours minutes seconds fs : Int) : Int :=
  if hours < 0 ∨ minutes < 0 ∨ seconds < 0 ∨ fs < 0 then
    -((hours.natAbs * 3600 + minutes.natAbs * 60 + seconds.natAbs) * 1000000 + fs.natAbs)
  else (hours * 3600 + minutes * 60 + seconds) * 1000000 + fs

namespace DateTime

/-- `date_time(date, hour, minute, seconds, ms)`. -/
def ofDate (d : Date) (hour minute seconds ms : Int) : DateTime :=
  match d with
  | .posInfin => .null
  | .on n => .ticks (n * dayTicks + timeDuration hour minute seconds (ms * 1000))

/-- `date_time(year, month, day, hour, minute, seconds, ms)`. -/
def ofYmd (year month day hour minute seconds ms : Int) : Option DateTime :=
  (Date.make year month day).map fun d => ofDate d hour minute seconds ms

/-- `_tm.date()`. -/
def date : DateTime → Option Date
  | .null => some .posInfin
  | .ticks count => if InRange (count / dayTicks) then some (.on (count / dayTicks)) else none

def dayOfWeek (t : DateTime) : Option Weekday :=
  if t = .null then some .sunday else t.date.bind Date.dayOfWeek

def month (t : DateTime) : Option Moon :=
  if t = .null then some .january else do
    let d ← t.date
    let p ← d.ymd
    pure (Moon.ofNumber p.month)

/-! ### Periods -/

def startOfDay (t : DateTime) : Option DateTime := do
  let d ← t.date
  pure (ofDate d 0 0 0 0)

def endOfDay (t : DateTime) : Option DateTime := do
  let d ← t.date
  let p ← d.ymd
  ofYmd p.year p.month p.day 23 59 59 0

def startOfWeek (t : DateTime) : Option DateTime := do
  let w ← t.dayOfWeek
  let d ← t.date
  if w = .sunday then (ofDate (d.addDays (-6)) 0 0 0 0).startOfDay
  else (ofDate (d.addDays (1 - w.number)) 0 0 0 0).startOfDay

def endOfWeek (t : DateTime) : Option DateTime := do
  let w ← t.dayOfWeek
  let d ← t.date
  if w = .sunday then pure (ofDate d 23 59 59 0)
  else pure (ofDate (d.addDays (7 - w.number)) 23 59 59 0)

def startOfMonth (t : DateTime) : Option DateTime := do
  let d ← t.date
  let p ← d.ymd
  let m ← t.month
  ofYmd p.year m.number 1 0 0 0 0

def endOfMonth (t : DateTime) : Option DateTime := do
  let d ← t.date
  let e ← d.endOfMonth
  pure (ofDate e 23 59 59 0)

def startOfQuarter (t : DateTime) : Option DateTime := do
  let m ← t.month
  let d ← t.date
  let p ← d.ymd
  if m.number ≤ 3 then ofYmd p.year 1 1 0 0 0 0
  else if m.number ≤ 6 then ofYmd p.year 4 1 0 0 0 0
  else if m.number ≤ 9 then ofYmd p.year 7 1 0 0 0 0
  else ofYmd p.year 10 1 0 0 0 0

def endOfQuarter (t : DateTime) : Option DateTime := do
  let m ← t.month
  let d ← t.date
  let p ← d.ymd
  if m.number ≤ 3 then ofYmd p.year 3 31 23 59 59 0
  else if m.number ≤ 6 then ofYmd p.year 6 30 23 59 59 0
  else if m.number ≤ 9 then ofYmd p.year 9 30 23 59 59 0
  else ofYmd p.year 12 31 23 59 59 0

def startOfHalfYear (t : DateTime) : Option DateTime := do
  let m ← t.month
  let d ← t.date
  let p ← d.ymd
  if m.number ≤ Moon.june.number then ofYmd p.year 1 1 0 0 0 0 else ofYmd p.year 7 1 0 0 0 0

def endOfHalfYear (t : DateTime) : Option DateTime := do
  let m ← t.month
  let d ← t.date
  let p ← d.ymd
  if m.number ≤ Moon.june.number then ofYmd p.year 6 30 23 59 59 0
  else ofYmd p.year 12 31 23 59 59 0

def startOfYear (t : DateTime) : Option DateTime := do
  let d ← t.date
  let p ← d.ymd
  ofYmd p.year 1 1 0 0 0 0

def endOfYear (t : DateTime) : Option DateTime := do
  let d ← t.date
  let p ← d.ymd
  ofYmd p.year 12 31 23 59 59 0

/-! ### Steps -/

def nextDay (t : DateTime) (n : Nat) : Option DateTime := do
  let d ← t.date
  pure (ofDate (d.addDays n) 0 0 0 0)

def preDay (t : DateTime) (n : Nat) : Option DateTime := do
  let d ← t.date
  pure (ofDate (d.addDays (-n)) 0 0 0 0)

/-- `months(n)` takes an `int`, and the functor that adds it goes on with
a `short`. -/
def monthCount (n : Nat) : Int := short.wrap (IntType.int32.wrap n)

def nextMonth (t : DateTime) (n : Nat) : Option DateTime := do
  let currentDate ← t.date
  let targetDate ← currentDate.addMonths (monthCount n)
  let p ← targetDate.ymd
  let d ← Date.make p.year p.month 1
  pure (ofDate d 0 0 0 0)

def preMonth (t : DateTime) (n : Nat) : Option DateTime := do
  let currentDate ← t.date
  let targetDate ← currentDate.addMonths (-monthCount n)
  let p ← targetDate.ymd
  let d ← Date.make p.year p.month 1
  pure (ofDate d 0 0 0 0)

/-- `int target_year = _tm.date().year() + n`. -/
def nextYear (t : DateTime) (n : Nat) : Option DateTime := do
  let d ← t.date
  let p ← d.ymd
  let targetYear := IntType.int32.wrap (p.year + n)
  let d' ← Date.make targetYear 1 1
  pure (ofDate d' 0 0 0 0)

def preYear (t : DateTime) (n : Nat) : Option DateTime := do
  let d ← t.date
  let p ← d.ymd
  let targetYear := IntType.int32.wrap (p.year - n)
  let d' ← Date.make targetYear 1 1
  pure (ofDate d' 0 0 0 0)

end DateTime

/-- The parts a year is stepped through in. -/
inductive Part where
  | quarter
  | half
  deriving DecidableEq, Repr

namespace Part

/-- The literals of the two pairs of functions. -/
def months : Part → Int
  | .quarter => 3
  | .half => 6

def perYear : Part → Int
  | .quarter => 4
  | .half => 2

/-- `next_quarter` and `next_half_year`: the sum is computed on
`uint64_t` and kept in an `int`. -/
def next (part : Part) (t : DateTime) (n : Nat) : Option DateTime := do
  let d ← t.date
  let p ← d.ymd
  let current := (p.month - 1).tdiv part.months
  let target := IntType.int32.wrap (current + n)
  let targetYear := p.year + target.tdiv part.perYear
  let targetMonth := target.tmod part.perYear * part.months + 1
  let d' ← Date.make targetYear targetMonth 1
  pure (DateTime.ofDate d' 0 0 0 0)

/-- `while(target < 0) { target += perYear; target_year--; }`. -/
def borrow (part : Part) (target targetYear : Int) : Int × Int :=
  if target < 0 then part.borrow (target + part.perYear) (targetYear - 1) else (target, targetYear)
termination_by (-target).toNat
decreasing_by
  cases part <;> simp only [perYear] <;> omega

/-- `pre_quarter` and `pre_half_year`. -/
def pre (part : Part) (t : DateTime) (n : Nat) : Option DateTime := do
  let d ← t.date
  let p ← d.ymd
  let current := (p.month - 1).tdiv part.months
  let (target, targetYear) := part.borrow (IntType.int32.wrap (current - n)) p.year
  let targetMonth := target * part.months + 1
  let d' ← Date.make targetYear targetMonth 1
  pure (DateTime.ofDate d' 0 0 0 0)

end Part

namespace DateTime

def nextQuarter : DateTime → Nat → Option DateTime := Part.quarter.next

def preQuarter : DateTime → Nat → Option DateTime := Part.quarter.pre

def nextHalfYear : DateTime → Nat → Option DateTime := Part.half.next

def preHalfYear : DateTime → Nat → Option DateTime := Part.half.pre

/-! ### Working days -/

/-- `is_working_day_fn`; `none` is an exception it lets out. -/
abbrev IsWorkingDayFn := DateTime → Option Bool

/-- What `get_working_day_func()` holds at first: Monday to Friday. -/
def getWorkingDayFunc : IsWorkingDayFn := fun t => do
  let d ← t.date
  let day ← d.dayOfWeek
  pure (day != .saturday && day != .sunday)

/-- `while(!current.is_working_day()) current = step(current);`. -/
def seekWorkingDay (fn : IsWorkingDayFn) (step : DateTime → Option DateTime) (fuel : Nat)
    (current : DateTime) : Option DateTime :=
  repeatUntil (fun _ (c : DateTime) => (fn c).bind fun working =>
    if working then some (Turn.exit c) else (step c).map .again) fuel current

def nextWorkingDay (fn : IsWorkingDayFn) (t : DateTime) (nDay : Nat) (fuel : Nat) :
    Option DateTime := do
  let current ← t.nextDay 1
  if nDay = 0 then seekWorkingDay fn (nextDay · 1) fuel current
  else countTo fn (nextDay · 1) nDay current fuel

def preWorkingDay (fn : IsWorkingDayFn) (t : DateTime) (nDay : Nat) (fuel : Nat) :
    Option DateTime := do
  let current ← t.preDay 1
  if nDay = 0 then seekWorkingDay fn (preDay · 1) fuel current
  else countTo fn (preDay · 1) nDay current fuel

/-! ### The epoch -/

/-- `boost::posix_time::from_time_t`, in ticks. -/
def fromTimeTicks (seconds : Int) : Int := timeDuration 0 0 seconds 0

/-- `date_time(time, ms)`. -/
def ofTime (time ms : Int) : DateTime :=
  .ticks (fromTimeTicks time + timeDuration 0 0 0 (ms * 1000))

/-- `timeval`. -/
structure Timeval where
  tvSec : Int
  tvUsec : Int
  deriving DecidableEq, Repr

/-- `date_time(tv)`: the microseconds are multiplied as milliseconds
would be. -/
def ofTimeval (tv : Timeval) : DateTime :=
  .ticks (fromTimeTicks tv.tvSec + timeDuration 0 0 0 (tv.tvUsec * 1000))

/-- `epoch_time()`. -/
def epochTicks : Int := 0

/-- `from_ms_since_epoch(ms)`. -/
def fromMsSinceEpoch (ms : Int) : DateTime := .ticks (epochTicks + timeDuration 0 0 0 (ms * 1000))

/-- `ms_since_epoch()`: `total_milliseconds()` cuts the ticks toward
zero. The null time is no number of ticks from anything. -/
def msSinceEpoch : DateTime → Option Int
  | .null => none
  | .ticks count => some ((count - epochTicks).tdiv 1000)

end DateTime

end HighJump.Time
