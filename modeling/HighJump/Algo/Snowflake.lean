/-
HighJump.Algo.Snowflake — the snowflake id engine of `hj/algo/uuid.hpp`,
as a system of threads sharing one engine.

`next_id` holds `_mu` for its whole body except one gap: after a small
backward clock step it unlocks, sleeps and locks again. So a call is one
critical section (`nextIdLock`) or two (`nextIdLock`, then
`nextIdRelock`), and between the two any other thread may run. The
embedding follows that cut: one definition per critical section, a
program counter per thread, one label per section.

The clock is not modelled: a section receives the list of readings it
makes, in order, and nothing at all is assumed about them. A section
whose `_wait_next_millis` never reads a later time does not finish
(`none`); it keeps the lock, so no label is emitted for it.

Times, ids, the sequence and the worker id are `uint64_t` in the source
and `UInt64` here, wrap-around included.
-/
import HighJump.Lib.Lts
import Mathlib.Algebra.Ring.Nat

namespace HighJump.Algo.Snowflake

open HighJump.Lib

/-! ## The engine -/

/-- `_worker_idbits`. -/
def workerIdBits : UInt64 := 10
/-- `_seqbits`. -/
def seqBits : UInt64 := 12
/-- `max_worker_id`. -/
def maxWorkerId : UInt64 := (1 <<< workerIdBits) - 1
/-- `_seqmask`. -/
def seqMask : UInt64 := (1 <<< seqBits) - 1
/-- `_worker_idshift`. -/
def workerIdShift : UInt64 := seqBits
/-- `timestamp_shift`. -/
def timestampShift : UInt64 := seqBits + workerIdBits
/-- `epoch`: 2025-01-01 00:00:00 UTC in milliseconds. -/
def epoch : UInt64 := 1735689600000
/-- `max_backward_ms`. -/
def maxBackwardMs : UInt64 := 5000

/-- `snowflake_engine`. The two bounds are what the constructor, the
setter and the mask in `next_id` establish; as fields they hold of every
engine that can be built. -/
structure SnowflakeEngine where
  workerId : UInt64
  seq : UInt64
  lastTimestamp : UInt64
  workerId_le : workerId ≤ maxWorkerId
  seq_le : seq ≤ seqMask

/-- The constructor; `none` is its `std::invalid_argument`. -/
def SnowflakeEngine.mk? (workerId : UInt64) : Option SnowflakeEngine :=
  if h : workerId ≤ maxWorkerId then
    some { workerId, seq := 0, lastTimestamp := 0, workerId_le := h, seq_le := by decide }
  else none

/-- `reset_worker_id`; `none` is its `std::invalid_argument`. -/
def SnowflakeEngine.resetWorkerId (e : SnowflakeEngine) (workerId : UInt64) :
    Option SnowflakeEngine :=
  if h : workerId ≤ maxWorkerId then some { e with workerId, workerId_le := h } else none

/-- `_wait_next_millis` over the readings still to come: the first one
past `lastTime`, with the readings left after it. -/
def waitNextMillis (lastTime : UInt64) : List UInt64 → Option (UInt64 × List UInt64)
  | [] => none
  | timestamp :: clock =>
      if timestamp ≤ lastTime then waitNextMillis lastTime clock
      else some (timestamp, clock)

/-- What `next_id` put into one id. -/
structure Issued where
  timestamp : UInt64
  workerId : UInt64
  seq : UInt64
  deriving DecidableEq, Repr

/-- The `return` expression of `next_id`. -/
def Issued.id (i : Issued) : UInt64 :=
  ((i.timestamp - epoch) <<< timestampShift) ||| (i.workerId <<< workerIdShift) ||| i.seq

theorem and_seqMask_le (x : UInt64) : x &&& seqMask ≤ seqMask := UInt64.and_le_right

/-- The last two statements of `next_id`: store the accepted timestamp
and sequence and build the id from them. -/
def SnowflakeEngine.accept (e : SnowflakeEngine) (timestamp seq : UInt64)
    (h : seq ≤ seqMask) : SnowflakeEngine × Issued :=
  ({ e with seq, lastTimestamp := timestamp, seq_le := h },
   { timestamp, workerId := e.workerId, seq })

/-- `next_id` from its sequence step on, with a timestamp that is not
behind `_last_timestamp`. -/
def SnowflakeEngine.finish (e : SnowflakeEngine) (timestamp : UInt64) (clock : List UInt64) :
    Option (SnowflakeEngine × Issued) :=
  if timestamp = e.lastTimestamp then
    let seq := (e.seq + 1) &&& seqMask
    if seq = 0 then
      (waitNextMillis e.lastTimestamp clock).map fun r =>
        e.accept r.1 seq (and_seqMask_le _)
    else some (e.accept timestamp seq (and_seqMask_le _))
  else some (e.accept timestamp 0 (by decide))

/-- How a critical section of `next_id` ends. -/
inductive Outcome where
  /-- `std::runtime_error`: the clock moved back too much. -/
  | threw
  /-- The lock is released and the thread sleeps `offset` milliseconds. -/
  | asleep (offset : UInt64)
  /-- `next_id` returns. -/
  | returned (i : Issued)
  deriving DecidableEq, Repr

/-- The first critical section of `next_id`. -/
def SnowflakeEngine.nextIdLock (e : SnowflakeEngine) :
    List UInt64 → Option (SnowflakeEngine × Outcome)
  | [] => none
  | timestamp :: clock =>
      if timestamp < e.lastTimestamp then
        let offset := e.lastTimestamp - timestamp
        if maxBackwardMs < offset then some (e, .threw) else some (e, .asleep offset)
      else (e.finish timestamp clock).map fun r => (r.1, .returned r.2)

/-- The second critical section of `next_id`, after the sleep. The
engine may have moved on in between. -/
def SnowflakeEngine.nextIdRelock (e : SnowflakeEngine) :
    List UInt64 → Option (SnowflakeEngine × Outcome)
  | [] => none
  | timestamp :: clock =>
      if timestamp < e.lastTimestamp then
        (waitNextMillis e.lastTimestamp clock).bind fun w =>
          (e.finish w.1 w.2).map fun r => (r.1, .returned r.2)
      else (e.finish timestamp clock).map fun r => (r.1, .returned r.2)

/-! ## Threads -/

/-- Where a thread is: outside `next_id`, or inside it, asleep without
the lock. -/
inductive Pc where
  | idle
  | asleep
  deriving DecidableEq, Repr

/-- One lock-protected section, with the clock readings it makes. -/
inductive Section where
  | lock (clock : List UInt64)
  | relock (clock : List UInt64)
  | resetWorkerId (workerId : UInt64)
  deriving DecidableEq, Repr

/-- The engine and the threads `τ` that share it. -/
structure Sys (τ : Type) where
  engine : SnowflakeEngine
  pc : τ → Pc

variable {τ : Type} [DecidableEq τ]

/-- The program counter a section of `next_id` leaves its thread at. -/
def Outcome.pc : Outcome → Pc
  | .asleep _ => .asleep
  | _ => .idle

/-- Thread `t` runs one section. `none` in the result's second component
is a `reset_worker_id`, which answers nothing; a rejected worker id
throws and changes nothing. -/
def Sys.run (s : Sys τ) (t : τ) : Section → Option (Sys τ × Option Outcome)
  | .lock clock =>
      if s.pc t = .idle then
        (s.engine.nextIdLock clock).map fun r =>
          ({ engine := r.1, pc := Function.update s.pc t r.2.pc }, some r.2)
      else none
  | .relock clock =>
      if s.pc t = .asleep then
        (s.engine.nextIdRelock clock).map fun r =>
          ({ engine := r.1, pc := Function.update s.pc t r.2.pc }, some r.2)
      else none
  | .resetWorkerId w =>
      if s.pc t = .idle then
        some ({ s with engine := (s.engine.resetWorkerId w).getD s.engine }, none)
      else none

/-- A label: the thread, the section it ran and how the section ended. -/
structure Event (τ : Type) where
  thread : τ
  section_ : Section
  outcome : Option Outcome

/-- The snowflake system: a fresh engine with every thread idle, then the
sections of any thread in any order. -/
def lts (τ : Type) [DecidableEq τ] : Lts (Sys τ) (Event τ) where
  init s := (∃ w, SnowflakeEngine.mk? w = some s.engine) ∧ ∀ t, s.pc t = .idle
  step s a s' := s.run a.thread a.section_ = some (s', a.outcome)

/-- The id an event hands out, if it is a section that returns one. -/
def Event.issued? (a : Event τ) : Option Issued :=
  match a.outcome with
  | some (.returned i) => some i
  | _ => none

/-- The ids a run handed out, in the order the calls left their final
critical section. -/
def issued (tr : List (Event τ)) : List Issued := tr.filterMap Event.issued?

end HighJump.Algo.Snowflake
