/-
HighJump.Sync.Counter — `hj::counter<T>` of `hj/sync/counter.hpp`: a
bounded counter on a `std::atomic<T>`.

Every updating operation of the source is the same loop: load the value,
compute the result, give up if it lies outside the bounds, else try to
swap it in with `compare_exchange_weak`, and start over if that fails.
`update` is the loop as one thread sees it; the swap may then fail only
spuriously, and `fails` says how often it does. What several threads see
of one another is `Sync/CounterTheorems`' business: `bounded` is what they
share with `update`.

Values are integers. The results are computed at the width of the
promoted type, and the bounds are tested on what comes out.
-/
import HighJump.Lib.MachineInt

namespace HighJump.Sync

open HighJump.Lib (IntType)

/-- `counter<T>`. -/
structure Counter where
  value : Int
  min : Int
  max : Int
  step : Int
  deriving DecidableEq, Repr

namespace Counter

/-- `counter(value)`. -/
def ofValue (T : IntType) (value : Int) : Counter :=
  { value, min := T.min, max := T.max, step := 1 }

/-- `counter(value, min)`. -/
def ofMin (T : IntType) (value min : Int) : Counter := { value, min, max := T.max, step := 1 }

/-- `counter(value, min, step)`. -/
def ofMinStep (T : IntType) (value min step : Int) : Counter :=
  { value, min, max := T.max, step }

section Operations

variable (T : IntType)

/-- `result > _max || result < _min`, and the conversion of a result that
passes back to `T`. -/
def bounded (c : Counter) (result : Int) : Option Int :=
  if result > c.max ∨ result < c.min then none else some (T.wrap result)

/-- The loop. Also the value of `tmp` it ends with. -/
def update (c : Counter) (result : Int → Int) : Nat → Counter × Int
  | 0 =>
      match c.bounded T (result c.value) with
      | none => (c, c.value)
      | some new => ({ c with value := new }, c.value)
  | fails + 1 =>
      match c.bounded T (result c.value) with
      | none => (c, c.value)
      | some _ => update c result fails

/-- The operand of an assignment operator: a `T` (or the value of another
counter), or the counter itself. -/
inductive Arg where
  | val (a : Int)
  | self
  deriving DecidableEq, Repr

/-- The operand as it is read when the counter shows `tmp`. -/
def Arg.read : Arg → Int → Int
  | .val a, _ => a
  | .self, tmp => tmp

/-- The updating operations. -/
inductive Op where
  | plusPlus
  | plusPlusPost
  | plusEq (arg : Arg)
  | minusMinus
  | minusMinusPost
  | minusEq (arg : Arg)
  | timesEq (arg : Arg)
  | inc
  | dec
  | reset (value : Int)
  deriving DecidableEq, Repr

/-- The result the source computes from `tmp`; `reset` computes none. -/
def result (c : Counter) : Op → Int → Int
  | .plusPlus, tmp | .plusPlusPost, tmp | .inc, tmp => T.add tmp c.step
  | .minusMinus, tmp | .minusMinusPost, tmp | .dec, tmp => T.sub tmp c.step
  | .plusEq arg, tmp => T.add tmp (arg.read tmp)
  | .minusEq arg, tmp => T.sub tmp (arg.read tmp)
  | .timesEq arg, tmp => T.mul tmp (arg.read tmp)
  | .reset value, _ => value

/-- `reset(value)`: the bounds are tested once, before the loop, and the
swap stores what was asked for. -/
def reset (c : Counter) (value : Int) : Counter :=
  if value > c.max ∨ value < c.min then c else { c with value }

/-- An operation, and the counter it returns: the postfix forms return a
copy with the value before. -/
def exec (c : Counter) (op : Op) (fails : Nat) : Counter × Counter :=
  match op with
  | .plusPlusPost | .minusMinusPost =>
      let (c', tmp) := c.update T (c.result T op) fails
      (c', { c with value := tmp })
  | .reset value => (c.reset value, c.reset value)
  | _ =>
      let (c', _) := c.update T (c.result T op) fails
      (c', c')

/-- The steps of a run: each operation between the counters before and
after it. -/
def steps (c : Counter) : List (Op × Nat) → List (Counter × Op × Counter)
  | [] => []
  | (op, fails) :: ops => (c, op, (c.exec T op fails).1) :: steps (c.exec T op fails).1 ops

end Operations

end Counter

end HighJump.Sync
