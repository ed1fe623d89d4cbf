/-
HighJump.Sync.ThreadPool — `hj::thread_pool` of `hj/sync/thread_pool.hpp`
as a system of threads.

The atomic steps are the sections under `_mu` (of `enqueue`, of a worker,
and the first one of `clear` and of the destructor), the execution of a
task, the join of one worker, and `_is_stop = false` at the end of
`clear`, which the source writes outside the mutex. Any number of callers
enqueue and clear, in any order and also while the destructor runs; once
it has returned there is no pool to call.

A task is the number of its enqueue among those that were accepted. The
wait on the condition variable only decides when a worker's section is
tried, so it is left to the order of steps. An exception of a task is
caught and ends it like any other.
-/
import HighJump.Lib.Lts
import Mathlib.Data.Finset.Card
import Mathlib.Logic.Function.Basic

namespace HighJump.Sync.ThreadPool

open HighJump.Lib

/-- The two constructors. -/
inductive Ctor where
  | threads (nthread : Nat)
  | cores (set : Finset Nat)

/-- How many workers a constructor starts: at least one, or one for each
core, which may be none. -/
def Ctor.workers : Ctor → Nat
  | .threads nthread => if nthread < 1 then 1 else nthread
  | .cores set => set.card

/-- Where a worker is: at the top of its loop, running a task, or gone. -/
inductive Worker where
  | idle
  | running (t : Nat)
  | exited
  deriving DecidableEq, Repr

/-- Where a caller is: outside, or in `clear` with `k` workers joined. -/
inductive Caller where
  | outside
  | clearing (k : Nat)
  deriving DecidableEq, Repr

/-- Where the destructor is. -/
inductive Dtor where
  | notCalled
  | joining (k : Nat)
  | returned
  deriving DecidableEq, Repr

/-- The pool with its `n` workers and its callers. The last three fields
are ghost: how many enqueues were accepted, and the tasks taken from the
queue and finished so far, oldest first. -/
structure Pool (n : Nat) (ι : Type) where
  isStop : Bool
  tasks : List Nat
  workers : Fin n → Worker
  callers : ι → Caller
  dtor : Dtor
  accepted : Nat
  popped : List Nat
  executed : List Nat

inductive Event (n : Nat) (ι : Type) where
  | enqueue (i : ι) (valid : Bool)
  | dequeue (w : Fin n)
  | finish (w : Fin n)
  | exit (w : Fin n)
  | clearStop (i : ι)
  | clearJoin (i : ι)
  | clearReset (i : ι)
  | dtorStop
  | dtorJoin
  | dtorReturn

section System

variable {n : Nat} {ι : Type} [DecidableEq ι]

/-- One step of one thread. -/
inductive Step : Pool n ι → Event n ι → Pool n ι → Prop where
  /-- The future is valid: the pool was not stopped. -/
  | accept {s : Pool n ι} {i : ι} : s.dtor ≠ .returned → s.isStop = false →
      Step s (.enqueue i true)
        { s with tasks := s.tasks ++ [s.accepted], accepted := s.accepted + 1 }
  | refuse {s : Pool n ι} {i : ι} : s.dtor ≠ .returned → s.isStop = true →
      Step s (.enqueue i false) s
  /-- A worker's section that finds a task, stopped or not. -/
  | dequeue {s : Pool n ι} {w : Fin n} {t : Nat} {rest : List Nat} : s.workers w = .idle →
      s.tasks = t :: rest →
      Step s (.dequeue w)
        { s with tasks := rest, workers := Function.update s.workers w (.running t),
                 popped := s.popped ++ [t] }
  | finish {s : Pool n ι} {w : Fin n} {t : Nat} : s.workers w = .running t →
      Step s (.finish w)
        { s with workers := Function.update s.workers w .idle, executed := s.executed ++ [t] }
  /-- A worker's section that returns. -/
  | exit {s : Pool n ι} {w : Fin n} : s.workers w = .idle → s.isStop = true → s.tasks = [] →
      Step s (.exit w) { s with workers := Function.update s.workers w .exited }
  | clearStop {s : Pool n ι} {i : ι} : s.dtor ≠ .returned → s.callers i = .outside →
      Step s (.clearStop i)
        { s with isStop := true, callers := Function.update s.callers i (.clearing 0) }
  | clearJoin {s : Pool n ι} {i : ι} {w : Fin n} : s.dtor ≠ .returned →
      s.callers i = .clearing w → s.workers w = .exited →
      Step s (.clearJoin i) { s with callers := Function.update s.callers i (.clearing (w + 1)) }
  | clearReset {s : Pool n ι} {i : ι} : s.dtor ≠ .returned → s.callers i = .clearing n →
      Step s (.clearReset i)
        { s with isStop := false, callers := Function.update s.callers i .outside }
  | dtorStop {s : Pool n ι} : s.dtor = .notCalled →
      Step s .dtorStop { s with isStop := true, dtor := .joining 0 }
  | dtorJoin {s : Pool n ι} {w : Fin n} : s.dtor = .joining w → s.workers w = .exited →
      Step s .dtorJoin { s with dtor := .joining (w + 1) }
  | dtorReturn {s : Pool n ι} : s.dtor = .joining n → Step s .dtorReturn { s with dtor := .returned }

/-- The pool as the constructor leaves it. -/
def Pool.new : Pool n ι where
  isStop := false
  tasks := []
  workers := fun _ => .idle
  callers := fun _ => .outside
  dtor := .notCalled
  accepted := 0
  popped := []
  executed := []

/-- The system a constructor starts. -/
def poolLts (ctor : Ctor) (ι : Type) [DecidableEq ι] :
    Lts (Pool ctor.workers ι) (Event ctor.workers ι) where
  init s := s = .new
  step := Step

end System

end HighJump.Sync.ThreadPool
