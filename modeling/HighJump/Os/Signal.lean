/-
HighJump.Os.Signal — `hj::sighandler` of `hj/os/signal.hpp`.

`_handle` may run at any moment and only stores the number of the signal;
callbacks are run by `poll`, which any thread may call. `poll` is two
steps, the exchange of `_sig_last` and what it does under the lock, and
`sigcatch` is one. A callback is the number of the `sigcatch` it came
with. Whether a delivery takes the handler away again is the system's.
-/
import HighJump.Lib.Lts
import Mathlib.Logic.Function.Basic

namespace HighJump.Os.Signal

open HighJump.Lib

/-- What the system does with a signal. -/
inductive Disposition where
  | byDefault
  | handle
  | ignore
  deriving DecidableEq, Repr

/-- `taken` are the signals of the polls between their exchange and their
lock. The last five fields are ghost: the calls of `sigcatch`, the signals
`_handle` saw, those of them that were overwritten before a poll and those
a poll found no callback for, and the callbacks that were run. -/
structure State where
  sigLast : Int
  callbacks : Int → Option Nat
  oneShoot : Int → Option Bool
  disposition : Int → Disposition
  taken : List Int
  caught : List (Int × Bool)
  arrived : List Int
  overwritten : List Int
  unclaimed : List Int
  ran : List (Int × Nat)

def State.new : State :=
  { sigLast := 0, callbacks := fun _ => none, oneShoot := fun _ => none,
    disposition := fun _ => .byDefault, taken := [], caught := [], arrived := [],
    overwritten := [], unclaimed := [], ran := [] }

/-- `::signal(sig, …)` -/
def State.signal (s : State) (sig : Int) (d : Disposition) : State :=
  { s with disposition := Function.update s.disposition sig d }

/-- `sigcatch(sig, cb, one_shoot)` -/
def State.sigcatch (s : State) (sig : Int) (oneShoot : Bool) : State :=
  { s with callbacks := Function.update s.callbacks sig (some s.caught.length),
           oneShoot := Function.update s.oneShoot sig (some oneShoot),
           caught := s.caught ++ [(sig, oneShoot)] }.signal sig .handle

/-- `sigignore(sigs)` -/
def State.sigignore (s : State) (sigs : List Int) : State :=
  sigs.foldl (fun s sig => s.signal sig .ignore) s

/-- `_handle(sig)` -/
def State.handle (s : State) (sig : Int) : State :=
  { s with sigLast := sig, arrived := s.arrived ++ [sig],
           overwritten := if 0 < s.sigLast then s.overwritten ++ [s.sigLast] else s.overwritten }

/-- `poll()` up to its lock. -/
def State.exchange (s : State) : State :=
  if s.sigLast ≤ 0 then { s with sigLast := 0 }
  else { s with sigLast := 0, taken := s.taken ++ [s.sigLast] }

/-- `poll()` behind it. -/
def State.run (s : State) (sig : Int) : State :=
  let s := { s with taken := s.taken.erase sig }
  match s.callbacks sig with
  | none => { s with unclaimed := s.unclaimed ++ [sig] }
  | some cb =>
    let s := { s with ran := s.ran ++ [(sig, cb)] }
    let one := (s.oneShoot sig).getD false
    let s := { s with oneShoot := Function.update s.oneShoot sig (some one) }
    if one then { s with callbacks := Function.update s.callbacks sig none,
                         oneShoot := Function.update s.oneShoot sig none }
    else s.signal sig .handle

inductive Event where
  | sigcatch (sig : Int) (oneShoot : Bool)
  | sigignore (sigs : List Int)
  | arrive (sig : Int) (reset : Bool)
  | exchange
  | run (sig : Int)
  deriving DecidableEq, Repr

inductive Step : State → Event → State → Prop where
  | sigcatch {s : State} {sig : Int} {oneShoot : Bool} :
      Step s (.sigcatch sig oneShoot) (s.sigcatch sig oneShoot)
  | sigignore {s : State} {sigs : List Int} : Step s (.sigignore sigs) (s.sigignore sigs)
  | arrive {s : State} {sig : Int} {reset : Bool} : 0 < sig → s.disposition sig = .handle →
      Step s (.arrive sig reset) (if reset then (s.handle sig).signal sig .byDefault else s.handle sig)
  | exchange {s : State} : Step s .exchange s.exchange
  | run {s : State} {sig : Int} : sig ∈ s.taken → Step s (.run sig) (s.run sig)

def lts : Lts State Event where
  init s := s = .new
  step := Step

end HighJump.Os.Signal
