/-
HighJump.Testing.ErrorHandler — `hj::error_handler` of
`hj/testing/error_handler.hpp`.

The handler is a Boost.SML machine with the table of
`detail::error_handler_impl` and a queue for errors that are matched while
another one is being handled (`Lib.Deferral`). A call of `match` is known
by its number among the calls on the handler, so that what becomes of its
callback can be followed; a callback is an empty function or it is not,
and does not call back into the handler. `on_transition` is never empty.
SML sets the new state before it runs the action, the model behind it;
neither callback is given the handler, so neither sees the difference.

`match` hands its callback on without looking at it, and it is empty when
none is given. Calling it throws out of a `noexcept` function, which ends
the program: nothing happens on a handler that `threw`.
-/
import HighJump.Lib.Lts
import HighJump.Lib.Deferral

namespace HighJump.Testing.ErrorHandler

open HighJump.Lib

variable {T : Type}

/-! ## The table -/

inductive State where
  | idle
  | handling
  | failed
  | succed
  deriving DecidableEq, Repr

/-- `err_event`: `id` is the number of the call of `match` that made it,
`cb` says that its function is not empty. -/
structure ErrEvent (T : Type) where
  id : Nat
  ec : T
  cb : Bool
  deriving DecidableEq, Repr

inductive Event (T : Type) where
  | errEvent (e : ErrEvent T)
  | finish
  | fail
  | abort
  | reset
  deriving DecidableEq, Repr

/-- What the table's lambdas do: `e.cb(e.ec)`, then
`on_transition(src, dst)`. -/
structure Action (T : Type) where
  cb : Option (ErrEvent T)
  onTransition : Option (String × String)
  deriving DecidableEq, Repr

/-- `make_transition_table(…)` -/
def react : State → Event T → Reaction State (Action T)
  | .idle, .finish => .take ⟨none, some ("idle", "succed")⟩ .succed
  | .idle, .fail => .take ⟨none, some ("idle", "failed")⟩ .failed
  | .idle, .abort => .take ⟨none, some ("idle", "failed")⟩ .failed
  | .idle, .errEvent e => .take ⟨some e, some ("idle", "handling")⟩ .handling
  | .idle, .reset => .take ⟨none, none⟩ .idle
  | .succed, .finish => .take ⟨none, none⟩ .succed
  | .succed, .abort => .take ⟨none, none⟩ .succed
  | .succed, .errEvent e => .take ⟨some e, some ("succed", "handling")⟩ .handling
  | .succed, .reset => .take ⟨none, some ("succed", "idle")⟩ .idle
  | .succed, .fail => .drop
  | .handling, .finish => .take ⟨none, some ("handling", "succed")⟩ .succed
  | .handling, .fail => .take ⟨none, some ("handling", "failed")⟩ .failed
  | .handling, .reset => .take ⟨none, some ("handling", "idle")⟩ .idle
  | .handling, .abort => .take ⟨none, some ("handling", "failed")⟩ .failed
  | .handling, .errEvent _ => .defer
  | .failed, .reset => .take ⟨none, some ("failed", "idle")⟩ .idle
  | .failed, _ => .drop

/-- Calling an empty function throws. -/
def Action.throws (a : Action T) : Bool := a.cb.any fun e => !e.cb

def table : Table State (Event T) (Action T) := { react, throws := Action.throws }

/-! ## The handler -/

/-- The machine, and how many calls were made on the handler. -/
structure Handler (T : Type) where
  sm : Machine State (Event T) (Action T)
  calls : Nat

def Handler.new : Handler T := { sm := ⟨.idle, [], [], false⟩, calls := 0 }

/-- The member functions that send an event; the destructor is one more
`reset`. -/
inductive Call (T : Type) where
  | matchErr (err : T) (cb : Bool)
  | finish
  | fail
  | abort
  | reset
  deriving DecidableEq, Repr

variable (isOk : T → Bool)

/-- The event of a call, the `id`-th one on the handler. -/
def Call.event (id : Nat) : Call T → Event T
  | .matchErr err cb => if isOk err then .finish else .errEvent ⟨id, err, cb⟩
  | .finish => .finish
  | .fail => .fail
  | .abort => .abort
  | .reset => .reset

def Handler.call (h : Handler T) (c : Call T) : Handler T :=
  { sm := h.sm.processEvent table (c.event isOk h.calls), calls := h.calls + 1 }

/-- The runs of a handler. -/
def handlerLts : Lts (Handler T) (Call T) where
  init h := h = .new
  step h c h' := h.sm.threw = false ∧ h' = h.call isOk c

end HighJump.Testing.ErrorHandler
