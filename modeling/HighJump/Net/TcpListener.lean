/-
HighJump.Net.TcpListener — `hj::tcp_listener` (`hj/net/tcp/tcp_listener.hpp`):
what a listener is bound to, and whether it is closed.

`accept(ep)` and `async_accept(ep, fn)` bind the listener anew in the same
five statements and go on as `accept()` and `async_accept(fn)`. Acceptors,
and which of the calls on one throw, are those of `HighJump.Net.WsAccept`:
a `close` that throws has closed the descriptor all the same. The pointer
is not reset before the new acceptor is constructed, so a constructor that
throws leaves the old one, closed, behind.

`_closed` is read by `close` and by `is_closed`, and by nothing else. The
handlers of `async_accept` do not touch the listener.
-/
import HighJump.Net.WsAccept

namespace HighJump.Net.TcpListener

open HighJump.Lib
open HighJump.Net.WsAccept (Acceptor Throws)

variable {E : Type}

/-! ## The listener -/

structure Listener (E : Type) where
  acceptor : Option (Acceptor E)
  bindedEndpoint : E
  closed : Bool
  deriving DecidableEq, Repr

/-- The constructors; `ep₀` is `endpoint_t()`. -/
def Listener.new (ep₀ : E) : Listener E :=
  { acceptor := none, bindedEndpoint := ep₀, closed := false }

/-- How a call comes back: with a socket, with `nullptr` or for nothing,
with a handler waiting, or with an exception. -/
inductive Result where
  | socket
  | nothing
  | waits
  | threw
  deriving DecidableEq, Repr

/-- `is_closed()` -/
def Listener.isClosed (s : Listener E) : Bool := s.closed

/-- An acceptor after its `close()`. -/
def shut (a : Acceptor E) : Acceptor E := { a with isOpen := false }

/-- From `if(_acceptor) _acceptor->close();` to `_binded_endpoint = ep;`.
The `Bool` says that it threw. -/
def Listener.rebind (s : Listener E) (ep : E) (t : Throws) : Listener E × Bool :=
  let old := s.acceptor.map shut
  if s.acceptor.isSome && t.close then ({ s with acceptor := old }, true)
  else if t.construct then ({ s with acceptor := old }, true)
  else
    let s := { s with acceptor := some { ep, isOpen := true } }
    if t.setOption then (s, true) else ({ s with bindedEndpoint := ep }, false)

/-- `accept()`; `arrives` says that a peer is accepted, without an error
and without an exception. -/
def Listener.acceptNext (s : Listener E) (arrives : Bool) : Result :=
  match s.acceptor with
  | none => .nothing
  | some a => if a.isOpen && arrives then .socket else .nothing

/-- `async_accept(fn)` -/
def Listener.asyncAcceptNext (s : Listener E) : Result :=
  if s.acceptor.isNone then .nothing else .waits

/-- `close()`; the `Bool` says that closing the acceptor throws. -/
def Listener.close (s : Listener E) (ep₀ : E) (throws : Bool) : Listener E × Result :=
  if s.closed then (s, .nothing)
  else
    let s := { s with closed := true }
    if s.acceptor.isSome && throws then ({ s with acceptor := s.acceptor.map shut }, .threw)
    else ({ s with acceptor := none, bindedEndpoint := ep₀ }, .nothing)

section

variable [DecidableEq E]

/-- `accept(ep)` -/
def Listener.accept (s : Listener E) (ep : E) (t : Throws) (arrives : Bool) :
    Listener E × Result :=
  if s.bindedEndpoint = ep then (s, s.acceptNext arrives)
  else
    let (s, threw) := s.rebind ep t
    if threw then (s, .threw) else (s, s.acceptNext arrives)

/-- `async_accept(ep, fn)` -/
def Listener.asyncAccept (s : Listener E) (ep : E) (t : Throws) : Listener E × Result :=
  if s.bindedEndpoint = ep then (s, s.asyncAcceptNext)
  else
    let (s, threw) := s.rebind ep t
    if threw then (s, .threw) else (s, s.asyncAcceptNext)

end

/-! ## Runs -/

inductive Call (E : Type) where
  | accept (ep : E) (t : Throws) (arrives : Bool)
  | acceptNext (arrives : Bool)
  | asyncAccept (ep : E) (t : Throws)
  | asyncAcceptNext
  | close (throws : Bool)
  deriving DecidableEq, Repr

variable [DecidableEq E]

def Listener.call (s : Listener E) (ep₀ : E) : Call E → Listener E × Result
  | .accept ep t arrives => s.accept ep t arrives
  | .acceptNext arrives => (s, s.acceptNext arrives)
  | .asyncAccept ep t => s.asyncAccept ep t
  | .asyncAcceptNext => (s, s.asyncAcceptNext)
  | .close throws => s.close ep₀ throws

def lts (ep₀ : E) : Lts (Listener E) (Call E) where
  init s := s = .new ep₀
  step s c s' := s' = (s.call ep₀ c).1

end HighJump.Net.TcpListener
