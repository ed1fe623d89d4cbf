/-
HighJump.Net.WsAccept — `accept(ep)` and `async_accept(ep)` of
`hj::ws_server` and `hj::ws_server_ssl` (`hj/net/http/ws_server.hpp`):
how a server is bound to another endpoint.

The two classes have the same text here, but for what is done with a peer
once it is there. Closing the old acceptor, constructing the new one and
setting its option may each throw. A `close` that throws has closed the
descriptor all the same, and a constructor that throws leaves no acceptor
behind. What is bound, or was tried to bind, is written down.

`accept` locks `_mu` by hand, and a call that throws on its way leaves it
so; `async_accept` does not look at `_mu`. An `accept` on a locked mutex
does not come back.
-/
import HighJump.Lib.Lts
import HighJump.Net.WsServer

namespace HighJump.Net.WsAccept

open HighJump.Lib
open HighJump.Net.WsServer (Kind)

variable {E : Type}

/-! ## The server -/

/-- `acceptor_t`, with the endpoint it was constructed for. -/
structure Acceptor (E : Type) where
  ep : E
  isOpen : Bool
  deriving DecidableEq, Repr

/-- `locked` is the state of `_mu`, `attempts` are the endpoints of the
acceptors constructed so far, or tried to. -/
structure Server (E : Type) where
  locked : Bool
  closed : Bool
  acceptor : Option (Acceptor E)
  bindedEndpoint : E
  attempts : List E
  deriving DecidableEq, Repr

/-- The constructor; `ep₀` is `endpoint_t()`. -/
def Server.new (ep₀ : E) : Server E :=
  { locked := false, closed := false, acceptor := none, bindedEndpoint := ep₀, attempts := [] }

/-- Which of the three calls throw when they are reached. -/
structure Throws where
  close : Bool
  construct : Bool
  setOption : Bool
  deriving DecidableEq, Repr

/-- What comes of the peer that is accepted. -/
structure Peer where
  acceptThrows : Bool
  handshakeFails : Bool
  upgradeFails : Bool
  deriving DecidableEq, Repr

/-- How a call comes back: with a stream or without one, with
`not_connected`, with an exception, with a handler waiting; or not at
all. -/
inductive Result where
  | stream
  | refused
  | notConnected
  | threw
  | waits
  | blocked
  deriving DecidableEq, Repr

/-! ## Binding -/

/-- `if(_acceptor) { _acceptor->close(); … }`; `accept` resets the pointer
behind it. The `Bool` says that it threw. -/
def Server.closeOld (s : Server E) (reset : Bool) (t : Throws) : Server E × Bool :=
  match s.acceptor with
  | none => (s, false)
  | some a =>
      if t.close then ({ s with acceptor := some { a with isOpen := false } }, true)
      else
        ({ s with acceptor := if reset then none else some { a with isOpen := false } }, false)

/-- From the old acceptor to the new one and the endpoint it is bound to. -/
def Server.rebind (s : Server E) (reset : Bool) (ep : E) (t : Throws) : Server E × Bool :=
  let (s, threw) := s.closeOld reset t
  if threw then (s, true)
  else
    let s := { s with attempts := s.attempts ++ [ep] }
    if t.construct then (s, true)
    else
      let s := { s with acceptor := some { ep, isOpen := true } }
      if t.setOption then (s, true) else ({ s with bindedEndpoint := ep }, false)

def Server.isOpen (s : Server E) : Bool := s.acceptor.any Acceptor.isOpen

/-- `accept(err)`: under a `lock_guard`, so whatever happens `_mu` is free
behind it. -/
def Server.acceptErr (s : Server E) (kind : Kind) (p : Peer) : Result :=
  if s.locked then .blocked
  else if s.closed || !s.isOpen then .notConnected
  else if p.acceptThrows then .threw
  else if kind = .wsServerSsl && p.handshakeFails then .refused
  else if p.upgradeFails then .refused
  else .stream

/-- `async_accept(handler)` -/
def Server.asyncAcceptHandler (s : Server E) : Result :=
  if s.closed || !s.isOpen then .notConnected else .waits

section

variable [DecidableEq E]

/-- `accept(ep, err)` -/
def Server.accept (s : Server E) (kind : Kind) (ep : E) (t : Throws) (p : Peer) :
    Server E × Result :=
  if s.locked then (s, .blocked)
  else if s.bindedEndpoint = ep then (s, s.acceptErr kind p)
  else
    let (s, threw) := { s with locked := true : Server E }.rebind true ep t
    if threw then (s, .threw)
    else
      let s := { s with locked := false }
      (s, s.acceptErr kind p)

/-- `async_accept(ep, handler)` -/
def Server.asyncAccept (s : Server E) (ep : E) (t : Throws) : Server E × Result :=
  if s.closed then (s, .notConnected)
  else if s.bindedEndpoint = ep then (s, s.asyncAcceptHandler)
  else
    let (s, threw) := s.rebind false ep t
    if threw then (s, .threw) else (s, s.asyncAcceptHandler)

/-! ## Runs -/

inductive Call (E : Type) where
  | accept (ep : E) (t : Throws) (p : Peer)
  | asyncAccept (ep : E) (t : Throws)
  deriving DecidableEq, Repr

def Server.call (s : Server E) (kind : Kind) : Call E → Server E × Result
  | .accept ep t p => s.accept kind ep t p
  | .asyncAccept ep t => s.asyncAccept ep t

def acceptLts (kind : Kind) (ep₀ : E) : Lts (Server E) (Call E) where
  init s := s = .new ep₀
  step s c s' := s' = (s.call kind c).1

end

end HighJump.Net.WsAccept
