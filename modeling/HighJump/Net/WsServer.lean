/-
HighJump.Net.WsServer — `async_close` of `hj::ws_server` and
`hj::ws_server_ssl` of `hj/net/http/ws_server.hpp`.

The two functions are the same text but for one line: `ws_server` returns
from inside its loop behind the first close it starts (`Kind.afterClose`).
A close that was started completes at any later time, in any order with
the others and with what is left of the loop; its completion counts
`left` down and may call the handler.

The streams are Beast's. What the function uses of them is `is_open`, and
an `async_close` whose handler is called once. `is_open` may or may not be
false between the start of a close and its completion (a close waits for
a write that is under way), and is false behind it.
-/
import HighJump.Lib.Lts
import Mathlib.Algebra.Ring.Nat
import Mathlib.Logic.Function.Basic

namespace HighJump.Net.WsServer

open HighJump.Lib

/-- The two classes. -/
inductive Kind where
  | wsServer
  | wsServerSsl
  deriving DecidableEq, Repr

/-- What the user's handler is called with: `{}`, or
`boost::asio::error::not_connected`. -/
inductive Err where
  | success
  | notConnected
  deriving DecidableEq, Repr

/-- What is seen from outside, in the order it happens: the close started
on a stream, its completion, a call of the user's handler, and the return
of the server's `async_close`. -/
inductive Event where
  | asyncClose (ws : Nat)
  | completed (ws : Nat)
  | handler (e : Err)
  | returned
  deriving DecidableEq, Repr

/-- Where the call is: in its loop with these entries to come (`none` is
a null pointer), about to return, or back. -/
inductive Phase where
  | looping (rest : List (Option Nat))
  | leaving
  | done
  deriving DecidableEq, Repr

/-- `ws_server` itself: `acceptor` says whether `_acceptor` is set,
`bindedEndpoint` has an address and a port. -/
structure Server where
  closed : Bool
  acceptor : Bool
  bindedEndpoint : Option (String × Nat)
  deriving DecidableEq, Repr

/-- The arguments of the call, and on which class it is made. -/
structure Call where
  kind : Kind
  handler : Bool
  conns : List (Option Nat)
  deriving DecidableEq, Repr

/-- `pending` are the closes started and not completed. -/
structure State where
  server : Server
  isOpen : Nat → Bool
  left : Nat
  phase : Phase
  pending : List Nat
  log : List Event

/-- `_closed.store(true)`, the acceptor closed and reset, the endpoint
cleared. -/
def Server.shut (server : Server) : Server :=
  { server with closed := true, acceptor := false, bindedEndpoint := none }

/-- `if(handler) handler(e);` -/
def State.callHandler (s : State) (handler : Bool) (e : Err) : State :=
  if handler then { s with log := s.log ++ [.handler e] } else s

/-- `async_close` up to its loop. -/
def State.enter (c : Call) (server : Server) (isOpen : Nat → Bool) : State :=
  if server.closed then
    { server := server, isOpen := isOpen, left := 0, phase := .leaving, pending := [],
      log := [] : State }.callHandler c.handler .notConnected
  else
    { server := server.shut, isOpen := isOpen, left := c.conns.length,
      phase := .looping c.conns, pending := [], log := [] }

/-- Behind a close that was started `ws_server` returns and
`ws_server_ssl` goes on. -/
def Kind.afterClose (kind : Kind) (rest : List (Option Nat)) : Phase :=
  match kind with
  | .wsServer => .leaving
  | .wsServerSsl => .looping rest

/-- `ws->async_close(…)`. `seen` says whether `is_open` shows it. -/
def State.startClose (s : State) (kind : Kind) (ws : Nat) (rest : List (Option Nat))
    (seen : Bool) : State :=
  { s with isOpen := if seen then Function.update s.isOpen ws false else s.isOpen,
           phase := kind.afterClose rest, pending := s.pending ++ [ws],
           log := s.log ++ [.asyncClose ws] }

/-- `--n` on a `size_t`. -/
def decr (n : Nat) : Nat := if n = 0 then 2 ^ 64 - 1 else n - 1

/-- A close completes: `if(--(*left) > 0 || !handler) return; handler({});` -/
def State.complete (s : State) (handler : Bool) (ws : Nat) : State :=
  let s := { s with isOpen := Function.update s.isOpen ws false, left := decr s.left,
                    pending := s.pending.erase ws, log := s.log ++ [.completed ws] }
  if 0 < s.left then s else s.callHandler handler .success

inductive Action where
  | skip
  | startClose (ws : Nat) (seen : Bool)
  | fallOut
  | ret
  | complete (ws : Nat)
  deriving DecidableEq, Repr

/-- One step, of the call or of a close it has started. -/
inductive Step (c : Call) : State → Action → State → Prop where
  | skipNull {s : State} {rest : List (Option Nat)} : s.phase = .looping (none :: rest) →
      Step c s .skip { s with phase := .looping rest }
  | skipClosed {s : State} {ws : Nat} {rest : List (Option Nat)} :
      s.phase = .looping (some ws :: rest) → s.isOpen ws = false →
      Step c s .skip { s with phase := .looping rest }
  | startClose {s : State} {ws : Nat} {rest : List (Option Nat)} {seen : Bool} :
      s.phase = .looping (some ws :: rest) → s.isOpen ws = true →
      Step c s (.startClose ws seen) (s.startClose c.kind ws rest seen)
  /-- `if(handler) handler({});` behind the loop. -/
  | fallOut {s : State} : s.phase = .looping [] →
      Step c s .fallOut { s.callHandler c.handler .success with phase := .leaving }
  | ret {s : State} : s.phase = .leaving →
      Step c s .ret { s with phase := .done, log := s.log ++ [.returned] }
  | complete {s : State} {ws : Nat} : ws ∈ s.pending →
      Step c s (.complete ws) (s.complete c.handler ws)

/-- One call of `async_close`. -/
def closeLts (c : Call) (server : Server) (isOpen : Nat → Bool) : Lts State Action where
  init s := s = .enter c server isOpen
  step := Step c

end HighJump.Net.WsServer
