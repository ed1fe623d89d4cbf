/-
HighJump.Net.TcpSocket — connecting with `hj::tcp_socket`
(`hj/net/tcp/tcp_socket.hpp`).

Every `async_connect` that is not refused makes a new `boost::asio`
socket, and sockets are numbered in that order; number 0 is the one of the
constructor, on which nothing is started. An attempt is over in two steps:
its outcome is decided, which queues the completion, and later the
completion is delivered. Closing or destroying a socket decides an
undecided attempt as failed, and leaves a queued one as it is. Completions
are delivered in any order, one at a time; a handler that calls back into
the socket is a later call here.

All completions write the same flag. `latest` is a ghost: the last attempt,
unless `disconnect` or `close` has been called since. A call that finds
nothing connected returns at once, so an attempt under way goes on behind
it; it counts as a disconnect nevertheless.
-/
import Mathlib.Logic.Function.Basic
import HighJump.Lib.Lts

namespace HighJump.Net.TcpSocket

open HighJump.Lib

/-! ## Sockets -/

/-- `sock_t`: the outcome of the attempt on it once that is decided, and
whether it was closed. -/
structure Sock where
  result : Option Bool
  closed : Bool
  deriving DecidableEq, Repr

def Sock.new : Sock := { result := none, closed := false }

/-- Closed, or destroyed: an attempt without an outcome is aborted. -/
def Sock.close (k : Sock) : Sock := { result := some (k.result.getD false), closed := true }

structure State where
  /-- `_sock` -/
  sock : Option Nat
  /-- `_is_connected` -/
  connected : Bool
  socks : Nat → Sock
  next : Nat
  /-- The attempts whose completion was not delivered yet. -/
  outstanding : List Nat
  latest : Option Nat

def State.new : State :=
  { sock := some 0, connected := false, socks := fun _ => .new, next := 1, outstanding := [],
    latest := none }

/-- `is_connected()` -/
def State.isConnected (s : State) : Bool := s.sock.isSome && s.connected

/-- Closes what `_sock` points to, which is then replaced or reset. -/
def State.drop (s : State) : Nat → Sock :=
  match s.sock with
  | none => s.socks
  | some k => Function.update s.socks k (s.socks k).close

/-! ## Steps -/

/-- `async_connect(ep, fn)` -/
def State.asyncConnect (s : State) : State :=
  if s.isConnected then s
  else
    { s with
      sock := some s.next
      socks := Function.update s.drop s.next .new
      next := s.next + 1
      outstanding := s.outstanding ++ [s.next]
      latest := some s.next }

/-- `_disconnect_anyway()` -/
def State.disconnectAnyway (s : State) : State :=
  { s with sock := none, connected := false, socks := s.drop, latest := none }

/-- `disconnect()` -/
def State.disconnect (s : State) : State :=
  if s.isConnected then s.disconnectAnyway else { s with latest := none }

/-- `close()` -/
def State.close (s : State) : State :=
  if s.isConnected then s.disconnectAnyway else { s with latest := none }

/-- The attempt on socket `k` has an outcome. -/
def State.decide (s : State) (k : Nat) (ok : Bool) : State :=
  { s with socks := Function.update s.socks k { s.socks k with result := some ok } }

/-- The completion handler of the attempt on socket `k`. -/
def State.deliver (s : State) (k : Nat) : State :=
  match (s.socks k).result with
  | none => s
  | some ok => { s with connected := ok, outstanding := s.outstanding.erase k }

inductive Event where
  | asyncConnect
  | disconnect
  | close
  | decide (k : Nat) (ok : Bool)
  | deliver (k : Nat)
  deriving DecidableEq, Repr

def State.apply (s : State) : Event → State
  | .asyncConnect => s.asyncConnect
  | .disconnect => s.disconnect
  | .close => s.close
  | .decide k ok => s.decide k ok
  | .deliver k => s.deliver k

/-- Only an outstanding attempt is decided, once, and delivered, with an
outcome. -/
def State.Enabled (s : State) : Event → Prop
  | .decide k _ => k ∈ s.outstanding ∧ (s.socks k).result = none
  | .deliver k => k ∈ s.outstanding ∧ (s.socks k).result ≠ none
  | .asyncConnect => True
  | .disconnect => True
  | .close => True

def lts : Lts State Event where
  init s := s = .new
  step s e s' := s.Enabled e ∧ s' = s.apply e

end HighJump.Net.TcpSocket
