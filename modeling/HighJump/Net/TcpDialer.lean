/-
HighJump.Net.TcpDialer — the table of connections of `hj::tcp_dialer`
(`hj/net/tcp/tcp_dialer.hpp`).

Any number of calls are under way at once. What is atomic is what `_mu`
makes so: `size`, `is_exist`, `_add`, `_del` and the whole of `close`. So
`dial` is cut behind its size check, behind its connect and behind `_add`,
and `remove` behind `is_exist` and behind the close of the socket. The
part of `async_dial` behind the completion of its connect is a call of its
own.

Sockets are numbered in the order they are made. How a connect ends is the
environment's, and so is when a peer or the caller closes a socket. A
socket nobody points to any more is closed by its destructor.
-/
import HighJump.Lib.Lts
import Mathlib.Logic.Function.Basic

namespace HighJump.Net.TcpDialer

open HighJump.Lib

/-- Where a call is. `async` is `async_dial`, which ends in its handler;
the other ends in a return. -/
inductive Phase where
  | idle
  | connecting (sock : Nat) (async : Bool)
  | connected (sock : Nat) (async : Bool)
  | removing (sock : Nat)
  | closed (sock : Nat)
  deriving DecidableEq, Repr

/-- The dialer, its sockets and its calls. `isConnected` is that of the
sockets. The last two fields are ghost: the sockets that were returned or
handed to a handler, and those of them that `_add` had refused. -/
structure State where
  socks : List Nat
  made : Nat
  isConnected : Nat → Bool
  calls : Nat → Phase
  handed : List Nat
  untracked : List Nat

def State.new : State :=
  { socks := [], made := 0, isConnected := fun _ => false, calls := fun _ => .idle,
    handed := [], untracked := [] }

/-- `size()` -/
def State.size (s : State) : Nat := s.socks.length

/-- `is_exist(sock)` -/
def State.isExist (s : State) (sock : Nat) : Bool := s.socks.contains sock

def State.setCall (s : State) (i : Nat) (phase : Phase) : State :=
  { s with calls := Function.update s.calls i phase }

/-- `sock->close()` -/
def State.closeSock (s : State) (sock : Nat) : State :=
  { s with isConnected := Function.update s.isConnected sock false }

/-- `_add(sock)` -/
def State.add (maxSize : Nat) (s : State) (sock : Nat) : State × Bool :=
  if s.size > maxSize then (s, false)
  else if s.isExist sock then (s, false)
  else ({ s with socks := s.socks ++ [sock] }, true)

/-- `_del(sock)` -/
def State.del (s : State) (sock : Nat) : State := { s with socks := s.socks.erase sock }

/-- `dial` and `async_dial` up to their connect. -/
def State.dial (maxSize : Nat) (s : State) (i : Nat) (async : Bool) : State :=
  if s.size > maxSize then s
  else { s.setCall i (.connecting s.made async) with made := s.made + 1 }

/-- The connect is over. -/
def State.connectDone (s : State) (i sock : Nat) (async ok : Bool) : State :=
  if ok then
    { s.setCall i (.connected sock async) with
      isConnected := Function.update s.isConnected sock true }
  else s.setCall i .idle

/-- The rest of the call. `dial` returns the socket if `_add` took it and
else drops it; `async_dial` calls its handler either way. -/
def State.finish (maxSize : Nat) (s : State) (i sock : Nat) (async : Bool) : State :=
  let (s, added) := s.add maxSize sock
  let s := s.setCall i .idle
  if added then { s with handed := s.handed ++ [sock] }
  else if async then
    { s with handed := s.handed ++ [sock], untracked := s.untracked ++ [sock] }
  else s.closeSock sock

/-- `close()` -/
def State.close (s : State) : State :=
  { s with isConnected := fun k => s.isConnected k && !s.isExist k, socks := [] }

inductive Event where
  | dial (i : Nat) (async : Bool)
  | connectDone (i : Nat) (ok : Bool)
  | finish (i : Nat)
  | remove (i : Nat) (sock : Nat)
  | removeClose (i : Nat)
  | removeDel (i : Nat)
  | close
  | lost (sock : Nat)
  deriving DecidableEq, Repr

inductive Step (maxSize : Nat) : State → Event → State → Prop where
  | dial {s : State} {i : Nat} {async : Bool} : s.calls i = .idle →
      Step maxSize s (.dial i async) (s.dial maxSize i async)
  | connectDone {s : State} {i sock : Nat} {async ok : Bool} :
      s.calls i = .connecting sock async →
      Step maxSize s (.connectDone i ok) (s.connectDone i sock async ok)
  | finish {s : State} {i sock : Nat} {async : Bool} : s.calls i = .connected sock async →
      Step maxSize s (.finish i) (s.finish maxSize i sock async)
  | remove {s : State} {i sock : Nat} : s.calls i = .idle →
      Step maxSize s (.remove i sock) (if s.isExist sock then s.setCall i (.removing sock) else s)
  | removeClose {s : State} {i sock : Nat} : s.calls i = .removing sock →
      Step maxSize s (.removeClose i) ((s.closeSock sock).setCall i (.closed sock))
  | removeDel {s : State} {i sock : Nat} : s.calls i = .closed sock →
      Step maxSize s (.removeDel i) ((s.del sock).setCall i .idle)
  | close {s : State} : Step maxSize s .close s.close
  | lost {s : State} {sock : Nat} : Step maxSize s (.lost sock) (s.closeSock sock)

def lts (maxSize : Nat) : Lts State Event where
  init s := s = .new
  step := Step maxSize

end HighJump.Net.TcpDialer
