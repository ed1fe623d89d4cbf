/-
HighJump.Net.TcpConnect — the blocking `connect` of `hj::tcp_socket`
(`hj/net/tcp/tcp_socket.hpp`).

An attempt starts a connect and a timer, and their handlers race for
`finished`. Each handler is two steps, its exchange and what follows, so
that two threads of the io_context may be in both. `_io.run()` returns
when both are through. What the connect comes to, and whether the time is
up before, is the environment's; a timer that is cancelled calls its
handler too.

`made` counts the `boost::asio` sockets, and the socket in use is the last
one made. The endpoint plays no part. An `async_connect` under way at the
same time would write the same flag; that history is another.
-/
import HighJump.Lib.Lts
import Mathlib.Logic.Function.Basic

namespace HighJump.Net.TcpConnect

open HighJump.Lib

/-- Where a handler is: it has not run; it is behind its exchange, and was
the first or not; it is through. -/
inductive Handler where
  | waiting
  | inside (first : Bool)
  | done
  deriving DecidableEq, Repr

/-- One turn of the loop. `result` is what the connect came to, `expired`
whether the time was up, `ready` whether the timer's handler may run. -/
structure Attempt where
  finished : Bool
  success : Bool
  result : Option Bool
  expired : Bool
  ready : Bool
  connect : Handler
  timer : Handler
  deriving DecidableEq, Repr

def Attempt.new : Attempt :=
  { finished := false, success := false, result := none, expired := false, ready := false,
    connect := .waiting, timer := .waiting }

inductive Phase where
  | top (i : Nat)
  | running (i : Nat) (att : Attempt)
  | returned (ok : Bool)
  deriving DecidableEq, Repr

/-- `log` is ghost: how the connects of the finished turns ended, and
whether their time was up. -/
structure State where
  connected : Bool
  made : Nat
  closed : Nat → Bool
  phase : Phase
  log : List (Option Bool × Bool)

/-- `connect` is called on a socket that may be connected. -/
def State.start (connected : Bool) : State :=
  { connected := connected, made := 1, closed := fun _ => false, phase := .top 0, log := [] }

/-- `_sock->close()` -/
def State.closeSock (s : State) : State :=
  { s with closed := Function.update s.closed (s.made - 1) true }

/-- The top of the loop. -/
def State.top (tryTimes : Int) (s : State) (i : Nat) : State :=
  if i < tryTimes then
    let s := { s with connected := false }.closeSock
    { s with made := s.made + 1, phase := .running i .new }
  else { s with phase := .returned false }

/-- `finished.exchange(true)` in the handler of the connect. -/
def Attempt.enterConnect (att : Attempt) : Attempt :=
  { att with finished := true, connect := .inside (!att.finished) }

/-- The rest of it. -/
def State.leaveConnect (s : State) (i : Nat) (att : Attempt) (first : Bool) : State :=
  if first then
    let ok := att.result = some true
    { s with connected := ok,
             phase := .running i { att with success := att.success || ok, ready := true,
                                            connect := .done } }
  else { s with phase := .running i { att with connect := .done } }

/-- `finished.exchange(true)` in the handler of the timer. -/
def Attempt.enterTimer (att : Attempt) : Attempt :=
  { att with finished := true, timer := .inside (!att.finished) }

/-- The rest of it. Closing a socket fails a connect that is not decided. -/
def State.leaveTimer (s : State) (i : Nat) (att : Attempt) (first : Bool) : State :=
  if first then
    { s.closeSock with connected := false,
                       phase := .running i { att with result := some (att.result.getD false),
                                                      timer := .done } }
  else { s with phase := .running i { att with timer := .done } }

/-- `_io.run()` returns. -/
def State.runReturns (s : State) (i : Nat) (att : Attempt) : State :=
  { s with log := s.log ++ [(att.result, att.expired)],
           phase := if att.success then .returned true else .top (i + 1) }

inductive Event where
  | top
  | decide (ok : Bool)
  | expire
  | enterConnect
  | leaveConnect
  | enterTimer
  | leaveTimer
  | runReturns
  deriving DecidableEq, Repr

inductive Step (tryTimes : Int) : State → Event → State → Prop where
  | top {s : State} {i : Nat} : s.phase = .top i → Step tryTimes s .top (s.top tryTimes i)
  | decide {s : State} {i : Nat} {att : Attempt} {ok : Bool} :
      s.phase = .running i att → att.result = none →
      Step tryTimes s (.decide ok) { s with phase := .running i { att with result := some ok } }
  | expire {s : State} {i : Nat} {att : Attempt} : s.phase = .running i att → att.ready = false →
      Step tryTimes s .expire
        { s with phase := .running i { att with expired := true, ready := true } }
  | enterConnect {s : State} {i : Nat} {att : Attempt} :
      s.phase = .running i att → att.connect = .waiting → att.result ≠ none →
      Step tryTimes s .enterConnect { s with phase := .running i att.enterConnect }
  | leaveConnect {s : State} {i : Nat} {att : Attempt} {first : Bool} :
      s.phase = .running i att → att.connect = .inside first →
      Step tryTimes s .leaveConnect (s.leaveConnect i att first)
  | enterTimer {s : State} {i : Nat} {att : Attempt} :
      s.phase = .running i att → att.timer = .waiting → att.ready = true →
      Step tryTimes s .enterTimer { s with phase := .running i att.enterTimer }
  | leaveTimer {s : State} {i : Nat} {att : Attempt} {first : Bool} :
      s.phase = .running i att → att.timer = .inside first →
      Step tryTimes s .leaveTimer (s.leaveTimer i att first)
  | runReturns {s : State} {i : Nat} {att : Attempt} :
      s.phase = .running i att → att.connect = .done → att.timer = .done →
      Step tryTimes s .runReturns (s.runReturns i att)

def lts (tryTimes : Int) (connected : Bool) : Lts State Event where
  init s := s = .start connected
  step := Step tryTimes

end HighJump.Net.TcpConnect
