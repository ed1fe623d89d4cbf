/-
HighJump.Net.WsClient — `hj::ws_client` (`hj/net/http/ws_client.hpp`): the
stream `_ws`, and what uses it.

The constructor makes the stream, and nothing makes another. `close` and
the completion of an `async_close` reset the pointer. Whatever calls a
method through it where it is null is `none`; behind that there is no
client.

An asynchronous step is pending from its start to its completion, which
may come after any later call and says whether the step succeeded. What it
says is not tied to what became of the stream meanwhile: a step that had
succeeded already is still reported so. Handlers run one at a time, and
one that calls back into the client is a later call here.
-/
import HighJump.Lib.Lts

namespace HighJump.Net.WsClient

open HighJump.Lib

/-! ## The client -/

/-- The asynchronous steps; an `async_connect` goes through the first three. -/
inductive Op where
  | resolve
  | tcpConnect
  | handshake
  | write
  | read
  | close
  deriving DecidableEq, Repr

structure Client where
  /-- `_ws` is not null. -/
  ws : Bool
  connected : Bool
  pending : List Op
  deriving DecidableEq, Repr

def Client.new : Client := { ws := true, connected := false, pending := [] }

/-- What comes of a call: a value, or nothing, a handler that is called,
with success or not, or one that waits. -/
inductive Reply where
  | value (ok : Bool)
  | nothing
  | handler (ok : Bool)
  | waits
  deriving DecidableEq, Repr

/-- Outcomes of the network in one call of `connect`. -/
structure Outcomes where
  resolves : Bool
  connects : Bool
  handshakes : Bool
  deriving DecidableEq, Repr

namespace Client

variable (s : Client)

/-- `_ws->…` -/
def deref : Option Unit := if s.ws then some () else none

def start (op : Op) : Client := { s with pending := s.pending ++ [op] }

/-! ## Calls -/

/-- `connect(host, port, target)` -/
def connect (o : Outcomes) : Option (Client × Reply) :=
  if !o.resolves then some (s, .value false)
  else
    s.deref.bind fun _ =>
      if !o.connects then some (s, .value false)
      else
        s.deref.bind fun _ =>
          if !o.handshakes then some (s, .value false)
          else some ({ s with connected := true }, .value true)

/-- `async_connect(host, port, target, handler)` -/
def asyncConnect : Option (Client × Reply) := some (s.start .resolve, .waits)

/-- `send(msg)` and `recv(out)`, which use the stream in the same way. -/
def transfer (ok : Bool) : Option (Client × Reply) :=
  if !s.connected then some (s, .value false) else s.deref.map fun _ => (s, .value ok)

def send (ok : Bool) : Option (Client × Reply) := s.transfer ok

def recv (ok : Bool) : Option (Client × Reply) := s.transfer ok

/-- `async_send(msg, handler)` and `async_recv(handler)`. -/
def asyncTransfer (op : Op) : Option (Client × Reply) :=
  if !s.connected then some (s, .handler false)
  else s.deref.map fun _ => (s.start op, .waits)

def asyncSend : Option (Client × Reply) := s.asyncTransfer .write

def asyncRecv : Option (Client × Reply) := s.asyncTransfer .read

/-- `close()` -/
def close : Option (Client × Reply) :=
  if !s.connected then some (s, .nothing)
  else
    let s := { s with connected := false }
    if !s.ws then some (s, .nothing) else s.deref.map fun _ => ({ s with ws := false }, .nothing)

/-- `async_close(handler)`; without a stream the handler is not called. -/
def asyncClose : Option (Client × Reply) :=
  if !s.connected then some (s, .handler false)
  else
    let s := { s with connected := false }
    if !s.ws then some (s, .nothing) else s.deref.map fun _ => (s.start .close, .waits)

/-! ## Completions -/

/-- `if(ec) { handler(ec); return; }`, and then the next step on the stream. -/
def goOn (ok : Bool) (next : Op) : Option (Client × Reply) :=
  if !ok then some (s, .handler false) else s.deref.map fun _ => (s.start next, .waits)

/-- The completion handler of a step, which is no longer pending. -/
def complete (op : Op) (ok : Bool) : Option (Client × Reply) :=
  let s := { s with pending := s.pending.erase op }
  match op with
  | .resolve => s.goOn ok .tcpConnect
  | .tcpConnect => s.goOn ok .handshake
  | .handshake => some (if ok then { s with connected := true } else s, .handler ok)
  | .write => some (s, .handler ok)
  | .read => some (s, .handler ok)
  | .close => some ({ s with ws := false }, .handler true)

end Client

/-! ## Runs -/

inductive Event where
  | connect (o : Outcomes)
  | asyncConnect
  | send (ok : Bool)
  | asyncSend
  | recv (ok : Bool)
  | asyncRecv
  | close
  | asyncClose
  | complete (op : Op) (ok : Bool)
  deriving DecidableEq, Repr

def Client.call (s : Client) : Event → Option (Client × Reply)
  | .connect o => s.connect o
  | .asyncConnect => s.asyncConnect
  | .send ok => s.send ok
  | .asyncSend => s.asyncSend
  | .recv ok => s.recv ok
  | .asyncRecv => s.asyncRecv
  | .close => s.close
  | .asyncClose => s.asyncClose
  | .complete op ok => s.complete op ok

/-- The client behind the call. -/
def Client.after (s : Client) (e : Event) : Option Client := (s.call e).map Prod.fst

/-- Only what is pending completes. -/
def Client.Enabled (s : Client) : Event → Prop
  | .complete op _ => op ∈ s.pending
  | _ => True

def lts : Lts (Option Client) Event where
  init w := w = some .new
  step w e w' := ∃ s, w = some s ∧ s.Enabled e ∧ w' = s.after e

end HighJump.Net.WsClient
