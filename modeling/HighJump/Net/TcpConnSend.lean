/-
HighJump.Net.TcpConnSend — the sending side of `hj::tcp_conn` of
`hj/net/tcp/tcp_conn.hpp`.

`async_send` puts a message into the channel `_w_ch` and posts a call of
`_async_send`; a completed write of the socket is another such call. The
io_context runs its calls one at a time, in the order they became ready;
messages may be handed over, and either side closed, at any time. A call
is split between its `try_dequeue` and its use of the socket.

The encode handler is the user's and stays a parameter. The socket is
asio's: the writes it was given are carried out in order, and each takes
one or more of its bytes from where they are THEN. They are in `_w_buf`,
whose `prepare` may move its storage; what a write given before finds at
its old address is then undefined (`none`). When `prepare` moves is the
streambuf's affair, so it is left open.

Closing is one way here, as on the receiving side. `send` and a
`disconnect` made by hand write through `_send_all` and are not part of
this history.
-/
import HighJump.Net.TcpConnRecv

namespace HighJump.Net.TcpConnSend

open HighJump.Lib
open HighJump.Net.TcpConnRecv (mtu nullptr)

/-- An encode handler, as the bytes it leaves in the buffer it is given;
how many they are is what it returns. The buffer has `MTU` bytes. -/
structure Encoder (β : Type) where
  encode : β → List UInt8
  fits : ∀ v, (encode v).length ≤ mtu

/-- What does not change in a run: the two handlers. -/
structure Conn (β : Type) where
  encodeHandler : Option (Encoder β)
  sendHandler : Bool

/-- A call of `_async_send` that is ready to run. -/
structure Call where
  failed : Bool
  sz : Nat
  deriving DecidableEq, Repr

/-- `std::bind(&tcp_conn::_async_send, this, err_t(), 0)` -/
def posted : Call := ⟨false, 0⟩

/-- Where the running call is: none is running, or one has a message from
the channel. -/
inductive Phase where
  | idle
  | holding (msg : Nat)
  deriving DecidableEq, Repr

/-- The connection, its io_context and its socket. `posting` counts the
`async_send` calls between their enqueue and their post, `pending` are the
bytes of the writes the socket has not carried out, `written` is what it
has. The last three fields are ghost: what the encode handler made of the
messages in the order they were dequeued, the messages the send handler
was told of, and whether a write has ended in an error. -/
structure State (β : Type) where
  isConnected : Bool
  wClosed : Bool
  rClosed : Bool
  wBuf : List UInt8
  wCh : List Nat
  mem : Nat → β
  phase : Phase
  posting : Nat
  ready : List Call
  pending : List (List (Option UInt8))
  written : List (Option UInt8)
  encodings : List (List UInt8)
  reported : List Nat
  failed : Bool

section Send

variable {β : Type}

/-- Calls get past their first checks. -/
def State.Open (s : State β) : Prop := s.isConnected = true ∧ s.wClosed = false

instance (s : State β) : Decidable s.Open := inferInstanceAs (Decidable (_ ∧ _))

/-- `disconnect` as `set_w_closed` and `set_r_closed` call it: both sides
are closed, so `_send_all` and `_recv_all` return at once. -/
def State.disconnect (s : State β) : State β := { s with isConnected := false }

/-- `set_w_closed(true)` -/
def State.setWClosed (s : State β) : State β :=
  if s.rClosed then { s with wClosed := true }.disconnect else { s with wClosed := true }

/-- `set_r_closed(true)` -/
def State.setRClosed (s : State β) : State β :=
  if s.wClosed then { s with rClosed := true }.disconnect else { s with rClosed := true }

/-- `async_send` up to its post. -/
def State.enqueue (s : State β) (msg : Nat) : State β :=
  { s with wCh := s.wCh ++ [msg], posting := s.posting + 1 }

/-- `try_dequeue` and the checks beside it: an empty channel, a null
message or a missing encode handler end the call. -/
def State.dequeue (c : Conn β) (s : State β) : State β :=
  match s.wCh with
  | [] => s
  | msg :: rest =>
    if msg = nullptr ∨ c.encodeHandler.isNone then { s with wCh := rest }
    else { s with wCh := rest, phase := .holding msg }

/-- `_async_send` up to and with its `try_dequeue`. -/
def State.enter (c : Conn β) (s : State β) (call : Call) : State β :=
  let s := if call.failed then s.setWClosed else s
  if s.Open then { s with wBuf := s.wBuf.drop call.sz }.dequeue c else s

/-- `_w_buf.prepare(MTU)` -/
def State.prepare (s : State β) (moved : Bool) : State β :=
  if moved then { s with pending := s.pending.map fun data => data.map fun _ => none } else s

/-- `_sock->async_send(data, sz, …)`. A socket that is not connected calls
back at once, with an error, and that call returns at its first check. -/
def State.sockAsyncSend (s : State β) (bytes : List UInt8) : State β :=
  if s.isConnected then { s with pending := s.pending ++ [bytes.map some] }
  else { s with failed := true }.setWClosed

/-- `if(_send_handler) _send_handler(this, msg);` -/
def State.report (c : Conn β) (s : State β) (msg : Nat) : State β :=
  if c.sendHandler then { s with reported := s.reported ++ [msg] } else s

/-- `_async_send` behind its `try_dequeue`. -/
def State.send (c : Conn β) (s : State β) (msg : Nat) (encoder : Encoder β) (moved : Bool) :
    State β :=
  let bytes := encoder.encode (s.mem msg)
  let s := { s.prepare moved with phase := .idle, encodings := s.encodings ++ [bytes] }
  if bytes.length < 1 then s.setWClosed
  else ({ s with wBuf := s.wBuf ++ bytes }.sockAsyncSend bytes).report c msg

/-- The socket carries out its first write, for `k` bytes. -/
def State.write (s : State β) (k : Nat) (data : List (Option UInt8))
    (rest : List (List (Option UInt8))) : State β :=
  { s with pending := rest, written := s.written ++ data.take k, ready := s.ready ++ [⟨false, k⟩] }

/-- It gives it up. -/
def State.fail (s : State β) (rest : List (List (Option UInt8))) : State β :=
  { s with pending := rest, ready := s.ready ++ [⟨true, 0⟩], failed := true }

inductive Event (β : Type) where
  | asyncSend (msg : Nat)
  | refused (msg : Nat)
  | post
  | run
  | send (moved : Bool)
  | write (k : Nat)
  | fail
  | setRClosed
  | setWClosed
  | store (msg : Nat) (v : β)

/-- One step, of the io_context, of the socket, of a caller or of the
owner of a message. -/
inductive Step (c : Conn β) : State β → Event β → State β → Prop where
  | asyncSend {s : State β} {msg : Nat} : s.Open → Step c s (.asyncSend msg) (s.enqueue msg)
  | refused {s : State β} {msg : Nat} : ¬ s.Open → Step c s (.refused msg) s
  | post {s : State β} {n : Nat} : s.posting = n + 1 →
      Step c s .post { s with posting := n, ready := s.ready ++ [posted] }
  | run {s : State β} {call : Call} {rest : List Call} : s.phase = .idle →
      s.ready = call :: rest → Step c s .run ({ s with ready := rest }.enter c call)
  | send {s : State β} {msg : Nat} {encoder : Encoder β} {moved : Bool} :
      s.phase = .holding msg → c.encodeHandler = some encoder →
      Step c s (.send moved) (s.send c msg encoder moved)
  | write {s : State β} {k : Nat} {data : List (Option UInt8)}
      {rest : List (List (Option UInt8))} : s.pending = data :: rest → s.isConnected = true →
      0 < k → k ≤ data.length → Step c s (.write k) (s.write k data rest)
  | fail {s : State β} {data : List (Option UInt8)} {rest : List (List (Option UInt8))} :
      s.pending = data :: rest → Step c s .fail (s.fail rest)
  | setRClosed {s : State β} : Step c s .setRClosed s.setRClosed
  | setWClosed {s : State β} : Step c s .setWClosed s.setWClosed
  | store {s : State β} {msg : Nat} {v : β} :
      Step c s (.store msg v) { s with mem := Function.update s.mem msg v }

/-- A connection that has just been made. `connect` and `async_connect`
post a first call, a connection around an accepted socket does not. -/
def State.new (calls : List Call) (mem : Nat → β) : State β where
  isConnected := true
  wClosed := false
  rClosed := false
  wBuf := []
  wCh := []
  mem := mem
  phase := .idle
  posting := 0
  ready := calls
  pending := []
  written := []
  encodings := []
  reported := []
  failed := false

def connLts (c : Conn β) : Lts (State β) (Event β) where
  init s := ∃ calls mem, (calls = [] ∨ calls = [posted]) ∧ s = .new calls mem
  step := Step c

end Send

end HighJump.Net.TcpConnSend
