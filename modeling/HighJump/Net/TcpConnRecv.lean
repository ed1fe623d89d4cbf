/-
HighJump.Net.TcpConnRecv — the receiving side of `hj::tcp_conn` of
`hj/net/tcp/tcp_conn.hpp`.

`async_recv` puts a slot into the channel `_r_ch` and posts a call of
`_async_recv`; a completed read of the socket is another such call. The
io_context runs its calls one at a time, in the order they became ready,
but a slot may be handed over at any point of a call that is running, by
another thread or by the receive handler itself. So a call is split
where the channel is touched: at `try_dequeue` and at the enqueue that
puts a slot back.

The decode handler is the user's and stays a parameter. The channel and
the io_context are queues. `_r_buf` is its committed bytes: a read
writes behind them and there is never more than one, so the bytes of a
read that has completed travel with its call until they are committed.
Closing is one way here; `connect` on a connection that was closed is
another history.
-/
import HighJump.Lib.Framing
import HighJump.Lib.Lts
import Mathlib.Logic.Function.Basic

namespace HighJump.Net.TcpConnRecv

open HighJump.Lib

/-- `MTU` -/
def mtu : Nat := 1500

/-- `nullptr` as a `msg_ptr_t`. -/
def nullptr : Nat := 0

/-- What does not change in a run: the two handlers, and the size
`_r_buf` may not exceed. -/
structure Conn (β : Type) where
  decodeHandler : Option (β → List UInt8 → Nat × β)
  recvHandler : Bool
  rbufSz : Nat

/-- A call of `_async_recv` that is ready to run. A posted one has no
error and no bytes. -/
structure Call where
  failed : Bool
  bytes : List UInt8
  deriving DecidableEq, Repr

/-- `std::bind(&tcp_conn::_async_recv, this, err_t(), 0)` -/
def posted : Call := ⟨false, []⟩

/-- Where the running call is: none is running; at the top of the loop;
with a slot taken from the channel; with a slot to put back; behind the
loop. -/
inductive Phase where
  | idle
  | loop
  | holding (slot : Nat)
  | puttingBack (slot : Nat)
  | afterLoop
  deriving DecidableEq, Repr

/-- The connection, its io_context and its socket. `posting` counts the
`async_recv` calls between their enqueue and their post, `reading` says
that the socket has a read to complete, `wire` is what the peer has sent
and no read has taken. The last three fields are ghost: the slots handed
over, and the slots filled and reported with what they held then, oldest
first. -/
structure State (β : Type) where
  isConnected : Bool
  wClosed : Bool
  rClosed : Bool
  isRecving : Bool
  rBuf : List UInt8
  rCh : List Nat
  mem : Nat → β
  phase : Phase
  posting : Nat
  ready : List Call
  reading : Bool
  wire : List UInt8
  slots : List Nat
  filled : List (Nat × β)
  reported : List (Nat × β)

section Receive

variable {β : Type}

/-- Calls get past their first checks. -/
def State.Open (s : State β) : Prop := s.isConnected = true ∧ s.rClosed = false

instance (s : State β) : Decidable s.Open := inferInstanceAs (Decidable (_ ∧ _))

/-- `disconnect` as `set_w_closed` and `set_r_closed` call it: both sides
are closed, so `_send_all` and `_recv_all` return at once. -/
def State.disconnect (s : State β) : State β := { s with isConnected := false }

/-- `set_r_closed(true)` -/
def State.setRClosed (s : State β) : State β :=
  if s.wClosed then { s with rClosed := true }.disconnect else { s with rClosed := true }

/-- `set_w_closed(true)` -/
def State.setWClosed (s : State β) : State β :=
  if s.rClosed then { s with wClosed := true }.disconnect else { s with wClosed := true }

/-- `async_recv` up to its post. -/
def State.enqueue (s : State β) (slot : Nat) : State β :=
  { s with rCh := s.rCh ++ [slot], posting := s.posting + 1, slots := s.slots ++ [slot] }

/-- `_async_recv` up to its loop. A failed call closes the reading side,
which also keeps it from committing anything. -/
def State.enter (s : State β) (call : Call) : State β :=
  let s := if call.failed then s.setRClosed else s
  if s.Open then
    if 0 < call.bytes.length then
      { s with rBuf := s.rBuf ++ call.bytes, isRecving := false, phase := .loop }
    else
      { s with phase := .loop }
  else
    s

/-- `try_dequeue` and the checks beside it: an empty channel, a null slot
or a missing decode handler end the call. -/
def State.takeSlot (c : Conn β) (s : State β) : State β :=
  match s.rCh with
  | [] => { s with phase := .idle }
  | slot :: rest =>
    if slot = nullptr ∨ c.decodeHandler = none then
      { s with rCh := rest, phase := .idle }
    else
      { s with rCh := rest, phase := .holding slot }

/-- The decode handler is called on the slot. -/
def State.decodeInto (c : Conn β) (s : State β) (slot : Nat)
    (decode : β → List UInt8 → Nat × β) : State β :=
  let res := decode (s.mem slot) s.rBuf
  let s := { s with mem := Function.update s.mem slot res.2 }
  if 0 < res.1 then
    { s with rBuf := s.rBuf.drop res.1, phase := .loop, filled := s.filled ++ [(slot, res.2)],
             reported := if c.recvHandler then s.reported ++ [(slot, res.2)] else s.reported }
  else
    { s with phase := .puttingBack slot }

/-- `_r_ch.enqueue(msg); // put back` -/
def State.putBack (s : State β) (slot : Nat) : State β :=
  { s with rCh := s.rCh ++ [slot], phase := .afterLoop }

/-- The end of `_async_recv`. `prepare` throws when the buffer would grow
beyond its size; a socket that is not connected calls back at once, with
an error. -/
def State.startRead (c : Conn β) (s : State β) : State β :=
  if s.isRecving then
    { s with phase := .idle }
  else if c.rbufSz < s.rBuf.length + mtu then
    { s with phase := .idle }
  else if s.isConnected then
    { s with isRecving := true, reading := true, phase := .idle }
  else
    { s with isRecving := true, phase := .idle }.setRClosed

inductive Event (β : Type) where
  | asyncRecv (slot : Nat)
  | refused (slot : Nat)
  | post
  | arrive (chunk : List UInt8)
  | fail
  | run
  | dequeue
  | decode
  | putBack
  | startRead
  | setRClosed
  | setWClosed
  | write (slot : Nat) (v : β)

/-- One step, of the io_context, of a caller, of the peer or of the
owner of a slot. -/
inductive Step (c : Conn β) : State β → Event β → State β → Prop where
  | asyncRecv {s : State β} {slot : Nat} : s.Open →
      Step c s (.asyncRecv slot) (s.enqueue slot)
  | refused {s : State β} {slot : Nat} : ¬ s.Open → Step c s (.refused slot) s
  | post {s : State β} {k : Nat} : s.posting = k + 1 →
      Step c s .post { s with posting := k, ready := s.ready ++ [posted] }
  /-- The read completes with what has come in, at most what it asked for. -/
  | arrive {s : State β} {chunk rest : List UInt8} : s.reading = true → s.isConnected = true →
      chunk ≠ [] → chunk.length ≤ mtu → s.wire = chunk ++ rest →
      Step c s (.arrive chunk)
        { s with reading := false, wire := rest, ready := s.ready ++ [⟨false, chunk⟩] }
  | fail {s : State β} : s.reading = true →
      Step c s .fail { s with reading := false, ready := s.ready ++ [⟨true, []⟩] }
  | run {s : State β} {call : Call} {rest : List Call} : s.phase = .idle →
      s.ready = call :: rest → Step c s .run ({ s with ready := rest }.enter call)
  | dequeue {s : State β} : s.phase = .loop → Step c s .dequeue (s.takeSlot c)
  | decode {s : State β} {slot : Nat} {decode : β → List UInt8 → Nat × β} :
      s.phase = .holding slot → c.decodeHandler = some decode →
      Step c s .decode (s.decodeInto c slot decode)
  | putBack {s : State β} {slot : Nat} : s.phase = .puttingBack slot →
      Step c s .putBack (s.putBack slot)
  | startRead {s : State β} : s.phase = .afterLoop → Step c s .startRead (s.startRead c)
  | setRClosed {s : State β} : Step c s .setRClosed s.setRClosed
  | setWClosed {s : State β} : Step c s .setWClosed s.setWClosed
  | write {s : State β} {slot : Nat} {v : β} :
      Step c s (.write slot v) { s with mem := Function.update s.mem slot v }

/-- A connection that has just been made. `connect` and `async_connect`
post a first call, a connection around an accepted socket does not. -/
def State.new (calls : List Call) (mem : Nat → β) (wire : List UInt8) : State β where
  isConnected := true
  wClosed := false
  rClosed := false
  isRecving := false
  rBuf := []
  rCh := []
  mem := mem
  phase := .idle
  posting := 0
  ready := calls
  reading := false
  wire := wire
  slots := []
  filled := []
  reported := []

/-- The connection whose peer sends `stream`. -/
def connLts (c : Conn β) (stream : List UInt8) : Lts (State β) (Event β) where
  init s := ∃ calls mem, (calls = [] ∨ calls = [posted]) ∧ s = .new calls mem stream
  step := Step c

end Receive

end HighJump.Net.TcpConnRecv
