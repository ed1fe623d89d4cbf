/-
HighJump.Net.TcpConnSync — `send` and `recv` of `hj::tcp_conn`
(`hj/net/tcp/tcp_conn.hpp`), the blocking ones, between two connections.

One end sends and the other receives. Each call works its channel off in
a loop, `_send_all` or `_recv_all`, which is cut behind every look at the
connection and before every use of the socket; `disconnect` runs the same
loop first. What has been written and not read is on the `wire`. The
socket may write less than it is given and reads as much as it likes. At
any point another thread may close a side, or the socket itself.

The handlers are the users' and stay parameters. The `async_` calls have
their own histories, and the calls `connect` posts find the channels
empty. A read that fails stops a debug build; elsewhere it reads nothing.
-/
import HighJump.Net.TcpConnSend

namespace HighJump.Net.TcpConnSync

open HighJump.Lib
open HighJump.Net.TcpConnRecv (mtu nullptr)
open HighJump.Net.TcpConnSend (Encoder)

/-- The handlers of the two ends, and the size of the reader's buffer. -/
structure Conn (β : Type) where
  encodeHandler : Option (Encoder β)
  sendHandler : Bool
  decodeHandler : Option (β → List UInt8 → Nat × β)
  recvHandler : Bool
  rbufSz : Nat

/-- The state of a connection beside its buffers. -/
structure Flags where
  isConnected : Bool
  wClosed : Bool
  rClosed : Bool
  deriving DecidableEq, Repr

def Flags.new : Flags := ⟨true, false, false⟩

/-- `set_w_closed(true)`. With both sides closed it disconnects, and the
two loops return at once. -/
def Flags.setWClosed (f : Flags) : Flags :=
  { f with wClosed := true, isConnected := f.isConnected && !f.rClosed }

/-- `set_r_closed(true)` -/
def Flags.setRClosed (f : Flags) : Flags :=
  { f with rClosed := true, isConnected := f.isConnected && !f.wClosed }

/-- `_sock->disconnect()` -/
def Flags.disconnect (f : Flags) : Flags := { f with isConnected := false }

/-- What another thread does to a connection. -/
inductive Closing where
  | wSide
  | rSide
  | socket
  deriving DecidableEq, Repr

def Flags.close (f : Flags) : Closing → Flags
  | .wSide => f.setWClosed
  | .rSide => f.setRClosed
  | .socket => f.disconnect

section Ends

variable {β : Type}

/-! ## The sending end -/

/-- What runs `_send_all`. A message is `none` for a null pointer. -/
inductive SendCall (β : Type) where
  | send (msg : Option β)
  | disconnect

/-- Where it is: at the top of the loop, or with an encoded message of
`sz` bytes and the socket to use. -/
inductive SendPhase (β : Type) where
  | idle
  | loop (call : SendCall β)
  | writing (call : SendCall β) (msg : β) (sz : Nat)

/-- The last five fields are ghost: the bytes the socket took, the
messages `send` was given, its answers, and the messages written to the
end and those of them the send handler was told of. -/
structure Sender (β : Type) where
  flags : Flags
  wBuf : List UInt8
  wCh : List (Option β)
  phase : SendPhase β
  written : List UInt8
  sent : List (Option β)
  returned : List (Option β × Bool)
  whole : List β
  reported : List β

def Sender.new : Sender β :=
  { flags := .new, wBuf := [], wCh := [], phase := .idle, written := [], sent := [],
    returned := [], whole := [], reported := [] }

/-- `is_connected() && !is_w_closed()` -/
def Sender.Open (s : Sender β) : Prop := s.flags.isConnected = true ∧ s.flags.wClosed = false

instance (s : Sender β) : Decidable s.Open := inferInstanceAs (Decidable (_ ∧ _))

/-- `_send_all` returns. `disconnect` does not look at what. -/
def Sender.return (s : Sender β) (call : SendCall β) (ok : Bool) : Sender β :=
  match call with
  | .send msg => { s with phase := .idle, returned := s.returned ++ [(msg, ok)] }
  | .disconnect => { s with phase := .idle, flags := s.flags.disconnect }

/-- `send(msg)` up to `_send_all` -/
def Sender.send (s : Sender β) (msg : Option β) : Sender β :=
  if s.Open then
    { s with wCh := s.wCh ++ [msg], phase := .loop (.send msg), sent := s.sent ++ [msg] }
  else { s with sent := s.sent ++ [msg], returned := s.returned ++ [(msg, false)] }

/-- `disconnect()` up to `_send_all` -/
def Sender.disconnect (s : Sender β) : Sender β :=
  if s.flags.isConnected then { s with phase := .loop .disconnect } else s

/-- `_send_all` from the top of the loop to the socket. -/
def Sender.top (c : Conn β) (s : Sender β) (call : SendCall β) : Sender β :=
  if s.Open then
    match s.wCh, c.encodeHandler with
    | [], _ => s.return call true
    | none :: rest, _ => { s with wCh := rest }.return call true
    | some _ :: rest, none => { s with wCh := rest }.return call true
    | some msg :: rest, some encoder =>
      let bytes := encoder.encode msg
      if bytes.length < 1 then
        { s with wCh := rest, flags := s.flags.setWClosed }.return call false
      else
        { s with wCh := rest, wBuf := s.wBuf ++ bytes, phase := .writing call msg bytes.length }
  else s.return call false

/-- The socket took `n` bytes of the buffer. After a short write they stay
in it. -/
def Sender.write (c : Conn β) (s : Sender β) (call : SendCall β) (msg : β) (sz n : Nat) :
    Sender β :=
  let s := { s with written := s.written ++ s.wBuf.take n }
  if n < sz then { s with flags := s.flags.setWClosed }.return call false
  else
    { s with wBuf := s.wBuf.drop n, phase := .loop call, whole := s.whole ++ [msg],
             reported := if c.sendHandler then s.reported ++ [msg] else s.reported }

/-! ## The receiving end -/

/-- What runs `_recv_all`. -/
inductive RecvCall where
  | recv (slot : Nat)
  | disconnect
  deriving DecidableEq, Repr

inductive RecvPhase where
  | idle
  | loop (call : RecvCall)
  | reading (call : RecvCall)
  deriving DecidableEq, Repr

/-- How a `recv` ended. `prepare` throws when the buffer would grow beyond
its size. -/
inductive Answer where
  | ret (ok : Bool)
  | thrown
  deriving DecidableEq, Repr

/-- The last four fields are ghost: the slots `recv` queued, its answers,
and the slots filled and reported with what they held then. -/
structure Receiver (β : Type) where
  flags : Flags
  rBuf : List UInt8
  rCh : List Nat
  mem : Nat → β
  phase : RecvPhase
  slots : List Nat
  returned : List (Nat × Answer)
  filled : List (Nat × β)
  reported : List (Nat × β)

def Receiver.new (mem : Nat → β) : Receiver β :=
  { flags := .new, rBuf := [], rCh := [], mem := mem, phase := .idle, slots := [],
    returned := [], filled := [], reported := [] }

/-- `is_connected() && !is_r_closed()` -/
def Receiver.Open (r : Receiver β) : Prop := r.flags.isConnected = true ∧ r.flags.rClosed = false

instance (r : Receiver β) : Decidable r.Open := inferInstanceAs (Decidable (_ ∧ _))

/-- `_recv_all` returns, or an exception leaves it; `disconnect` then does
not get to its socket. -/
def Receiver.return (r : Receiver β) (call : RecvCall) (answer : Answer) : Receiver β :=
  match call, answer with
  | .recv slot, _ => { r with phase := .idle, returned := r.returned ++ [(slot, answer)] }
  | .disconnect, .ret _ => { r with phase := .idle, flags := r.flags.disconnect }
  | .disconnect, .thrown => { r with phase := .idle }

/-- `recv(slot)` up to `_recv_all` -/
def Receiver.recv (r : Receiver β) (slot : Nat) : Receiver β :=
  if r.Open then
    { r with rCh := r.rCh ++ [slot], phase := .loop (.recv slot), slots := r.slots ++ [slot] }
  else { r with returned := r.returned ++ [(slot, .ret false)] }

/-- `disconnect()` up to `_recv_all` -/
def Receiver.disconnect (r : Receiver β) : Receiver β :=
  if r.flags.isConnected then { r with phase := .loop .disconnect } else r

/-- The decode handler is called on a slot taken from the channel. -/
def Receiver.decodeInto (c : Conn β) (r : Receiver β) (call : RecvCall) (slot : Nat)
    (rest : List Nat) (decode : β → List UInt8 → Nat × β) : Receiver β :=
  let res := decode (r.mem slot) r.rBuf
  let r := { r with mem := Function.update r.mem slot res.2 }
  if 0 < res.1 then
    { r with rCh := rest, rBuf := r.rBuf.drop res.1, filled := r.filled ++ [(slot, res.2)],
             reported := if c.recvHandler then r.reported ++ [(slot, res.2)] else r.reported }
  else if c.rbufSz < r.rBuf.length + mtu then
    { r with rCh := rest ++ [slot] }.return call .thrown
  else { r with rCh := rest ++ [slot], phase := .reading call }

/-- `_recv_all` from the top of the loop to the socket, or to the next
turn. -/
def Receiver.top (c : Conn β) (r : Receiver β) (call : RecvCall) : Receiver β :=
  if r.Open then
    match r.rCh, c.decodeHandler with
    | [], _ => r.return call (.ret true)
    | _ :: rest, none => { r with rCh := rest }.return call (.ret true)
    | slot :: rest, some decode =>
      if slot = nullptr then { r with rCh := rest }.return call (.ret true)
      else r.decodeInto c call slot rest decode
  else r.return call (.ret false)

/-- The socket read `chunk`. -/
def Receiver.read (r : Receiver β) (call : RecvCall) (chunk : List UInt8) : Receiver β :=
  { r with rBuf := r.rBuf ++ chunk, phase := .loop call }

/-! ## Both -/

structure State (β : Type) where
  sender : Sender β
  receiver : Receiver β
  wire : List UInt8

def State.new (mem : Nat → β) : State β := { sender := .new, receiver := .new mem, wire := [] }

inductive Event (β : Type) where
  | send (msg : Option β)
  | sendDisconnect
  | sendTop
  | write (n : Nat)
  | sendClosed (closing : Closing)
  | recv (slot : Nat)
  | recvDisconnect
  | recvTop
  | read (chunk : List UInt8)
  | recvClosed (closing : Closing)
  | store (slot : Nat) (v : β)

inductive Step (c : Conn β) : State β → Event β → State β → Prop where
  | send {s : State β} {msg : Option β} : s.sender.phase = .idle →
      Step c s (.send msg) { s with sender := s.sender.send msg }
  | sendDisconnect {s : State β} : s.sender.phase = .idle →
      Step c s .sendDisconnect { s with sender := s.sender.disconnect }
  | sendTop {s : State β} {call : SendCall β} : s.sender.phase = .loop call →
      Step c s .sendTop { s with sender := s.sender.top c call }
  | write {s : State β} {call : SendCall β} {msg : β} {sz n : Nat} :
      s.sender.phase = .writing call msg sz → n ≤ s.sender.wBuf.length →
      (s.sender.flags.isConnected = false → n = 0) →
      Step c s (.write n) { s with sender := s.sender.write c call msg sz n,
                                   wire := s.wire ++ s.sender.wBuf.take n }
  | sendClosed {s : State β} {closing : Closing} :
      Step c s (.sendClosed closing)
        { s with sender := { s.sender with flags := s.sender.flags.close closing } }
  | recv {s : State β} {slot : Nat} : s.receiver.phase = .idle →
      Step c s (.recv slot) { s with receiver := s.receiver.recv slot }
  | recvDisconnect {s : State β} : s.receiver.phase = .idle →
      Step c s .recvDisconnect { s with receiver := s.receiver.disconnect }
  | recvTop {s : State β} {call : RecvCall} : s.receiver.phase = .loop call →
      Step c s .recvTop { s with receiver := s.receiver.top c call }
  | read {s : State β} {call : RecvCall} {chunk rest : List UInt8} :
      s.receiver.phase = .reading call → chunk.length ≤ mtu → s.wire = chunk ++ rest →
      (s.receiver.flags.isConnected = false → chunk = []) →
      Step c s (.read chunk) { s with receiver := s.receiver.read call chunk, wire := rest }
  | recvClosed {s : State β} {closing : Closing} :
      Step c s (.recvClosed closing)
        { s with receiver := { s.receiver with flags := s.receiver.flags.close closing } }
  | store {s : State β} {slot : Nat} {v : β} :
      Step c s (.store slot v) { s with receiver :=
        { s.receiver with mem := Function.update s.receiver.mem slot v } }

def lts (c : Conn β) : Lts (State β) (Event β) where
  init s := ∃ mem, s = .new mem
  step := Step c

end Ends

end HighJump.Net.TcpConnSync
