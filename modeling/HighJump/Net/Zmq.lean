/-
HighJump.Net.Zmq — messages through the sockets of `hj/net/zmq.hpp`.

The first half is `send_multipart` at one end of a line and
`recv_multipart` at the other, in two threads. A call is a step for each
`zmq_send`, `zmq_msg_recv` or `zmq_getsockopt` it makes: the call may come
back, interrupted (`EINTR`), or with another error.

The second half are the loops that carry messages between the sockets and
the channels of a process: `producer::safe_push`, `publisher::safe_pub`,
`consumer::safe_pull` and `subscriber::safe_recv` are one loop, and any
number of them may stand behind each other. Here a message is one part.

What a pair of sockets makes of what it is given is libzmq's, so it is a
parameter: a `Lib.Transport`. A channel and one PUSH and one PULL socket
lose nothing while they are connected; PUB and SUB sockets, or a PUSH
socket with several readers, leave messages out.
-/
import HighJump.Lib.Lts
import HighJump.Lib.Multipart
import Mathlib.Logic.Function.Basic

namespace HighJump.Net.Zmq

open HighJump.Lib

/-- The bytes of a message, or of one part of it. -/
abbrev Part := List UInt8

/-! ## Multi-part messages -/

/-- Where `recv_multipart` is: not called, before `zmq_msg_recv`, or
before it asks for `ZMQ_RCVMORE`, with what the socket would say. -/
inductive Reception where
  | idle
  | waiting (dst : List Part)
  | asking (dst : List Part) (more : Bool)
  deriving DecidableEq, Repr

/-- The calls at the two ends: of `send_multipart` the `parts` it was
called with and `i`, of `recv_multipart` its `dst`. The other fields are
ghost: the `parts` of the calls of `send_multipart` that came back with
`true`, the `dst` of the calls of `recv_multipart` that did, and the
frames the transport has accepted and handed out. -/
structure State where
  sending : Option (List Part × Nat)
  receiving : Reception
  sent : List (List Part)
  received : List (List Part)
  accepted : List (Frame Part)
  handed : List (Frame Part)
  deriving DecidableEq, Repr

/-- How a call of libzmq comes back. -/
inductive Answer where
  | ok
  | eintr
  | error
  deriving DecidableEq, Repr

inductive Event where
  | callSend (parts : List Part)
  | send (answer : Answer)
  | callRecv
  | recv (frame : Frame Part)
  | recvEintr
  | recvError
  | rcvmore (told : Bool)
  deriving DecidableEq, Repr

/-- `send_multipart` is called. Without parts there is no turn of its
loop, and it comes back at once. -/
def State.callSend (s : State) (parts : List Part) : State :=
  if parts.isEmpty then { s with sent := s.sent ++ [parts] }
  else { s with sending := some (parts, 0) }

/-- One turn of the loop of `send_multipart`, for `parts[i]`; `more` is
`ZMQ_SNDMORE`. The call comes back with `true` behind the last one. -/
def State.sendPart (s : State) (parts : List Part) (i : Nat) (part : Part) : Answer → State
  | .ok =>
    let frame : Frame Part := { part, more := decide (i + 1 < parts.length) }
    let s := { s with accepted := s.accepted ++ [frame] }
    if i + 1 < parts.length then { s with sending := some (parts, i + 1) }
    else { s with sending := none, sent := s.sent ++ [parts] }
  | .eintr => s
  | .error => { s with sending := none }

/-- `zmq_msg_recv` has come back with a part. -/
def State.recvPart (s : State) (dst : List Part) (frame : Frame Part) : State :=
  { s with handed := s.handed ++ [frame],
           receiving := .asking (dst ++ [frame.part]) frame.more }

/-- `zmq_getsockopt` has come back. Where it fails, the local `more` is
still 0. -/
def State.rcvmore (s : State) (dst : List Part) (more : Bool) : State :=
  if more then { s with receiving := .waiting dst }
  else { s with receiving := .idle, received := s.received ++ [dst] }

inductive Step (T : Transport (Frame Part)) : State → Event → State → Prop where
  | callSend {s : State} {parts : List Part} : s.sending = none →
      Step T s (.callSend parts) (s.callSend parts)
  | send {s : State} {parts : List Part} {i : Nat} {part : Part} {answer : Answer} :
      s.sending = some (parts, i) → parts[i]? = some part →
      Step T s (.send answer) (s.sendPart parts i part answer)
  | callRecv {s : State} : s.receiving = .idle →
      Step T s .callRecv { s with receiving := .waiting [] }
  | recv {s : State} {dst : List Part} {frame : Frame Part} :
      s.receiving = .waiting dst → T s.accepted s.handed frame →
      Step T s (.recv frame) (s.recvPart dst frame)
  | recvEintr {s : State} {dst : List Part} : s.receiving = .waiting dst → Step T s .recvEintr s
  | recvError {s : State} {dst : List Part} : s.receiving = .waiting dst →
      Step T s .recvError { s with receiving := .idle }
  | rcvmore {s : State} {dst : List Part} {more told : Bool} :
      s.receiving = .asking dst more →
      Step T s (.rcvmore told) (s.rcvmore dst (told && more))

def State.new : State where
  sending := none
  receiving := .idle
  sent := []
  received := []
  accepted := []
  handed := []

def lts (T : Transport (Frame Part)) : Lts State Event where
  init s := s = .new
  step := Step T

/-- A call that fails does so at its first part: libzmq takes and hands
out the parts of a message together. That the option cannot be read
counts as a failure too, which the code does not notice. -/
def AllOrNothing (s : State) : Event → Prop
  | .send .error => ∀ parts i, s.sending = some (parts, i) → i = 0
  | .recvError => ∀ dst, s.receiving = .waiting dst → dst = []
  | .rcvmore told => told = true
  | _ => True

/-! ## Relays -/

/-- `zmq_msg_size(&buf) == 0`, the message that ends a relay. -/
def isPoisonPill (m : Part) : Bool := m.isEmpty

/-- Where a relay is: before its receive, with a message in `buf`, or
behind its loop. `failed` says that it left the loop over an error. -/
inductive Phase where
  | reading
  | holding (buf : Part)
  | stopped (failed : Bool)
  deriving DecidableEq, Repr

/-- A relay. The last three fields are ghost: what it took from its
source, what it gave to its target, and what it closed because the send
failed. -/
structure Relay where
  phase : Phase
  taken : List Part
  given : List Part
  dropped : List Part
  deriving DecidableEq, Repr

def Relay.new : Relay := { phase := .reading, taken := [], given := [], dropped := [] }

/-- The receive has come back. -/
def Relay.read (r : Relay) (buf : Part) : Relay :=
  { r with phase := .holding buf, taken := r.taken ++ [buf] }

/-- The send has come back. -/
def Relay.forward (r : Relay) (buf : Part) : Relay :=
  { r with phase := if isPoisonPill buf then .stopped false else .reading,
           given := r.given ++ [buf] }

/-- It failed: the message is closed and the loop left. -/
def Relay.drop (r : Relay) (buf : Part) : Relay :=
  { r with phase := .stopped true, dropped := r.dropped ++ [buf] }

def Relay.fail (r : Relay) : Relay := { r with phase := .stopped true }

/-- Relays in a row: relay `i` reads from line `i` and sends to line
`i + 1`. `pushed` is what the application put onto the first line. -/
structure Pipeline where
  relays : Nat → Relay
  pushed : List Part

/-- What line `i` has accepted. -/
def Pipeline.accepted (s : Pipeline) : Nat → List Part
  | 0 => s.pushed
  | i + 1 => (s.relays i).given

inductive Move where
  | push (m : Part)
  | read (i : Nat) (m : Part)
  | forward (i : Nat)
  | readError (i : Nat)
  | sendError (i : Nat)
  deriving DecidableEq, Repr

/-- A relay is replaced. -/
def Pipeline.setRelay (s : Pipeline) (i : Nat) (r : Relay) : Pipeline :=
  { s with relays := Function.update s.relays i r }

/-- Line `i` is the transport `T i`. A call that was interrupted is made
again, and nothing has happened. -/
inductive Pipeline.Step (T : Nat → Transport Part) : Pipeline → Move → Pipeline → Prop where
  | push {s : Pipeline} {m : Part} : Step T s (.push m) { s with pushed := s.pushed ++ [m] }
  | read {s : Pipeline} {i : Nat} {buf : Part} :
      (s.relays i).phase = .reading → T i (s.accepted i) (s.relays i).taken buf →
      Step T s (.read i buf) (s.setRelay i ((s.relays i).read buf))
  | forward {s : Pipeline} {i : Nat} {buf : Part} :
      (s.relays i).phase = .holding buf →
      Step T s (.forward i) (s.setRelay i ((s.relays i).forward buf))
  | readError {s : Pipeline} {i : Nat} :
      (s.relays i).phase = .reading → Step T s (.readError i) (s.setRelay i (s.relays i).fail)
  | sendError {s : Pipeline} {i : Nat} {buf : Part} :
      (s.relays i).phase = .holding buf →
      Step T s (.sendError i) (s.setRelay i ((s.relays i).drop buf))

def Pipeline.new : Pipeline := { relays := fun _ => .new, pushed := [] }

def pipelineLts (T : Nat → Transport Part) : Lts Pipeline Move where
  init s := s = .new
  step := Pipeline.Step T

end HighJump.Net.Zmq
