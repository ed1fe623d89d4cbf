/-
HighJump.Compress.Gzip — `hj::gzip` of `hj/compress/gzip.hpp`: the buffer
and stream overloads of `compress` and `decompress`.

zlib is a parameter (`Lib/Zlib`); the loops around it are embedded turn
by turn. Lengths handed to zlib are narrowed to its 32-bit `uInt` where
the source narrows them, and the stream overloads count and write
`chunk_size - avail_out` bytes of their output buffer, whatever of it the
call has filled.

A loop that does not end has no result at any fuel, and neither has a
call that throws: `none` is "does not return".
-/
import HighJump.Lib.Loop
import HighJump.Lib.Streams
import HighJump.Lib.Zlib

namespace HighJump.Compress.Gzip

open HighJump.Lib HighJump.Lib.Zlib

/-! ## Codes -/

/-- `gzip::err`: an `int`, since every zlib code is cast to it, the ones
without an enumerator too. -/
structure Err where
  value : Int
  deriving DecidableEq, Repr

/-- `static_cast<err>(ret)`. -/
def Err.ofRet (ret : Ret) : Err := ⟨ret.value⟩

namespace Err

def ok : Err := ofRet .ok
def streamError : Err := ofRet .streamError
def streamEnd : Err := ofRet .streamEnd

-- the enumerators after `stream_end` count on from it
def inputInvalid : Err := ⟨streamEnd.value + 1⟩
def bufferTooSmall : Err := ⟨streamEnd.value + 2⟩
def maxOutputSzExceeded : Err := ⟨streamEnd.value + 3⟩
def writeBufferError : Err := ⟨streamEnd.value + 5⟩

end Err

/-- `chunk_size` of the buffer overloads. -/
def chunkSize : Nat := 16384

/-- The largest size a `std::vector<unsigned char>` takes. -/
def maxVector : Nat := 2 ^ 63 - 1

/-! ## Buffers -/

/-- What a buffer loop carries: zlib's state, the unread input and the
output so far. -/
structure Buffers (σ : Type) where
  state : σ
  unread : Bytes
  dst : Bytes

section Compress

variable (D : Deflater)

/-- One turn of the loop of `compress`, and what follows the last. -/
def compressTurn (b : Buffers D.State) : Turn (Buffers D.State) (Err × Bytes) :=
  let r := D.deflate b.state .finish b.unread (toUInt chunkSize)
  if r.ret = .streamError then .exit (.ofRet r.ret, [])
  else
    let dst := b.dst ++ r.out
    if toUInt chunkSize - r.out.length = 0 then .again ⟨r.state, b.unread.drop r.used, dst⟩
    else if r.ret ≠ .streamEnd then
      .exit (if r.ret = .ok then .bufferTooSmall else .ofRet r.ret, [])
    else .exit (.ok, dst)

/-- `compress`, the buffer overload; `dst` is what the vector holds on
entry. -/
def compress (fuel : Nat) (dst : Bytes) (src : Option Bytes) (comprLvl memLevel : Int) :
    Option (Err × Bytes) :=
  match src with
  | none => some (.inputInvalid, dst)
  | some src =>
      if src.length = 0 then some (.inputInvalid, dst)
      else
        let (ret, state) := D.init comprLvl memLevel
        if ret ≠ .ok then some (.ofRet ret, dst)
        else
          repeatUntil (fun _ b => some (compressTurn D b)) fuel
            ⟨state, src.take (toUInt src.length), []⟩

end Compress

section Decompress

variable (I : Inflater) (maxOutputSz : Nat)

/-- One turn of the loop of `decompress`, and what follows the last. -/
def decompressTurn (b : Buffers I.State) : Turn (Buffers I.State) (Err × Bytes) :=
  let r := I.inflate b.state b.unread (toUInt chunkSize)
  match r.ret with
  | .needDict | .dataError | .memError => .exit (.ofRet r.ret, [])
  | _ =>
      let availOut := toUInt chunkSize - r.out.length
      let have_ := chunkSize - availOut
      if maxOutputSz > 0 ∧ b.dst.length + have_ > maxOutputSz then
        .exit (.maxOutputSzExceeded, [])
      else
        let dst := b.dst ++ r.out
        if availOut = 0 then .again ⟨r.state, b.unread.drop r.used, dst⟩
        else if r.ret ≠ .streamEnd then .exit (.ofRet r.ret, [])
        else .exit (.ok, dst)

/-- `decompress`, the buffer overload. -/
def decompress (fuel : Nat) (dst : Bytes) (src : Option Bytes) : Option (Err × Bytes) :=
  match src with
  | none => some (.inputInvalid, dst)
  | some src =>
      if src.length = 0 then some (.inputInvalid, dst)
      else if I.init.1 ≠ .ok then some (.ofRet I.init.1, dst)
      else
        repeatUntil (fun _ b => some (decompressTurn I maxOutputSz b)) fuel
          ⟨I.init.2, src.take (toUInt src.length), []⟩

end Decompress

/-! ## Streams -/

/-- What the stream loops carry beside the streams: zlib's state, the
unread input, the output buffer, `total_out` and the last answer. -/
structure Pump (σ : Type) where
  state : σ
  unread : Bytes
  outbuf : Bytes
  out : OStream
  totalOut : Nat
  ret : Ret

/-- The output buffer after a call wrote `out` to its front. -/
def fill (outbuf out : Bytes) : Bytes := out ++ outbuf.drop out.length

section DecompressStream

variable (I : Inflater) (maxOutputSz chunk : Nat)

/-- One turn of the inner loop of `decompress`: it goes on, returns from
the function, or falls through to the next read. -/
def inflateTurn (p : Pump I.State) :
    Turn (Pump I.State) (Except (Err × OStream) (Pump I.State)) :=
  let r := I.inflate p.state p.unread (toUInt chunk)
  match r.ret with
  | .needDict | .dataError | .memError => .exit (.error (.ofRet r.ret, p.out))
  | _ =>
      let availOut := toUInt chunk - r.out.length
      let have_ := chunk - availOut
      let totalOut := (p.totalOut + have_) % 2 ^ 64
      if maxOutputSz > 0 ∧ totalOut > maxOutputSz then
        .exit (.error (.maxOutputSzExceeded, p.out))
      else
        let outbuf := fill p.outbuf r.out
        let out := p.out.write (outbuf.take have_)
        if !out.ok then .exit (.error (.writeBufferError, out))
        else
          let p := ⟨r.state, p.unread.drop r.used, outbuf, out, totalOut, r.ret⟩
          if availOut = 0 then .again p else .exit (.ok p)

/-- What follows the outer loop. -/
def decompressFinish (p : Pump I.State) : Err × OStream :=
  (if p.ret ≠ .streamEnd then .ofRet p.ret else .ok, p.out)

/-- One turn of the outer loop of `decompress`. -/
def readTurn (fuel : Nat) (x : IStream × Pump I.State) :
    Option (Turn (IStream × Pump I.State) (Err × OStream)) :=
  if !x.1.ok then some (.exit (decompressFinish I x.2))
  else
    let (inp, got) := x.1.read chunk
    if got.length = 0 then some (.exit (decompressFinish I x.2))
    else
      match repeatUntil (fun _ p => some (inflateTurn I maxOutputSz chunk p)) fuel
          { x.2 with unread := got.take (toUInt got.length) } with
      | none => none
      | some (.error r) => some (.exit r)
      | some (.ok p) => some (.again (inp, p))

/-- `decompress`, the stream overload. -/
def decompressStream (fuel : Nat) (out : OStream) (inp : IStream) : Option (Err × OStream) :=
  if !inp.ok || !out.ok then some (.inputInvalid, out)
  else if I.init.1 ≠ .ok then some (.ofRet I.init.1, out)
  else if chunk > maxVector then none
  else
    repeatUntil (readTurn I maxOutputSz chunk) fuel
      (inp, ⟨I.init.2, [], List.replicate chunk 0, out, 0, .ok⟩)

end DecompressStream

/-- What the loops of `compress` carry beside the streams. -/
structure Press (σ : Type) where
  state : σ
  unread : Bytes
  outbuf : Bytes
  out : OStream

section CompressStream

variable (D : Deflater) (chunk : Nat)

/-- The call of a turn: what it answers, what is written of the output
buffer and what is carried on. -/
def deflateCall (flush : Flush) (p : Press D.State) : Ret × Nat × Press D.State :=
  let r := D.deflate p.state flush p.unread (toUInt chunk)
  let availOut := toUInt chunk - r.out.length
  let outbuf := fill p.outbuf r.out
  (r.ret, availOut,
    ⟨r.state, p.unread.drop r.used, outbuf, p.out.write (outbuf.take (chunk - availOut))⟩)

/-- One turn of the inner loop of `compress`. -/
def deflateTurn (flush : Flush) (p : Press D.State) :
    Turn (Press D.State) (Except (Err × OStream) (Press D.State)) :=
  match deflateCall D chunk flush p with
  | (.streamError, _, _) => .exit (.error (.streamError, p.out))
  | (_, availOut, p) =>
      if !p.out.ok then .exit (.error (.writeBufferError, p.out))
      else if availOut = 0 then .again p
      else .exit (.ok p)

/-- One turn of the loop that ends the compression; it does not look at
the output stream. -/
def finishTurn (p : Press D.State) : Turn (Press D.State) (Err × OStream) :=
  match deflateCall D chunk .finish p with
  | (.streamEnd, _, p) => .exit (.ok, p.out)
  | (_, _, p) => .again p

/-- What follows the outer loop. -/
def compressFinish (fuel : Nat) (p : Press D.State) :
    Option (Turn (IStream × Press D.State) (Err × OStream)) :=
  (repeatUntil (fun _ p => some (finishTurn D chunk p)) fuel p).map .exit

/-- One turn of the outer loop of `compress`. -/
def pressTurn (fuel : Nat) (x : IStream × Press D.State) :
    Option (Turn (IStream × Press D.State) (Err × OStream)) :=
  if !x.1.ok then compressFinish D chunk fuel x.2
  else
    let (inp, got) := x.1.read chunk
    if got.length = 0 then compressFinish D chunk fuel x.2
    else
      let flush : Flush := if inp.eof then .finish else .noFlush
      match repeatUntil (fun _ p => some (deflateTurn D chunk flush p)) fuel
          { x.2 with unread := got.take (toUInt got.length) } with
      | none => none
      | some (.error r) => some (.exit r)
      | some (.ok p) => some (.again (inp, p))

/-- `compress`, the stream overload. -/
def compressStream (fuel : Nat) (out : OStream) (inp : IStream) (comprLvl memLevel : Int) :
    Option (Err × OStream) :=
  if !inp.ok || !out.ok then some (.inputInvalid, out)
  else
    let (ret, state) := D.init comprLvl memLevel
    if ret ≠ .ok then some (.ofRet ret, out)
    else if chunk > maxVector then none
    else
      repeatUntil (pressTurn D chunk) fuel (inp, ⟨state, [], List.replicate chunk 0, out⟩)

end CompressStream

end HighJump.Compress.Gzip
