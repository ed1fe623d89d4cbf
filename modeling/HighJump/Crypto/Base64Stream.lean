/-
HighJump.Crypto.Base64Stream — the other overloads of `base64::encode` and
`base64::decode` (`hj/crypto/base64.hpp`): strings, streams and files.

`Crypto.Base64` has the encoder into a buffer; here a chain is written to
more than once, and there are chains to read from, whose memory buffer
holds a text (`Decoder`). The stream overload of `decode` reads the whole
text first; that of `encode` keeps the whole encoding in memory and writes
it at the end. The files are streams that are opened by name, and the
chains of `encode_file` and `decode_file` work on them directly.
-/
import HighJump.Crypto.Base64
import HighJump.Lib.Loop
import HighJump.Lib.Streams

namespace HighJump.Crypto.Base64Stream

open HighJump.Lib
open HighJump.Crypto.Base64 (Bio encodeLenReserve base64BufSize)

/-- `base64::error_code`, all of it that these functions return. -/
inductive ErrorCode where
  | ok
  | invalidInput
  | bufferOverflow
  | encodeFailed
  | decodeFailed
  | fileOpenFailed
  | fileWriteFailed
  deriving DecidableEq, Repr

def ErrorCode.of : Base64.ErrorCode → ErrorCode
  | .ok => .ok
  | .invalidInput => .invalidInput
  | .bufferOverflow => .bufferOverflow
  | .encodeFailed => .encodeFailed

/-- The chains that `decode` reads from. -/
structure Decoder where
  Chain : Type
  /-- `BIO_new(BIO_f_base64())` succeeds. -/
  newBase64 : Bool
  /-- `BIO_new_mem_buf(src, n)` under the filter. -/
  newMemBuf : List UInt8 → Int → Option Chain
  /-- The filter on a file that holds these bytes. -/
  newFp : List UInt8 → Chain
  /-- `BIO_read(b64, buf, n)`: the bytes it stored, `none` for an error. -/
  read : Chain → Nat → Option (List UInt8) × Chain

/-! ## Strings -/

/-- `encode(std::string &dst, const std::string &src)` -/
def encodeString (B : Bio) (src : List UInt8) : Option (ErrorCode × List UInt8) :=
  let dstLen := encodeLenReserve src.length
  match Base64.encode B (List.replicate dstLen 0) dstLen src with
  | none => none
  | some (.ok, dst, dstLen) => some (.ok, dst.take dstLen)
  | some (ec, _, _) => some (.of ec, [])

/-- `decode_len_reserve(src_len)` -/
def decodeLenReserve (srcLen : Nat) : Nat := srcLen / 4 * 3

/-- `decode(dst, dst_len, src, src_len)` into a buffer of `dst_len` bytes:
the bytes it leaves there. -/
def decode (D : Decoder) (dstLen : Nat) (src : List UInt8) : ErrorCode × List UInt8 :=
  if src.length % 4 ≠ 0 then (.invalidInput, [])
  else
    match D.newMemBuf src (IntType.int32.wrap src.length) with
    | none => (.decodeFailed, [])
    | some b64 =>
        if !D.newBase64 then (.decodeFailed, [])
        else
          match (D.read b64 (IntType.int32.wrap dstLen).toNat).1 with
          | none => (.decodeFailed, [])
          | some bs => (.ok, bs)

/-- `decode(std::string &dst, const std::string &src)` -/
def decodeString (D : Decoder) (src : List UInt8) : ErrorCode × List UInt8 :=
  match decode D (decodeLenReserve src.length) src with
  | (.ok, dst) => (.ok, dst)
  | (ec, _) => (ec, [])

/-! ## Streams -/

section Encode

variable (B : Bio)

/-- `while(in.read(buffer, sizeof(buffer)) || in.gcount() > 0)`; an answer
of `none` is the end of the input. -/
def encodeTurn (x : IStream × B.Chain) : Turn (IStream × B.Chain) (ErrorCode × Option B.Chain) :=
  let (inp, b64) := x
  let (inp, buffer) := inp.read base64BufSize
  if !inp.ok && buffer.length = 0 then .exit (.ok, some b64)
  else
    let (n, b64) := B.write b64 buffer buffer.length
    if n ≠ buffer.length then .exit (.encodeFailed, none) else .again (inp, b64)

/-- `encode(std::ostream &out, std::istream &in)` -/
def encodeStream (fuel : Nat) (out : OStream) (inp : IStream) : Option (ErrorCode × OStream) :=
  if !inp.ok || !out.ok then some (.invalidInput, out)
  else
    match B.newBase64 with
    | none => some (.encodeFailed, out)
    | some b64 =>
        if !B.newMem then some (.encodeFailed, out)
        else
          match repeatUntil (fun _ x => some (encodeTurn B x)) fuel (inp, b64) with
          | none => none
          | some (ec, none) => some (ec, out)
          | some (ec, some b64) =>
              let mem := B.mem (B.flush b64)
              some (ec, if 0 < mem.length then out.write mem else out)

end Encode

section Decode

variable (D : Decoder)

/-- `while(in.read(buffer, sizeof(buffer)) || in.gcount() > 0)` -/
def appendTurn (x : IStream × List UInt8) : Turn (IStream × List UInt8) (List UInt8) :=
  let (inp, inputBuf) := x
  let (inp, buffer) := inp.read base64BufSize
  if !inp.ok && buffer.length = 0 then .exit inputBuf else .again (inp, inputBuf ++ buffer)

/-- `while((n = BIO_read(b64, outbuf, sizeof(outbuf))) > 0)` -/
def readTurn (x : D.Chain × OStream) : Turn (D.Chain × OStream) OStream :=
  let (b64, out) := x
  match D.read b64 base64BufSize with
  | (none, _) => .exit out
  | (some outbuf, b64) => if outbuf.length = 0 then .exit out else .again (b64, out.write outbuf)

/-- `decode(std::ostream &out, std::istream &in)` -/
def decodeStream (fuel : Nat) (out : OStream) (inp : IStream) : Option (ErrorCode × OStream) :=
  if !D.newBase64 then some (.decodeFailed, out)
  else
    match repeatUntil (fun _ x => some (appendTurn x)) fuel (inp, []) with
    | none => none
    | some inputBuf =>
        match D.newMemBuf inputBuf (IntType.int32.wrap inputBuf.length) with
        | none => some (.decodeFailed, out)
        | some b64 =>
            match repeatUntil (fun _ x => some (readTurn D x)) fuel (b64, out) with
            | none => none
            | some out => some (.ok, out)

end Decode

/-! ## Files -/

/-- `encode_file`: `none` for a file that cannot be opened. The filter
stands on the output file, whose bytes are those of the chain; a failed
write leaves what has reached the file. -/
def encodeFile (B : Bio) (fuel : Nat) (src : Option (List UInt8)) (dst : Bool) :
    Option (ErrorCode × Option (List UInt8)) :=
  match src with
  | none => some (.fileOpenFailed, none)
  | some bytes =>
      if !dst then some (.fileOpenFailed, none)
      else
        match B.newBase64 with
        | none => some (.encodeFailed, some [])
        | some b64 =>
            match repeatUntil (fun _ x => some (encodeTurn B x)) fuel (.ofBytes bytes, b64) with
            | none => none
            | some (ec, none) => some (ec, none)
            | some (ec, some b64) => some (ec, some (B.mem (B.flush b64)))

/-- One turn of the loop of `decode_file`. A short `fwrite` fails. -/
def fileTurn (D : Decoder) (x : D.Chain × OStream) :
    Turn (D.Chain × OStream) (ErrorCode × OStream) :=
  let (b64, out) := x
  match D.read b64 4096 with
  | (none, _) => .exit (.ok, out)
  | (some buffer, b64) =>
      if buffer.length = 0 then .exit (.ok, out)
      else if !(out.write buffer).ok then .exit (.fileWriteFailed, out.write buffer)
      else .again (b64, out.write buffer)

/-- `decode_file` -/
def decodeFile (D : Decoder) (fuel : Nat) (src : Option (List UInt8)) (dst : Option OStream) :
    Option (ErrorCode × Option OStream) :=
  match src, dst with
  | none, _ => some (.fileOpenFailed, none)
  | _, none => some (.fileOpenFailed, none)
  | some bytes, some out =>
      if !D.newBase64 then some (.decodeFailed, some out)
      else (repeatUntil (fun _ x => some (fileTurn D x)) fuel (D.newFp bytes, out)).map
        fun (ec, out) => (ec, some out)

end HighJump.Crypto.Base64Stream
