/-
HighJump.Crypto.Base64 — `base64::encode` into a buffer and the validators
of `base64.hpp`.

Encoding is done by OpenSSL through a chain of two BIOs, a base64 filter on
top of a memory buffer. The chain is a parameter: whether it can be
created, what a write and a flush do to it, and what the memory buffer
holds then.

A `char` is a `UInt8`; the ranges that `is_valid` compares with lie below
128, so the sign of `char` does not show.
-/
import HighJump.Lib.Base64
import HighJump.Lib.ChunkScan
import HighJump.Lib.MachineInt

namespace HighJump.Crypto.Base64

open HighJump.Lib

inductive ErrorCode where
  | ok
  | invalidInput
  | bufferOverflow
  | encodeFailed
  deriving DecidableEq, Repr

/-! ## Encoding -/

/-- What `encode` uses of OpenSSL. -/
structure Bio where
  /-- The base64 filter on its memory buffer. -/
  Chain : Type
  /-- `BIO_new(BIO_s_mem())` succeeds. -/
  newMem : Bool
  /-- `BIO_new(BIO_f_base64())` without line feeds, pushed on the memory buffer. -/
  newBase64 : Option Chain
  /-- `BIO_write(b64, src, n)`, with its result. -/
  write : Chain → List UInt8 → Int → Int × Chain
  /-- `BIO_flush(b64)` -/
  flush : Chain → Chain
  /-- The bytes `BIO_get_mem_ptr` finds. -/
  mem : Chain → List UInt8

/-- `encode_len_reserve(src_len)`, in `size_t`. -/
def encodeLenReserve (srcLen : Nat) : Nat := (srcLen + 2) % 2 ^ 64 / 3 * 4 % 2 ^ 64

/-- `encode(dst, dst_len, src, src_len)`: the code, the destination and
`dst_len` afterwards; `none` is a write past the end of the destination.
The result of `BIO_write` is not looked at. -/
def encode (B : Bio) (dst : List UInt8) (dstLen : Nat) (src : List UInt8) :
    Option (ErrorCode × List UInt8 × Nat) :=
  if src.length = 0 ∨ dstLen = 0 then some (.invalidInput, dst, dstLen)
  else if !B.newMem then some (.encodeFailed, dst, dstLen)
  else
    match B.newBase64 with
    | none => some (.encodeFailed, dst, dstLen)
    | some b64 =>
        let (_, b64) := B.write b64 src (IntType.int32.wrap src.length)
        let buffer := B.mem (B.flush b64)
        if buffer.length > dstLen then some (.bufferOverflow, dst, dstLen)
        else
          match writeN dst 0 buffer with
          | none => none
          | some dst => some (.ok, dst, buffer.length)

/-! ## Validation -/

/-- `BASE64_BUF_SIZE` -/
def base64BufSize : Nat := 16384

/-- The ranges `is_valid` compares with. -/
def isAlphabetChar (c : UInt8) : Bool :=
  (0x41 ≤ c && c ≤ 0x5A) || (0x61 ≤ c && c ≤ 0x7A) || (0x30 ≤ c && c ≤ 0x39) || c == 0x2B ||
    c == 0x2F

/-- `for(std::size_t i = 0; i < len; ++i)`, with `n` turns to go; `none` is
a read past the end of the buffer. -/
def isValidLoop (buf : List UInt8) (len : Nat) : Nat → Nat → Nat → Option Bool
  | 0, _, _ => some true
  | n + 1, i, pad =>
      match buf[i]? with
      | none => none
      | some c =>
          if isAlphabetChar c then
            if pad > 0 then some false else isValidLoop buf len n (i + 1) pad
          else if c == 0x3D then
            if pad + 1 > 2 then some false
            else if i < len - 2 then some false
            else isValidLoop buf len n (i + 1) (pad + 1)
          else some false

/-- `is_valid(const unsigned char *buf, const std::size_t len)`; `none` is
the null pointer. -/
def isValid (buf : Option (List UInt8)) (len : Nat) : Option Bool :=
  match buf with
  | none => some false
  | some buf =>
      if len = 0 then some false
      else if len % 4 ≠ 0 then some false
      else isValidLoop buf len len 0 0

/-- `is_valid(std::ifstream &in)`: `is_valid(buf, n)` on every chunk. The
total is a `size_t`, which no file overruns. -/
def isValidStream (inp : IFStream) : Option (Bool × IFStream) :=
  scan base64BufSize 4 (fun buf => isValid (some buf) buf.length) inp

end HighJump.Crypto.Base64
