/-
HighJump.Encoding.Utf8 — `utf8::detail::_encode` on POSIX systems, for
strings and for streams, and `utf8::is_valid`.

The work is done by `std::mbsrtowcs`, which belongs to the C library and
to the locale in force: it is a parameter here, from the bytes of a C
string to its wide characters, and `none` where it returns
`(size_t)(-1)`. Every call of `_encode` starts from a fresh conversion
state, and the stream version calls it once for every `UTF8_BUF_SZ` bytes.
-/
import HighJump.Lib.Loop
import HighJump.Lib.Streams

namespace HighJump.Encoding.Utf8

open HighJump.Lib

/-- `wchar_t` -/
abbrev WChar := UInt32

inductive ErrorCode where
  | ok
  | bufferOverflow
  | invalidInput
  | conversionFailed
  deriving DecidableEq, Repr

/-- `UTF8_BUF_SZ` -/
def utf8BufSz : Nat := 4096

/-- A `std::wostream` that accepts everything, with the part of it that
was flushed. -/
structure WOStream where
  written : List WChar
  flushed : Nat
  deriving DecidableEq, Repr

namespace WOStream

def write (s : WOStream) (ws : List WChar) : WOStream := { s with written := s.written ++ ws }

def flush (s : WOStream) : WOStream := { s with flushed := s.written.length }

end WOStream

section

variable (mbsrtowcs : List UInt8 → Option (List WChar))

/-- What a `char *` function sees of a string. -/
def cString (str : List UInt8) : List UInt8 := str.takeWhile (· != 0)

/-- `_encode(const std::string &str, error_code &ec)`: the first call of
`mbsrtowcs` counts, the second fills a string of that length. -/
def encodeEc (str : List UInt8) (ec : ErrorCode) : List WChar × ErrorCode :=
  match mbsrtowcs (cString str) with
  | none => ([], .conversionFailed)
  | some ws => (ws, ec)

/-- `_encode(const std::string &str)` -/
def encode (str : List UInt8) : List WChar := (encodeEc mbsrtowcs str .ok).1

/-- `while(in.read(temp, UTF8_BUF_SZ) || in.gcount() > 0)` -/
def encodeTurn (_ : Nat) (s : WOStream × IStream) : Option (Turn (WOStream × IStream) WOStream) :=
  let (inp, buffer) := s.2.read utf8BufSz
  if inp.ok || buffer.length > 0 then
    let (wstr, ec) := encodeEc mbsrtowcs buffer .ok
    if ec ≠ .ok then some (.exit s.1) else some (.again (s.1.write wstr, inp))
  else some (.exit s.1.flush)

/-- `_encode(std::wostream &out, std::istream &in)`; every turn but the
last takes a byte, which bounds their number. -/
def encodeStream (out : WOStream) (inp : IStream) : Option WOStream :=
  repeatUntil (encodeTurn mbsrtowcs) (inp.rest.length + 1) (out, inp)

end

/-! ## Validation -/

/-- `(str[i] & 0xC0) == 0x80` -/
def isContinuation (b : UInt8) : Bool := b &&& 0xC0 == 0x80

/-- `cp` of the three-byte branch -/
def cp3 (c b₁ b₂ : UInt8) : Nat :=
  (c &&& 0x0F).toNat <<< 12 ||| (b₁ &&& 0x3F).toNat <<< 6 ||| (b₂ &&& 0x3F).toNat

/-- `cp` of the four-byte branch -/
def cp4 (c b₁ b₂ b₃ : UInt8) : Nat :=
  (c &&& 0x07).toNat <<< 18 ||| (b₁ &&& 0x3F).toNat <<< 12 ||| (b₂ &&& 0x3F).toNat <<< 6 |||
    (b₃ &&& 0x3F).toNat

/-- `is_valid(const std::string &str)`, on the part of the string from `i`
on; a branch that finds too few bytes left is `i + k >= len`. -/
def isValid : List UInt8 → Bool
  | [] => true
  | c :: rest =>
    if c ≤ 0x7F then isValid rest
    else if c &&& 0xE0 == 0xC0 then
      match rest with
      | b₁ :: rest =>
        if !isContinuation b₁ then false
        -- the overlong check of the source, made in this branch only
        else if c &&& 0xFE == 0xC0 then false
        else isValid rest
      | [] => false
    else if c &&& 0xF0 == 0xE0 then
      match rest with
      | b₁ :: b₂ :: rest =>
        if !isContinuation b₁ || !isContinuation b₂ then false
        else if cp3 c b₁ b₂ ≥ 0xD800 && cp3 c b₁ b₂ ≤ 0xDFFF then false
        else isValid rest
      | _ => false
    else if c &&& 0xF8 == 0xF0 then
      match rest with
      | b₁ :: b₂ :: b₃ :: rest =>
        if !isContinuation b₁ || !isContinuation b₂ || !isContinuation b₃ then false
        else if cp4 c b₁ b₂ b₃ > 0x10FFFF then false
        else isValid rest
      | _ => false
    else false

end HighJump.Encoding.Utf8
