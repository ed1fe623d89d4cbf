/-
HighJump.Encoding.Hex — the hexadecimal codec of `hex.hpp`.

Encoding writes each byte as an unsigned number through a stream that has
been set to hexadecimal, width two and fill `'0'`. Decoding is another
program altogether: it drops every character that is no hexadecimal
digit, puts a `'0'` in front of an odd number of digits and takes the
digits in pairs. Both exist for strings and for streams.

A `char` is a `UInt8`; the ranges that `hex.hpp` compares with lie below
128, so the sign of `char` does not show.
-/
import HighJump.Lib.ChunkScan
import HighJump.Lib.Format
import HighJump.Lib.Loop
import HighJump.Lib.MachineInt

namespace HighJump.Encoding.Hex

open HighJump.Lib

/-- `_hex_char_to_value` -/
def hexCharToValue (c : UInt8) : Int :=
  if 0x30 ≤ c ∧ c ≤ 0x39 then c.toNat - 0x30
  else if 0x41 ≤ c ∧ c ≤ 0x46 then c.toNat - 0x41 + 10
  else if 0x61 ≤ c ∧ c ≤ 0x66 then c.toNat - 0x61 + 10
  else -1

/-! ## Decoding -/

/-- `_decode_impl` for strings: `i += 2`, where `str[str.length()]` is the
terminating zero. -/
def decodeImpl : List UInt8 → List UInt8
  | [] => []
  | [h] => pushPair h 0 []
  | h :: l :: rest => pushPair h l (decodeImpl rest)
where
  /-- One turn: both digits must be digits for a byte to be pushed. -/
  pushPair (h l : UInt8) (rest : List UInt8) : List UInt8 :=
    let high := hexCharToValue h
    let low := hexCharToValue l
    if high ≥ 0 ∧ low ≥ 0 then UInt8.ofNat ((high.toNat <<< 4) ||| low.toNat) :: rest else rest

/-- `decode<std::string>(str)` -/
def decode (str : List UInt8) : List UInt8 :=
  let hexStr := str.filter fun c => decide (hexCharToValue c ≥ 0)
  let hexStr := if hexStr.length % 2 ≠ 0 then 0x30 :: hexStr else hexStr
  decodeImpl hexStr

/-- `oss << in.rdbuf()` then `oss.str()`: the rest of the buffer, which is
read below the stream's own state. -/
def drain (inp : IStream) : IStream × List UInt8 := ({ inp with pos := inp.data.length }, inp.rest)

/-- `decode(std::ostream &out, std::istream &in)` -/
def decodeStream (out : FStream) (inp : IStream) : Bool × FStream × IStream :=
  if !out.good || inp.eof || inp.fail then (false, out, inp)
  else
    let (inp, hexContent) := drain inp
    let binaryData := decode hexContent
    (true, out.putString binaryData, inp)

/-! ## Encoding -/

/-- `oss << std::setw(2) << std::setfill('0') << (unsigned int) c` -/
def encodeByte (oss : FStream) (c : UInt8) : FStream :=
  ((oss.setw 2).setfill 0x30).putUnsigned c.toNat

/-- `_encode_impl` for strings. -/
def encodeImpl (oss : FStream) (value : List UInt8) : FStream := value.foldl encodeByte oss

/-- `encode(value, upper_case)` for a string. -/
def encode (value : List UInt8) (upperCase : Bool) : List UInt8 :=
  let oss := (FStream.fresh.letters upperCase).hex
  (encodeImpl oss value).out.written

/-- `while(in.read(&ch, 1)) out << ...` -/
def encodeTurn (_ : Nat) (s : FStream × IStream) : Option (Turn (FStream × IStream) (FStream × IStream)) :=
  let (inp, got) := s.2.read 1
  if inp.ok then
    match got with
    | ch :: _ => some (.again (encodeByte s.1 ch, inp))
    | [] => none
  else some (.exit (s.1, inp))

/-- `encode(std::ostream &out, std::istream &in, upper_case)`; every turn
of the loop but the last takes a byte, which bounds their number. -/
def encodeStream (out : FStream) (inp : IStream) (upperCase : Bool) :
    Option (Bool × FStream × IStream) :=
  if !out.good || inp.eof || inp.fail then some (false, out, inp)
  else do
    let out := (out.letters upperCase).hex
    let (out, inp) ← repeatUntil encodeTurn (inp.rest.length + 1) (out, inp)
    return (true, out, inp)

/-! ## Validation -/

/-- The ranges `is_valid` compares with. -/
def isHexChar (c : UInt8) : Bool :=
  (0x30 ≤ c && c ≤ 0x39) || (0x61 ≤ c && c ≤ 0x66) || (0x41 ≤ c && c ≤ 0x46)

/-- `for(int i = 0; i < len; ++i)`, with `n` turns to go; `none` is an
overrun of the counter or of the buffer. -/
def isValidLoop (buf : List UInt8) : Nat → Nat → Option Bool
  | 0, _ => some true
  | n + 1, i =>
      match buf[i]? with
      | none => none
      | some c => if !isHexChar c then some false else if i < intMax then isValidLoop buf n (i + 1) else none

/-- `is_valid(const unsigned char *buf, const std::size_t len)` -/
def isValid (buf : Option (List UInt8)) (len : Nat) : Option Bool :=
  match buf with
  | none => some false
  | some buf =>
      if len = 0 then some false
      else if len % 2 ≠ 0 then some false
      else isValidLoop buf len 0

/-- `is_valid(const std::string &hex_str)` -/
def isValidString (hexStr : List UInt8) : Option Bool := isValid (some hexStr) hexStr.length

/-- `HEX_BUF_SZ` -/
def hexBufSz : Nat := 4096

/-- `is_valid(std::ifstream &in)`: the ranges on every byte of every chunk.
The total is a `size_t`, which no file overruns. -/
def isValidStream (inp : IFStream) : Option (Bool × IFStream) :=
  scan hexBufSz 2 (fun buf => some (buf.all isHexChar)) inp

end HighJump.Encoding.Hex
