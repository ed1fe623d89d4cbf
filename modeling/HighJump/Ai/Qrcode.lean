/-
HighJump.Ai.Qrcode — the PGM files that `qrcode.hpp` writes and reads.

`builder::encode` saves a bitmap as a binary PGM file: a header in text,
then the pixels as they are. `parser::decode` reads four tokens off the
front of a file, skipping white space and `#` comments, and takes the
pixels from wherever the last token left the stream. The bitmap it builds
goes on to the decoder of the `quirc` library, which is not part of this
model.
-/
import HighJump.Lib.Loop
import HighJump.Lib.Numerals

namespace HighJump.Ai.Qrcode

open HighJump.Lib

/-- The values of `error_code` that the PGM functions return. -/
inductive ErrorCode where
  | pgmWriteFailed
  | pgmOpenFailed
  | pgmReadFailed
  | magicParseFailed
  | tokenValueConvertFailed
  | tokenValueOutOfRange
  | tokenEmpty
  deriving DecidableEq, Repr

structure Bitmap where
  width : Int
  height : Int
  data : List UInt8
  deriving DecidableEq, Repr

/-! ## Writing -/

/-- `ofs << "P5\n" << bm.width << " " << bm.height << "\n255\n"` -/
def putHeader (ofs : FStream) (bm : Bitmap) : FStream :=
  let ofs := ofs.putString [0x50, 0x35, 0x0A]
  let ofs := ofs.putInt bm.width
  let ofs := ofs.putString [0x20]
  let ofs := ofs.putInt bm.height
  ofs.putString [0x0A, 0x32, 0x35, 0x35, 0x0A]

/-- The tail of `builder::encode`, where `ofs` is the file if it could be
opened. -/
def writePgm (ofs : Option FStream) (bm : Bitmap) : Except ErrorCode FStream :=
  match ofs with
  | none => .error .pgmWriteFailed
  | some ofs =>
      let ofs := putHeader ofs bm
      let ofs := { ofs with out := ofs.out.write bm.data }
      if ofs.good then .ok ofs else .error .pgmWriteFailed

/-! ## Reading -/

/-- `while(ifs.get(c))`, up to the first character of a token: the
character, or `none` at the end of the file. -/
def skipTurn (_ : Nat) (ifs : IStream) : Option (Turn IStream (Option UInt8 × IStream)) :=
  let (ifs, got) := ifs.read 1
  if !ifs.ok then some (.exit (none, ifs))
  else
    match got with
    | [] => none
    | c :: _ =>
        if isSpace c then some (.again ifs)
        else if c = 0x23 then some (.again ifs.getline.1)
        else some (.exit (some c, ifs))

/-- `while(ifs.get(c))`, through the rest of a token and the character
behind it; a `#` there takes its line with it. -/
def tokenTurn (_ : Nat) (s : List UInt8 × IStream) :
    Option (Turn (List UInt8 × IStream) (List UInt8 × IStream)) :=
  let (ifs, got) := s.2.read 1
  if !ifs.ok then some (.exit (s.1, ifs))
  else
    match got with
    | [] => none
    | c :: _ =>
        if isSpace c || c == 0x23 then
          some (.exit (s.1, if c = 0x23 then ifs.getline.1 else ifs))
        else some (.again (s.1 ++ [c], ifs))

/-- `_read_token`: every turn takes a character, which bounds their
number. -/
def readToken (ifs : IStream) : Option (Except ErrorCode (List UInt8) × IStream) := do
  let (first, ifs) ← repeatUntil skipTurn (ifs.rest.length + 1) ifs
  match first with
  | none => return (.error .tokenEmpty, ifs)
  | some c =>
      let (tk, ifs) ← repeatUntil tokenTurn (ifs.rest.length + 1) ([c], ifs)
      return (.ok tk, ifs)

/-- From the opened file to the bitmap, with the checks on the header. -/
def readBitmap (ifs : IStream) (w h maxv : Int) : Except ErrorCode Bitmap :=
  if w ≤ 0 ∨ h ≤ 0 ∨ maxv ≤ 0 ∨ maxv > 255 then .error .tokenValueOutOfRange
  else
    let (ifs, data) := ifs.read (w.toNat * h.toNat)
    if !ifs.ok then .error .pgmReadFailed else .ok { width := w, height := h, data }

/-- `parser::decode`, up to the bitmap it hands to the decoder. -/
def readPgm (ifs : Option IStream) : Option (Except ErrorCode Bitmap) :=
  match ifs with
  | none => some (.error .pgmOpenFailed)
  | some ifs => do
      let (magic, ifs) ← readToken ifs
      if magic ≠ .ok [0x50, 0x35] then return .error .magicParseFailed
      let (wtok, ifs) ← readToken ifs
      match wtok with
      | .error e => return .error e
      | .ok wtok =>
          let (htok, ifs) ← readToken ifs
          match htok with
          | .error e => return .error e
          | .ok htok =>
              let (maxvtok, ifs) ← readToken ifs
              match maxvtok with
              | .error e => return .error e
              | .ok maxvtok =>
                  match stoi wtok, stoi htok, stoi maxvtok with
                  | some w, some h, some maxv => return readBitmap ifs w h maxv
                  | _, _, _ => return .error .tokenValueConvertFailed

end HighJump.Ai.Qrcode
