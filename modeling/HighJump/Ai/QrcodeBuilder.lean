/-
HighJump.Ai.QrcodeBuilder — `builder::encode` of `hj/ai/qrcode.hpp`, from
the text to the bitmap.

The symbol comes from `QRcode_encodeString` of `libqrencode`, here any
function that answers a symbol or a null pointer. Every dark module becomes
a block of `scale` by `scale` black pixels behind a quiet zone of `margin`
modules. The indices into the symbol are computed in `int`, the ones into
the bitmap in `size_t`; an `int` that overflows, a read outside the symbol
and a write outside the bitmap are `none`.
-/
import HighJump.Lib.MachineInt
import HighJump.Ai.Qrcode

namespace HighJump.Ai.Qrcode.Builder

open HighJump.Lib

abbrev Bytes := List UInt8

/-- The values of `error_code` that `encode` returns. -/
inductive EncodeError where
  | invalidText
  | invalidScale
  | invalidMargin
  | encodeFailed
  deriving DecidableEq, Repr

/-- `QRcode`: the modules row by row, a module dark if its lowest bit is
set. -/
structure QRcode where
  width : Int
  data : Bytes
  length_data : data.length = (width * width).toNat

/-- `q->data[r * modules + c]` -/
def QRcode.module (q : QRcode) (r c : Nat) : Option UInt8 := do
  let rm ← checkInt (r * q.width)
  let i ← checkInt (rm + c)
  q.data[i.toNat]?

/-- `out.data[i] = 0` -/
def setBlack (i : Nat) (data : Bytes) : Option Bytes :=
  if i < data.length then some (data.set i 0) else none

variable (q : QRcode) (scale margin : Int) (imgSize : Nat)

/-- The two inner loops. -/
def paintBlock (x0 y0 : Nat) (data : Bytes) : Option Bytes :=
  forUp (fun y data =>
      let row := (y0 + y) % 2 ^ 64 * imgSize % 2 ^ 64
      forUp (fun x data => setBlack ((row + x0 + x) % 2 ^ 64) data) scale.toNat 0 data)
    scale.toNat 0 data

/-- The body of the two outer loops. -/
def paintModule (r c : Nat) (data : Bytes) : Option Bytes := do
  let module ← q.module r c
  let black := module &&& 1 ≠ 0
  if ¬ black then
    return data
  let y0 := (← checkInt (margin + r)).toNat * scale.toNat % 2 ^ 64
  let x0 := (← checkInt (margin + c)).toNat * scale.toNat % 2 ^ 64
  paintBlock scale imgSize x0 y0 data

def paint (data : Bytes) : Option Bytes :=
  forUp (fun r data =>
      forUp (fun c data => paintModule q scale margin imgSize r c data) q.width.toNat 0 data)
    q.width.toNat 0 data

/-- `builder::encode`: the error, if any, and `out`. -/
def encode (encodeString : Bytes → Int → Int → Option QRcode) (out : Bitmap) (text : Bytes)
    (version ecLevel scale margin : Int) : Option (Option EncodeError × Bitmap) :=
  if text.isEmpty then some (some .invalidText, out)
  else if scale ≤ 0 then some (some .invalidScale, out)
  else if margin < 0 then some (some .invalidMargin, out)
  else
    -- `c_str()` ends at the first null byte
    match encodeString (text.takeWhile (· ≠ 0)) version ecLevel with
    | none => some (some .encodeFailed, out)
    | some q =>
        if q.width ≤ 0 then some (some .encodeFailed, out)
        else
          let side := (q.width.toNat + 2 * margin.toNat) % 2 ^ 64
          let imgSize := side * scale.toNat % 2 ^ 64
          if imgSize = 0 then some (some .encodeFailed, out)
          else if imgSize > sizeMax then some (some .encodeFailed, out)
          else if imgSize > sizeMax / imgSize then some (some .encodeFailed, out)
          else
            let pixels := imgSize * imgSize % 2 ^ 64
            (paint q scale margin imgSize (List.replicate pixels 255)).map fun data =>
              (none, {
                width := IntType.int32.wrap imgSize
                height := IntType.int32.wrap imgSize
                data })

/-! ## Reading a bitmap and a symbol -/

/-- The pixel in column `x` of row `y`. -/
def pixel (bm : Bitmap) (x y : Nat) : Option UInt8 := bm.data[y * bm.width.toNat + x]?

/-- The module in column `c` of row `r` is dark; outside the symbol none is. -/
def QRcode.Dark (q : QRcode) (c r : Int) : Prop :=
  0 ≤ c ∧ c < q.width ∧ 0 ≤ r ∧ r < q.width ∧
    ∃ module, q.data[(r * q.width + c).toNat]? = some module ∧ module &&& 1 ≠ 0

end HighJump.Ai.Qrcode.Builder
