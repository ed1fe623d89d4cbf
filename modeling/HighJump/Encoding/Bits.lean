/-
HighJump.Encoding.Bits — single bits of integers (`bits`).

A value of a type `T` is an integer in its range, and positions count from
one. What shifts, promotions and conversions do with it is what
`HighJump.Lib.IntBits` says; a shift without a defined result is `none`.

`put` builds its mask as `1 << (pos - 1)`, in `int` for every `T`.
-/
import HighJump.Lib.IntBits

namespace HighJump.Encoding.Bits

open HighJump.Lib

/-- `pos - 1`, an `unsigned int`. -/
def shift (pos : Nat) : Nat := IntType.uint32.unsigned ((pos : Int) - 1)

/-- `get(src, pos)` -/
def get (T : IntType) (src : Int) (pos : Nat) : Option Bool :=
  (T.shr src (shift pos)).map fun s => decide (T.and s 1 ≠ 0)

/-- `1 << (pos - 1)` -/
def mask (pos : Nat) : Option Int := IntType.int32.shlChecked 1 (shift pos)

/-- `put(src, pos)` -/
def put (T : IntType) (src : Int) (pos : Nat) : Option Int :=
  (mask pos).map fun m => T.wrap (T.or src m)

/-- `put(src, pos, bit)` -/
def putBit (T : IntType) (src : Int) (pos : Nat) (bit : Bool) : Option Int :=
  (mask pos).map fun m =>
    T.wrap (if bit then T.or src m else T.and src (IntType.int32.not m))

/-- `reset(src, bit)` -/
def reset (T : IntType) (bit : Bool) : Int := T.wrap (if bit then T.not 0 else 0)

/-- `flip(src)` -/
def flip (T : IntType) (src : Int) : Int := T.wrap (T.not src)

/-! ## Text -/

/-- The loop of `to_string(src, buf)`, from `pos - 1` down to zero. -/
def fill (T : IntType) (src : Int) (sz : Nat) : Nat → List Char → Option (List Char)
  | 0, buf => some buf
  | pos + 1, buf =>
      (T.shr src pos).bind fun s =>
        fill T src sz pos
          (buf.modify (sz - pos - 1) fun c => Char.ofNat (c.toNat + (T.and s 1).toNat))

/-- `to_string(src, buf)`; `buf` is the memory from the pointer on. -/
def toStringInto (T : IntType) (src : Int) (buf : List Char) : Option (List Char) :=
  let sz := T.width.bits
  let cleared := List.replicate sz '0' ++ buf.drop sz
  (fill T src sz sz cleared).map fun filled => filled.set sz (Char.ofNat 0)

/-- `to_string(src)`, the characters of a `std::bitset`. -/
def toString (T : IntType) (src : Int) : List Char :=
  let N := T.width.bits
  let bitset := IntType.unsigned T src
  (List.range N).map fun i => if bitset.testBit (N - 1 - i) then '1' else '0'

/-- The character of a bit. -/
def bitChar (b : Bool) : Char := if b then '1' else '0'

/-! ## The law -/

/-- What access to the bit at `p` promises, of a value `x` into which the
bit `b` is put. -/
structure Law (T : IntType) (x : Int) (p : Nat) (b : Bool) : Prop where
  /-- The bit is there and the others are what they were. -/
  put_get : ∃ y, putBit T x p b = some y ∧ get T y p = some b ∧
    ∀ q, 1 ≤ q → q ≤ T.width.bits → q ≠ p → get T y q = get T x q
  /-- Without a bit, a one is put. -/
  put_one : put T x p = putBit T x p true
  /-- Both texts show what `get` returns. -/
  text : ∀ buf, T.width.bits < buf.length → ∃ out, toStringInto T x buf = some out ∧
    ∀ q, 1 ≤ q → q ≤ T.width.bits → ∃ d, get T x q = some d ∧
      out[T.width.bits - q]? = some (bitChar d) ∧
      (toString T x)[T.width.bits - q]? = some (bitChar d)

/-- The mask of the position does what it is for: the type is no wider
than an `int`, or the mask is a positive one, or it reaches only over bits
that are `b` already. -/
def Meets (T : IntType) (x : Int) (p : Nat) (b : Bool) : Prop :=
  T.width ≠ .w64 ∨ p ≤ 31 ∨
    p = 32 ∧ ∀ q, 32 < q → q ≤ T.width.bits → x.testBit (q - 1) = b

end HighJump.Encoding.Bits
