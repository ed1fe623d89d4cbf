/-
HighJump.Encoding.Bytes — integers as bytes (`bytes.hpp`).

A container is a list of element values. Its element type `E` is one of
the three 1-byte character types; the pointer overloads read and write
`unsigned char`. An index out of range is `none`, and so is a failed
assertion.

The four codecs of a size differ in which shift goes with which index. A
`Layout` is that table, in the order of the source's statements, and every
overload is one of four functions at a layout. Decoding converts an
element to the unsigned word before it shifts it, and a negative element
is sign-extended there.
-/
import HighJump.Lib.IntBits

namespace HighJump.Encoding.Bytes

open HighJump.Lib

/-- The shift that belongs to index `i` of `size` bytes. -/
def shiftAt (size : Nat) (big : Bool) (i : Nat) : Nat :=
  if big then 8 * (size - 1 - i) else 8 * i

/-- How an integer is laid out. -/
structure Layout where
  /-- The type of the integer. -/
  int : IntType
  /-- The unsigned type it is put together in. -/
  word : IntType
  size : Nat
  /-- The pairs of index and shift, for `big_endian` and not. -/
  places : Bool → List (Nat × Nat)
  int_bits : int.width.bits = 8 * size
  word_bits : word.width.bits = 8 * size
  int_promoted : int.promoted = int
  word_promoted : word.promoted = word
  /-- Every index once, with its own shift. -/
  perm : ∀ big, (places big).Perm ((List.range size).map fun i => (i, shiftAt size big i))

namespace Layout

variable (L : Layout)

/-- `n |= (uint32_t(bytes[i]) << s)` -/
def orByte (bytes : List Int) (n : Int) (place : Nat × Nat) : Option Int :=
  bytes[place.1]?.map fun c => L.word.or n (L.word.shl (L.word.wrap c) place.2)

/-- The statements of a decoder. -/
def ofBytes (bytes : List Int) (bigEndian : Bool) : Option Int :=
  ((L.places bigEndian).foldlM (L.orByte bytes) 0).map L.int.wrap

/-- A decoder with a pointer and a size. -/
def ofPointer (bytes : List Int) (sz : Nat) (bigEndian : Bool) : Option Int :=
  if L.size ≤ sz then L.ofBytes bytes bigEndian else none

/-- `(n >> s) & 0xFF`, converted to an element. -/
def byteAt (E : IntType) (n : Int) (s : Nat) : Int := E.wrap (L.int.and (n / 2 ^ s) 0xFF)

/-- `bytes[i] = (n >> s) & 0xFF` -/
def setByte (E : IntType) (n : Int) (bytes : List Int) (place : Nat × Nat) : Option (List Int) :=
  if place.1 < bytes.length then some (bytes.set place.1 (L.byteAt E n place.2)) else none

/-- The statements of an encoder. -/
def toBytes (E : IntType) (bytes : List Int) (n : Int) (bigEndian : Bool) : Option (List Int) :=
  (L.places bigEndian).foldlM (L.setByte E n) bytes

/-- An encoder with a pointer and a size, which it sets to what it used. -/
def toPointer (bytes : List Int) (sz : Nat) (n : Int) (bigEndian : Bool) :
    Option (List Int × Nat) :=
  if L.size ≤ sz then (L.toBytes .uint8 bytes n bigEndian).map fun b => (b, L.size) else none

/-- The statements of the four 32-bit functions. -/
def int32 : Layout where
  int := .int32
  word := .uint32
  size := 4
  places
    | true => [(0, 24), (1, 16), (2, 8), (3, 0)]
    | false => [(3, 24), (2, 16), (1, 8), (0, 0)]
  int_bits := rfl
  word_bits := rfl
  int_promoted := rfl
  word_promoted := rfl
  perm
    | true => by decide
    | false => by decide

/-- The loops of the four 64-bit functions. -/
def int64 : Layout where
  int := .int64
  word := .uint64
  size := 8
  places
    | true => (List.range 8).map fun i => (i, 56 - 8 * i)
    | false => (List.range 8).map fun i => (i, 8 * i)
  int_bits := rfl
  word_bits := rfl
  int_promoted := rfl
  word_promoted := rfl
  perm
    | true => by decide
    | false => by decide

end Layout

/-! ## The overloads -/

/-- `bytes_to_int32(bytes, big_endian)` -/
def bytesToInt32 : List Int → Bool → Option Int := Layout.int32.ofBytes

/-- `bytes_to_int32(bytes, sz, big_endian)` -/
def bytesToInt32Pointer : List Int → Nat → Bool → Option Int := Layout.int32.ofPointer

/-- `int32_to_bytes(bytes, n, big_endian)` -/
def int32ToBytes : IntType → List Int → Int → Bool → Option (List Int) := Layout.int32.toBytes

/-- `int32_to_bytes(bytes, sz, n, big_endian)` -/
def int32ToBytesPointer : List Int → Nat → Int → Bool → Option (List Int × Nat) :=
  Layout.int32.toPointer

/-- `bytes_to_int64(bytes, big_endian)` -/
def bytesToInt64 : List Int → Bool → Option Int := Layout.int64.ofBytes

/-- `bytes_to_int64(bytes, sz, big_endian)` -/
def bytesToInt64Pointer : List Int → Nat → Bool → Option Int := Layout.int64.ofPointer

/-- `int64_to_bytes(bytes, n, big_endian)` -/
def int64ToBytes : IntType → List Int → Int → Bool → Option (List Int) := Layout.int64.toBytes

/-- `int64_to_bytes(bytes, sz, n, big_endian)` -/
def int64ToBytesPointer : List Int → Nat → Int → Bool → Option (List Int × Nat) :=
  Layout.int64.toPointer

/-! ## The law -/

/-- The overloads of one size. -/
structure Codec where
  size : Nat
  ofBytes : List Int → Bool → Option Int
  ofPointer : List Int → Nat → Bool → Option Int
  toBytes : IntType → List Int → Int → Bool → Option (List Int)
  toPointer : List Int → Nat → Int → Bool → Option (List Int × Nat)

def int32Codec : Codec :=
  ⟨4, bytesToInt32, bytesToInt32Pointer, int32ToBytes, int32ToBytesPointer⟩

def int64Codec : Codec :=
  ⟨8, bytesToInt64, bytesToInt64Pointer, int64ToBytes, int64ToBytesPointer⟩

/-- The first bytes of a container, as `unsigned char`. -/
def octets (E : IntType) (size : Nat) (bytes : List Int) : List Int :=
  (bytes.take size).map fun c => (E.unsigned c : Int)

/-- What a codec promises of a number `n` and a container `bytes` with
elements of type `E`. -/
structure Law (c : Codec) (E : IntType) (big : Bool) (n : Int) (bytes : List Int) : Prop where
  /-- The number comes back. -/
  round_trip : ∃ out, c.toBytes E bytes n big = some out ∧ c.ofBytes out big = some n
  /-- The pointer overload writes the same bytes. -/
  same_bytes : ∀ memory sz, c.size ≤ memory.length → c.size ≤ sz →
    ∃ out out', c.toBytes E bytes n big = some out ∧
      c.toPointer memory sz n big = some (out', c.size) ∧
      octets E c.size out = octets .uint8 c.size out'
  /-- The pointer overload reads the same number from these bytes. -/
  same_number : ∃ out, c.toBytes E bytes n big = some out ∧ ∀ rest sz, c.size ≤ sz →
    c.ofPointer (octets E c.size out ++ rest) sz big = c.ofBytes out big
  /-- One byte order is the other one reversed. -/
  reversed : ∃ out out', c.toBytes E bytes n true = some out ∧
    c.toBytes E bytes n false = some out' ∧
    out.take c.size = (out'.take c.size).reverse

/-- The elements are unsigned, or every byte of `n` with its top bit set
has set bits only above it. -/
def Meets (E : IntType) (size : Nat) (n : Int) : Prop :=
  E.signed = false ∨ ∀ i k, i < size → n.testBit (8 * i + 7) = true → 8 * i + 7 < k →
    k < 8 * size → n.testBit k = true

end HighJump.Encoding.Bytes
