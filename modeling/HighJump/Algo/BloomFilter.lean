/-
HighJump.Algo.BloomFilter — the Bloom filter of `bloom_filter.hpp`.

The number of bits and the number of hash functions of a filter come out
of `double` arithmetic on its two parameters and are clamped to fixed
ranges. The arithmetic, `std::hash` and the test for an empty string are
parameters of the model (`Env`); what the constructor does with them is
not. A value goes to one position for each hash function, a filter is
written out as a string of its bits, and reading such a string back checks
that it has as many bits as the filter and nothing else.
-/
import Mathlib.Data.BitVec
import Mathlib.Tactic.Common

namespace HighJump.Algo.Bloom

/-! ## Bit sets -/

/-- `detail::dynamic_bitset`: the bits in words of 64. -/
structure DynamicBitset where
  numBits : Nat
  data : List (BitVec 64)
  numWords : data.length = (numBits + 63) / 64

namespace DynamicBitset

theorem word_lt (s : DynamicBitset) {pos : Nat} (h : pos < s.numBits) :
    pos / 64 < s.data.length := by
  have := s.numWords
  omega

/-- A new set, all zero. -/
def ofSize (numBits : Nat) : DynamicBitset where
  numBits
  data := List.replicate ((numBits + 63) / 64) 0
  numWords := List.length_replicate

def set (s : DynamicBitset) (pos : Nat) (value : Bool) : DynamicBitset :=
  if h : pos < s.numBits then
    let word := s.data.get ⟨pos / 64, s.word_lt h⟩
    let bit := 1#64 <<< (pos % 64)
    { s with
      data := s.data.set (pos / 64) (if value then word ||| bit else word &&& ~~~bit)
      numWords := (List.length_set).trans s.numWords }
  else s

def test (s : DynamicBitset) (pos : Nat) : Bool :=
  if h : pos < s.numBits then
    (s.data.get ⟨pos / 64, s.word_lt h⟩ >>> (pos % 64)) &&& 1 ≠ 0
  else false

def reset (s : DynamicBitset) : DynamicBitset where
  numBits := s.numBits
  data := List.replicate s.data.length 0
  numWords := (List.length_replicate).trans s.numWords

end DynamicBitset

/-! ## What the filter takes from outside -/

/-- `double` arithmetic, `std::hash` and `_assert_not_empty`. -/
structure Env (T : Type) where
  /-- `double`, as far as rates need it -/
  Rate : Type
  /-- `rate <= 0.0 || rate >= 1.0` -/
  outOfRange : Rate → Bool
  /-- `0.01` -/
  defaultRate : Rate
  /-- `static_cast<size_t>(-1 * n * std::log(p) / (std::pow(std::log(2), 2)))` -/
  optimalNumOfBits : Nat → Rate → Nat
  /-- `static_cast<size_t>(std::round((double) m / n * std::log(2)))` -/
  roundedRatio : Nat → Nat → Nat
  /-- `std::hash<T>` -/
  h1 : T → BitVec 64
  /-- `std::hash<size_t>` -/
  h2 : BitVec 64 → BitVec 64
  /-- what `_assert_not_empty` asserts; always true unless `T` is
  `std::string` -/
  notEmpty : T → Bool

section

variable {T : Type} (env : Env T)

/-! ## The filter -/

def minBits : Nat := 64
def maxBits : Nat := 1 <<< 16
def minHashes : Nat := 1
def maxHashes : Nat := 16

/-- `x = (x < lo) ? lo : x; x = (x > hi) ? hi : x` -/
def clamp (lo hi x : Nat) : Nat :=
  let x := if x < lo then lo else x
  if x > hi then hi else x

theorem clamp_pos {lo hi : Nat} (hlo : 0 < lo) (hhi : 0 < hi) (x : Nat) : 0 < clamp lo hi x := by
  simp only [clamp]
  split <;> split <;> omega

/-- A filter: its bit set is as large as it says and not empty. -/
structure BloomFilter where
  numBits : Nat
  numHashFunctions : Nat
  bits : DynamicBitset
  bits_size : bits.numBits = numBits
  numBits_pos : 0 < numBits

/-- `_optimal_num_of_hash_functions` -/
def optimalNumOfHashFunctions (n m : Nat) : Nat :=
  if n = 0 then 1 else max 1 (env.roundedRatio n m)

/-- `bit_size()` of a new filter. -/
def bitSize (expectedInsertions : Nat) (falsePositiveRate : env.Rate) : Nat :=
  let n := if expectedInsertions = 0 then 100 else expectedInsertions
  let p := if env.outOfRange falsePositiveRate then env.defaultRate else falsePositiveRate
  clamp minBits maxBits (env.optimalNumOfBits n p)

/-- `hash_count()` of a new filter. -/
def hashCount (expectedInsertions : Nat) (falsePositiveRate : env.Rate) : Nat :=
  let n := if expectedInsertions = 0 then 100 else expectedInsertions
  clamp minHashes maxHashes
    (optimalNumOfHashFunctions env n (bitSize env expectedInsertions falsePositiveRate))

theorem bitSize_pos (expectedInsertions : Nat) (falsePositiveRate : env.Rate) :
    0 < bitSize env expectedInsertions falsePositiveRate :=
  clamp_pos (by decide) (by decide) _

/-- The constructor. -/
def bloomFilter (expectedInsertions : Nat) (falsePositiveRate : env.Rate) : BloomFilter where
  numBits := bitSize env expectedInsertions falsePositiveRate
  numHashFunctions := hashCount env expectedInsertions falsePositiveRate
  bits := .ofSize (bitSize env expectedInsertions falsePositiveRate)
  bits_size := rfl
  numBits_pos := bitSize_pos env expectedInsertions falsePositiveRate

/-- `_hash_i` -/
def hashI (value : T) (i : Nat) : BitVec 64 :=
  let hval := env.h1 value
  let hmix := hval + BitVec.ofNat 64 i * env.h2 hval
  hmix &&& 0x7FFFFFFFFFFFFFFF#64

/-- `_hash_i(value, i) % num_bits` -/
def position (numBits : Nat) (value : T) (i : Nat) : Nat := (hashI env value i).toNat % numBits

theorem numBits_set (s : DynamicBitset) (pos : Nat) (value : Bool) :
    (s.set pos value).numBits = s.numBits := by
  rw [DynamicBitset.set]
  split <;> rfl

namespace BloomFilter

def clear (f : BloomFilter) : BloomFilter := { f with bits := f.bits.reset, bits_size := f.bits_size }

/-- `for(i = 0; i < _num_hash_functions; ++i) _bits.set(hash % _num_bits)` -/
def setAll (numBits : Nat) (value : T) (bits : DynamicBitset) (numHashes : Nat) : DynamicBitset :=
  (List.range numHashes).foldl (fun bits i => bits.set (position env numBits value i) true) bits

theorem numBits_setAll (numBits : Nat) (value : T) (bits : DynamicBitset) (numHashes : Nat) :
    (setAll env numBits value bits numHashes).numBits = bits.numBits := by
  rw [setAll]
  induction numHashes with
  | zero => rfl
  | succ n ih =>
      rw [List.range_succ, List.foldl_append, List.foldl_cons, List.foldl_nil, numBits_set]
      exact ih

/-- `none` is a failed assertion. -/
def add (f : BloomFilter) (value : T) : Option BloomFilter :=
  if env.notEmpty value then
    some { f with
      bits := setAll env f.numBits value f.bits f.numHashFunctions
      bits_size := (numBits_setAll env f.numBits value f.bits f.numHashFunctions).trans f.bits_size }
  else none

/-- `none` is a failed assertion. -/
def contains (f : BloomFilter) (value : T) : Option Bool :=
  if env.notEmpty value then
    some ((List.range f.numHashFunctions).all fun i =>
      f.bits.test (position env f.numBits value i))
  else none

def serialize (f : BloomFilter) : List Char :=
  (List.range f.numBits).map fun i => if f.bits.test i then '1' else '0'

/-- `for(i = 0; i < s.size(); ++i) _bits.set(i, s[i] == '1')`, from `i` on. -/
def setFrom (bits : DynamicBitset) : Nat → List Char → DynamicBitset
  | _, [] => bits
  | i, c :: cs => setFrom (bits.set i (c == '1')) (i + 1) cs

theorem numBits_setFrom (s : List Char) :
    ∀ (bits : DynamicBitset) (i : Nat), (setFrom bits i s).numBits = bits.numBits := by
  induction s with
  | nil => intro bits i; rfl
  | cons c s ih =>
      intro bits i
      rw [setFrom, ih, numBits_set]

def unserialize (f : BloomFilter) (s : List Char) : Bool × BloomFilter :=
  if s.length ≠ f.numBits then (false, f)
  else
    (true, { f with
      bits := setFrom f.bits 0 s
      bits_size := (numBits_setFrom s f.bits 0).trans f.bits_size })

end BloomFilter

/-! ## Runs -/

/-- The calls that change a filter. -/
inductive Op (T : Type) where
  | add (value : T)
  | clear

/-- A run of calls; `none` when an assertion failed. -/
def run : BloomFilter → List (Op T) → Option BloomFilter
  | f, [] => some f
  | f, .add v :: ops => (f.add env v).bind (run · ops)
  | f, .clear :: ops => run f.clear ops

/-- The values added since the last `clear`, with `seen` before the run. -/
def addedFrom (seen : List T) : List (Op T) → List T
  | [] => seen
  | .add v :: ops => addedFrom (seen ++ [v]) ops
  | .clear :: ops => addedFrom [] ops

/-- The values added since the last `clear`. -/
def added (ops : List (Op T)) : List T := addedFrom [] ops

end

end HighJump.Algo.Bloom
