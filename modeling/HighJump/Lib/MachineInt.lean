/-
HighJump.Lib.MachineInt — arithmetic of fixed-width integers on `Nat` and
`Int`.

A subtraction of `size_t` values is a parameter of the code that makes
it: `wrapSub` is what the machine does, `trapSub` fails instead of
wrapping. Code that runs through under `trapSub` has not wrapped
anywhere, and a lemma proved for every `Exact` subtraction serves both.

An `IntType` is a fixed-width integer type. Its values are integers in
its range; arithmetic is done on integers and wrapped at the width of the
promoted type.
-/
import Mathlib.Data.Int.Basic
import Mathlib.Tactic.Common
import Mathlib.Algebra.Ring.Nat
import Mathlib.Algebra.Ring.Int.Defs

namespace HighJump.Lib

universe u

/-! ## Bits -/

/-- The numbers next to each other in the bits do not mix. -/
theorem and_split {k a b m c : Nat} (hb : b < 2 ^ k) (hc : c < 2 ^ k) :
    (2 ^ k * a + b) &&& (2 ^ k * m + c) = 2 ^ k * (a &&& m) + (b &&& c) := by
  have hbc : b &&& c < 2 ^ k := Nat.and_lt_two_pow b hc
  apply Nat.eq_of_testBit_eq
  intro j
  rw [Nat.testBit_and, Nat.testBit_two_pow_mul_add _ hb, Nat.testBit_two_pow_mul_add _ hc,
    Nat.testBit_two_pow_mul_add _ hbc]
  split <;> rw [Nat.testBit_and]

theorem or_split {k a b m c : Nat} (hb : b < 2 ^ k) (hc : c < 2 ^ k) :
    (2 ^ k * a + b) ||| (2 ^ k * m + c) = 2 ^ k * (a ||| m) + (b ||| c) := by
  have hbc : b ||| c < 2 ^ k := Nat.or_lt_two_pow hb hc
  apply Nat.eq_of_testBit_eq
  intro j
  rw [Nat.testBit_or, Nat.testBit_two_pow_mul_add _ hb, Nat.testBit_two_pow_mul_add _ hc,
    Nat.testBit_two_pow_mul_add _ hbc]
  split <;> rw [Nat.testBit_or]

/-- A mask of the high bits. -/
theorem and_high {k l n : Nat} (hn : n < 2 ^ (k + l)) :
    n &&& 2 ^ k * (2 ^ l - 1) = 2 ^ k * (n / 2 ^ k) := by
  have hlt : n / 2 ^ k < 2 ^ l := by
    refine Nat.div_lt_of_lt_mul ?_
    rwa [← Nat.pow_add]
  have hsplit := and_split (k := k) (a := n / 2 ^ k) (b := n % 2 ^ k) (m := 2 ^ l - 1) (c := 0)
    (Nat.mod_lt _ (Nat.two_pow_pos k)) (Nat.two_pow_pos k)
  rwa [Nat.div_add_mod, Nat.and_zero, Nat.add_zero, Nat.add_zero, Nat.and_two_pow_sub_one_eq_mod,
    Nat.mod_eq_of_lt hlt] at hsplit

/-! ## Counters -/

/-- The largest `int`. -/
def intMax : Nat := 2 ^ 31 - 1

/-- The largest `size_t`. -/
def sizeMax : Nat := 2 ^ 64 - 1

/-! ## Checked `int` -/

/-- The result of an `int` operation; `none` where it overflows. -/
def checkInt (n : Int) : Option Int := if -2 ^ 31 ≤ n ∧ n < 2 ^ 31 then some n else none

/-- `a / b` on `int`s. -/
def divInt (a b : Int) : Option Int := if b = 0 then none else checkInt (a.tdiv b)

/-- `a % b` on `int`s, which is undefined where `a / b` is. -/
def modInt (a b : Int) : Option Int := (divInt a b).map fun _ => a.tmod b

theorem checkInt_natCast {n : Nat} (h : n < 2 ^ 31) : checkInt n = some (n : Int) :=
  if_pos ⟨by omega, by omega⟩

theorem divInt_natCast {a b : Nat} (ha : a < 2 ^ 31) (hb : 0 < b) :
    divInt a b = some ((a / b : Nat) : Int) := by
  have hle := Nat.div_le_self a b
  rw [divInt, if_neg (by omega), ← Int.ofNat_tdiv]
  exact checkInt_natCast (by omega)

theorem modInt_natCast {a b : Nat} (ha : a < 2 ^ 31) (hb : 0 < b) :
    modInt a b = some ((a % b : Nat) : Int) := by
  rw [modInt, divInt_natCast ha hb, Option.map_some, ← Int.ofNat_tmod]

/-! ## Subtraction of `size_t` -/

section Sub

variable {ε : Type u}

/-- Modulo 2^64. -/
def wrapSub (a b : Nat) : Except ε Nat := .ok ((a + 2 ^ 64 - b) % 2 ^ 64)

/-- Fails on a result below zero. -/
def trapSub (e : ε) (a b : Nat) : Except ε Nat := if b ≤ a then .ok (a - b) else .error e

/-- Right wherever the result is not below zero. -/
def Exact (sub : Nat → Nat → Except ε Nat) : Prop :=
  ∀ a b, b ≤ a → a < 2 ^ 64 → sub a b = .ok (a - b)

theorem wrapSub_exact : Exact (wrapSub : Nat → Nat → Except ε Nat) := by
  intro a b hle hlt
  rw [wrapSub, Nat.sub_add_comm hle, Nat.add_mod_right, Nat.mod_eq_of_lt (by omega)]

theorem trapSub_exact (e : ε) : Exact (trapSub e) := by
  intro a b hle _
  exact if_pos hle

/-- A wrapped difference is zero only of equals. -/
theorem wrapSub_pos {a b : Nat} (ha : a < 2 ^ 64) (hb : b < 2 ^ 64) (hne : b ≠ a) :
    ∃ k, 1 ≤ k ∧ (wrapSub a b : Except ε Nat) = .ok k := by
  refine ⟨(a + 2 ^ 64 - b) % 2 ^ 64, ?_, rfl⟩
  omega

end Sub

/-! ## Fixed-width integer types -/

/-- The widths of `<cstdint>`. -/
inductive Width where
  | w8 | w16 | w32 | w64
  deriving DecidableEq, Repr

def Width.bits : Width → Nat
  | .w8 => 8
  | .w16 => 16
  | .w32 => 32
  | .w64 => 64

/-- `int8_t` … `uint64_t`. -/
structure IntType where
  width : Width
  signed : Bool
  deriving DecidableEq, Repr

namespace IntType

def int32 : IntType := ⟨.w32, true⟩

def uint32 : IntType := ⟨.w32, false⟩

/-- How many values there are. -/
def modulus (T : IntType) : Int := 2 ^ T.width.bits

/-- `std::numeric_limits<T>::min()`. -/
def min (T : IntType) : Int := if T.signed then -2 ^ (T.width.bits - 1) else 0

/-- `std::numeric_limits<T>::max()`. -/
def max (T : IntType) : Int := T.min + T.modulus - 1

/-- Conversion to `T`: two's complement. -/
def wrap (T : IntType) (x : Int) : Int := (x - T.min) % T.modulus + T.min

/-- The type an operand of type `T` has after integer promotion. -/
def promoted (T : IntType) : IntType := if T.width.bits < 32 then int32 else T

/-- `x + y`, `x - y` and `x * y` on values of `T`: the promoted type's. -/
def add (T : IntType) (x y : Int) : Int := T.promoted.wrap (x + y)

def sub (T : IntType) (x y : Int) : Int := T.promoted.wrap (x - y)

def mul (T : IntType) (x y : Int) : Int := T.promoted.wrap (x * y)

/-- The representation of `x` as an unsigned number. -/
def unsigned (T : IntType) (x : Int) : Nat := (x % T.modulus).toNat

/-- `x << k` and `x | y`, also on the promoted type. -/
def shl (T : IntType) (x : Int) (k : Nat) : Int := T.promoted.wrap (x * 2 ^ k)

def or (T : IntType) (x y : Int) : Int :=
  T.promoted.wrap (T.promoted.unsigned x ||| T.promoted.unsigned y : Nat)

/-- `x` is a value of `T`. -/
def Mem (T : IntType) (x : Int) : Prop := T.min ≤ x ∧ x ≤ T.max

instance (T : IntType) (x : Int) : Decidable (T.Mem x) := inferInstanceAs (Decidable (_ ∧ _))

variable (T : IntType)

/-- Values of `T` are kept. -/
theorem wrap_of_mem {x : Int} (h : T.Mem x) : T.wrap x = x := by
  obtain ⟨hlo, hhi⟩ := h
  unfold max at hhi
  rw [wrap, Int.emod_eq_of_lt (by omega) (by omega)]
  omega

/-- Wrapping is congruent. -/
theorem modulus_dvd_sub_wrap (x : Int) : T.modulus ∣ x - T.wrap x := by
  have h : x - T.wrap x = (x - T.min) - (x - T.min) % T.modulus := by
    unfold wrap
    omega
  rw [h]
  exact Int.dvd_self_sub_emod

/-- A class modulo the number of values has one value of `T` in it. -/
theorem wrap_eq_of_dvd {x y : Int} (hy : T.Mem y) (h : T.modulus ∣ x - y) : T.wrap x = y := by
  have hxy : (x - T.min) % T.modulus = (y - T.min) % T.modulus := by
    have hsub : x - T.min - (y - T.min) = x - y := by omega
    rw [Int.emod_eq_emod_iff_emod_sub_eq_zero, hsub]
    exact Int.emod_eq_zero_of_dvd h
  have hw := T.wrap_of_mem hy
  unfold wrap at hw ⊢
  rw [hxy, hw]

theorem mem_zero : T.Mem 0 := by
  obtain ⟨w, s⟩ := T
  cases w <;> cases s <;> decide

theorem modulus_pos : 0 < T.modulus := by
  obtain ⟨w, s⟩ := T
  cases w <;> cases s <;> decide

/-- Wrapping sees a number up to the number of values. -/
theorem wrap_congr {x y : Int} (h : T.modulus ∣ x - y) : T.wrap x = T.wrap y := by
  have hsub : x - T.min - (y - T.min) = x - y := by omega
  rw [wrap, wrap, Int.emod_eq_emod_iff_emod_sub_eq_zero.mpr
    (by rw [hsub]; exact Int.emod_eq_zero_of_dvd h)]

theorem unsigned_eq (x : Int) : (T.unsigned x : Int) = x % T.modulus := by
  rw [unsigned, Int.toNat_of_nonneg (Int.emod_nonneg x (Int.ne_of_gt T.modulus_pos))]

/-- Conversion keeps the representation. -/
theorem unsigned_wrap (x : Int) : (T.unsigned (T.wrap x) : Int) = x % T.modulus := by
  rw [unsigned_eq]
  exact (Int.emod_eq_emod_iff_emod_sub_eq_zero.mpr
    (Int.emod_eq_zero_of_dvd (T.modulus_dvd_sub_wrap x))).symm

theorem mem_wrap (x : Int) : T.Mem (T.wrap x) := by
  have hnonneg := Int.emod_nonneg (x - T.min) (Int.ne_of_gt T.modulus_pos)
  have hlt := Int.emod_lt_of_pos (x - T.min) T.modulus_pos
  unfold Mem max wrap
  omega

/-- A value is read back from its representation. -/
theorem wrap_unsigned {x : Int} (h : T.Mem x) : T.wrap (T.unsigned x) = x := by
  refine T.wrap_eq_of_dvd h ?_
  rw [unsigned_eq, ← Int.neg_sub]
  exact Int.dvd_neg.mpr Int.dvd_self_sub_emod

theorem modulus_dvd_promoted : T.modulus ∣ T.promoted.modulus := by
  obtain ⟨w, s⟩ := T
  cases w <;> cases s <;> decide

theorem sixteen_dvd_modulus : 16 ∣ T.modulus := by
  obtain ⟨w, s⟩ := T
  cases w <;> cases s <;> decide

/-- A shift by four makes room for four bits. -/
theorem wrap_or_shl (x : Int) {d : Nat} (hd : d < 16) :
    T.wrap (T.or (T.shl x 4) d) = T.wrap (x * 16 + d) := by
  have hpos := T.promoted.modulus_pos
  have h16 := T.promoted.sixteen_dvd_modulus
  have hshift : (T.promoted.unsigned (T.shl x 4) : Int) = x * 16 % T.promoted.modulus :=
    T.promoted.unsigned_wrap (x * 2 ^ 4)
  have hdigit : T.promoted.unsigned d = d := by
    rw [unsigned, Int.emod_eq_of_lt (by omega) (by have := Int.le_of_dvd hpos h16; omega),
      Int.toNat_natCast]
  -- the shifted number is a multiple of 16
  obtain ⟨k, hk⟩ : 16 ∣ T.promoted.unsigned (T.shl x 4) := by
    have hdvd : (16 : Int) ∣ x * 16 % T.promoted.modulus := by
      refine Int.dvd_of_emod_eq_zero ?_
      rw [Int.emod_emod_of_dvd _ h16, Int.mul_emod_left]
    rw [← hshift] at hdvd
    exact_mod_cast hdvd
  have hor : T.promoted.unsigned (T.shl x 4) ||| d = T.promoted.unsigned (T.shl x 4) + d := by
    rw [hk, Nat.mul_comm, ← Nat.shiftLeft_eq k 4, Nat.shiftLeft_add_eq_or_of_lt (i := 4) hd]
  rw [or, hdigit, hor]
  refine T.wrap_congr (Int.dvd_trans T.modulus_dvd_promoted ?_)
  generalize hsum : T.promoted.unsigned (T.shl x 4) + d = sum
  have hwrap := T.promoted.modulus_dvd_sub_wrap (sum : Int)
  have hmod : T.promoted.modulus ∣ x * 16 - T.promoted.unsigned (T.shl x 4) := by
    rw [hshift]
    exact Int.dvd_self_sub_emod
  have heq : T.promoted.wrap sum - (x * 16 + d) =
      -((sum - T.promoted.wrap sum) + (x * 16 - T.promoted.unsigned (T.shl x 4))) := by
    omega
  rw [heq]
  exact Int.dvd_neg.mpr (Int.dvd_add hwrap hmod)

/-- Promotion keeps values. -/
theorem mem_promoted {x : Int} (h : T.Mem x) : T.promoted.Mem x := by
  have hle : T.promoted.min ≤ T.min ∧ T.max ≤ T.promoted.max := by
    obtain ⟨w, s⟩ := T
    cases w <;> cases s <;> decide
  exact ⟨Int.le_trans hle.1 h.1, Int.le_trans h.2 hle.2⟩

end IntType

end HighJump.Lib
