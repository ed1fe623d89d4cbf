/-
HighJump.Lib.IntBits — the bit operators of fixed-width integer types.

A bit of a value is `Int.testBit`, two's complement continued to the left
for ever: a negative value has all its bits set from some place on. That
is what a conversion to a wider type does with it, so conversions keep
bits and need no case of their own (`testBit_wrap`), and each operator has
one lemma that gives the bits of its result.
-/
import HighJump.Lib.MachineInt
import Mathlib.Data.Int.Bitwise

namespace HighJump.Lib.IntType

def int64 : IntType := ⟨.w64, true⟩

def uint8 : IntType := ⟨.w8, false⟩

def uint64 : IntType := ⟨.w64, false⟩

/-- `x & y`, on the promoted type as `or` is. -/
def and (T : IntType) (x y : Int) : Int :=
  T.promoted.wrap (T.promoted.unsigned x &&& T.promoted.unsigned y : Nat)

/-- `~x` -/
def not (T : IntType) (x : Int) : Int := T.promoted.wrap (-x - 1)

/-- `x >> k`, arithmetic on negative values; `none` for a shift by the
width of the promoted type or more. -/
def shr (T : IntType) (x : Int) (k : Nat) : Option Int :=
  if k < T.promoted.width.bits then some (x / 2 ^ k) else none

/-- `x << k`, undefined as `shr` is. -/
def shlChecked (T : IntType) (x : Int) (k : Nat) : Option Int :=
  if k < T.promoted.width.bits then some (T.shl x k) else none

/-! ## Bits of integers -/

theorem testBit_eq_decide (x : Int) (k : Nat) : x.testBit k = decide (x / 2 ^ k % 2 = 1) := by
  cases x with
  | ofNat n =>
    have hdiv : Int.ofNat n / 2 ^ k % 2 = ((n / 2 ^ k % 2 : Nat) : Int) := by push_cast; rfl
    have hbit : (Int.ofNat n).testBit k = n.testBit k := rfl
    rw [hbit, hdiv, Nat.testBit_eq_decide_div_mod_eq]
    exact decide_eq_decide.mpr (by omega)
  | negSucc n =>
    have hpos : (0 : Int) < 2 ^ k := Int.pow_pos (by decide)
    have hdiv : Int.negSucc n / 2 ^ k = -((n / 2 ^ k : Nat) : Int) - 1 := by
      have hquot : (n : Int).ediv (2 ^ k) = ((n / 2 ^ k : Nat) : Int) := by push_cast; rfl
      rw [Int.negSucc_ediv n hpos, hquot]
      omega
    have hbit : (Int.negSucc n).testBit k = !n.testBit k := rfl
    rw [hbit, hdiv, Nat.testBit_eq_decide_div_mod_eq, ← decide_not]
    exact decide_eq_decide.mpr (by omega)

theorem testBit_natCast (n k : Nat) : (n : Int).testBit k = n.testBit k := rfl

theorem testBit_not_int (x : Int) (k : Nat) : (-x - 1).testBit k = !x.testBit k := by
  have hlnot : -x - 1 = x.lnot := by
    cases x with
    | ofNat n =>
      have hneg : (Int.ofNat n).lnot = Int.negSucc n := rfl
      rw [hneg, Int.negSucc_eq, Int.ofNat_eq_natCast]
      omega
    | negSucc n =>
      have hpos : (Int.negSucc n).lnot = n := rfl
      rw [hpos, Int.negSucc_eq]
      omega
  rw [hlnot, Int.testBit_lnot]

/-- Shifted to the right. -/
theorem testBit_ediv (x : Int) (i k : Nat) : (x / 2 ^ i).testBit k = x.testBit (i + k) := by
  rw [testBit_eq_decide, testBit_eq_decide, Int.ediv_ediv_of_nonneg (Int.pow_nonneg (by decide)),
    ← Int.pow_add]

theorem testBit_two_pow (j k : Nat) : (2 ^ j : Int).testBit k = decide (j = k) := by
  have hcast : (2 ^ j : Int) = ((2 ^ j : Nat) : Int) := by push_cast; rfl
  rw [hcast, testBit_natCast, Nat.testBit_two_pow]

/-- Shifted to the left. -/
theorem testBit_mul_two_pow (x : Int) (s k : Nat) :
    (x * 2 ^ s).testBit k = (decide (s ≤ k) && x.testBit (k - s)) := by
  have hpos : ∀ i : Nat, (0 : Int) < 2 ^ i := fun i => Int.pow_pos (by decide)
  by_cases hle : s ≤ k
  · obtain ⟨d, rfl⟩ := Nat.exists_eq_add_of_le hle
    rw [testBit_eq_decide, Int.pow_add, ← Int.ediv_ediv_of_nonneg (Int.le_of_lt (hpos s)),
      Int.mul_ediv_cancel _ (Int.ne_of_gt (hpos s)), Nat.add_sub_cancel_left, testBit_eq_decide]
    simp
  · obtain ⟨d, hd⟩ := Nat.exists_eq_add_of_lt (Nat.not_le.mp hle)
    have hmul : x * 2 ^ s = x * 2 ^ d * 2 * 2 ^ k := by
      rw [hd, Int.pow_succ, Int.pow_add]
      ac_rfl
    rw [testBit_eq_decide, hmul, Int.mul_ediv_cancel _ (Int.ne_of_gt (hpos k)),
      Int.mul_emod_left]
    simp [hle]

/-- From some place on every bit is the sign. -/
theorem testBit_eq_sign {x : Int} {k : Nat} (hlo : -2 ^ k ≤ x) (hhi : x < 2 ^ k) :
    x.testBit k = decide (x < 0) := by
  rw [testBit_eq_decide]
  by_cases hneg : x < 0
  · have hdiv : x / 2 ^ k = -1 := by
      refine ((Int.ediv_emod_unique (b := 2 ^ k) (r := x + 2 ^ k) (by omega)).mpr ?_).1
      omega
    rw [hdiv, decide_eq_true hneg]
    rfl
  · rw [Int.ediv_eq_zero_of_lt (by omega) hhi, decide_eq_false hneg]
    rfl

/-- The bits below a power that divides the difference agree. -/
theorem testBit_congr {x y : Int} {w k : Nat} (hk : k < w) (h : (2 ^ w : Int) ∣ x - y) :
    x.testBit k = y.testBit k := by
  obtain ⟨c, hc⟩ := h
  have hw : (2 ^ w : Int) = 2 ^ k * (2 * 2 ^ (w - k - 1)) := by
    rw [← Int.pow_succ', ← Int.pow_add]
    congr 1
    omega
  have hx : x = y + 2 ^ k * (2 * (2 ^ (w - k - 1) * c)) := by
    rw [← Int.mul_assoc 2, ← Int.mul_assoc, ← hw, ← hc]
    omega
  rw [testBit_eq_decide, testBit_eq_decide, hx,
    Int.add_mul_ediv_left _ _ (Int.ne_of_gt (Int.pow_pos (by decide))), Int.add_mul_emod_self_left]

/-! ## Bits of results -/

variable (T : IntType) {k : Nat}

theorem width_le_promoted : T.width.bits ≤ T.promoted.width.bits := by
  obtain ⟨w, s⟩ := T
  cases w <;> cases s <;> decide

theorem width_pos : 0 < T.width.bits := by
  obtain ⟨w, s⟩ := T
  cases w <;> cases s <;> decide

theorem width_le_64 : T.width.bits ≤ 64 := by
  obtain ⟨w, s⟩ := T
  cases w <;> cases s <;> decide

theorem width_le_32 (h : T.width ≠ .w64) : T.width.bits ≤ 32 := by
  obtain ⟨w, s⟩ := T
  cases w with
  | w64 => exact absurd rfl h
  | _ => cases s <;> decide

/-- Conversion keeps the bits that fit. -/
theorem testBit_wrap (x : Int) (hk : k < T.width.bits) : (T.wrap x).testBit k = x.testBit k :=
  (testBit_congr hk (T.modulus_dvd_sub_wrap x)).symm

/-- The bits beyond the type repeat the sign. -/
theorem testBit_of_mem {x : Int} (h : T.Mem x) (hk : T.width.bits ≤ k) :
    x.testBit k = (T.signed && x.testBit (T.width.bits - 1)) := by
  obtain ⟨hlo, hhi⟩ := h
  unfold max modulus at hhi
  have hpos : (0 : Int) < 2 ^ (T.width.bits - 1) := Int.pow_pos (by decide)
  have hdouble : (2 : Int) ^ T.width.bits = 2 ^ (T.width.bits - 1) * 2 := by
    rw [← Int.pow_succ]
    congr 1
    have hbits := T.width_pos
    omega
  have hmono : (2 : Int) ^ T.width.bits ≤ 2 ^ k := by
    exact_mod_cast Nat.pow_le_pow_right (by decide : 0 < 2) hk
  cases hs : T.signed with
  | true =>
    have hmin : T.min = -2 ^ (T.width.bits - 1) := by rw [min, hs, if_pos rfl]
    rw [Bool.true_and, testBit_eq_sign (by omega) (by omega),
      testBit_eq_sign (by omega) (by omega)]
  | false =>
    have hmin : T.min = 0 := by rw [min, hs, if_neg Bool.false_ne_true]
    rw [Bool.false_and, testBit_eq_sign (by omega) (by omega)]
    exact decide_eq_false (by omega)

theorem testBit_unsigned (x : Int) (hk : k < T.width.bits) :
    (T.unsigned x).testBit k = x.testBit k := by
  have hdvd : (2 ^ T.width.bits : Int) ∣ x - T.unsigned x := by
    rw [unsigned_eq]
    exact Int.dvd_self_sub_emod
  rw [testBit_congr hk hdvd, testBit_natCast]

/-- A value is known by its bits. -/
theorem eq_of_testBit {x y : Int} (hx : T.Mem x) (hy : T.Mem y)
    (h : ∀ k, k < T.width.bits → x.testBit k = y.testBit k) : x = y := by
  have hlt : ∀ z, T.unsigned z < 2 ^ T.width.bits := by
    intro z
    have hmod := Int.emod_lt_of_pos z T.modulus_pos
    rw [← unsigned_eq, modulus] at hmod
    exact_mod_cast hmod
  have hbits : T.unsigned x = T.unsigned y := by
    refine Nat.eq_of_testBit_eq fun k => ?_
    by_cases hk : k < T.width.bits
    · rw [testBit_unsigned _ _ hk, testBit_unsigned _ _ hk, h k hk]
    · have hpow := Nat.pow_le_pow_right (show 0 < 2 by decide) (Nat.not_lt.mp hk)
      rw [Nat.testBit_lt_two_pow (Nat.lt_of_lt_of_le (hlt x) hpow),
        Nat.testBit_lt_two_pow (Nat.lt_of_lt_of_le (hlt y) hpow)]
  rw [← T.wrap_unsigned hx, hbits, T.wrap_unsigned hy]

theorem testBit_shl (x : Int) (s : Nat) (hk : k < T.promoted.width.bits) :
    (T.shl x s).testBit k = (decide (s ≤ k) && x.testBit (k - s)) := by
  rw [shl, testBit_wrap _ _ hk, testBit_mul_two_pow]

theorem testBit_and (x y : Int) (hk : k < T.promoted.width.bits) :
    (T.and x y).testBit k = (x.testBit k && y.testBit k) := by
  rw [and, testBit_wrap _ _ hk, testBit_natCast, Nat.testBit_and, testBit_unsigned _ _ hk,
    testBit_unsigned _ _ hk]

theorem testBit_or (x y : Int) (hk : k < T.promoted.width.bits) :
    (T.or x y).testBit k = (x.testBit k || y.testBit k) := by
  rw [or, testBit_wrap _ _ hk, testBit_natCast, Nat.testBit_or, testBit_unsigned _ _ hk,
    testBit_unsigned _ _ hk]

theorem testBit_not (x : Int) (hk : k < T.promoted.width.bits) :
    (T.not x).testBit k = !x.testBit k := by
  rw [not, testBit_wrap _ _ hk, testBit_not_int]

/-- The lowest bit on its own. -/
theorem and_one (x : Int) : T.and x 1 = if x.testBit 0 then 1 else 0 := by
  have hone : T.promoted.unsigned 1 = 1 := by
    obtain ⟨w, s⟩ := T
    cases w <;> cases s <;> decide
  have hbit : T.promoted.unsigned x % 2 = if x.testBit 0 then 1 else 0 := by
    rw [← testBit_unsigned _ x T.promoted.width_pos, Nat.testBit_zero]
    rcases Nat.mod_two_eq_zero_or_one (T.promoted.unsigned x) with h | h <;> rw [h] <;> rfl
  rw [and, hone, Nat.and_one_is_mod, hbit]
  obtain ⟨w, s⟩ := T
  split <;> cases w <;> cases s <;> decide

/-- A one shifted into the sign of an `int` makes it negative, and every
bit from there on is set. -/
theorem testBit_shl_one {j : Nat} (hj : j < 32) (k : Nat) :
    (int32.shl 1 j).testBit k = (decide (j = k) || decide (j = 31 ∧ 31 ≤ k)) := by
  by_cases h31 : j = 31
  · subst h31
    have hmin : int32.shl 1 31 = -2 ^ 31 := by decide
    have hneg : (-2 ^ 31 : Int) = -(2 ^ 31 - 1 : Nat) - 1 := by decide
    rw [hmin, hneg, testBit_not_int, testBit_natCast, Nat.testBit_two_pow_sub_one]
    by_cases hk : k < 31
    · simp [hk, Nat.not_le.mpr hk]
      omega
    · simp [hk, Nat.not_lt.mp hk]
  · have hpow : int32.shl 1 j = 2 ^ j := by
      have hle : (2 : Int) ^ j ≤ 2 ^ 30 := by
        exact_mod_cast Nat.pow_le_pow_right (by decide) (show j ≤ 30 by omega)
      have hnonneg : (0 : Int) ≤ 2 ^ j := Int.pow_nonneg (by decide)
      rw [shl, Int.one_mul]
      refine int32.promoted.wrap_of_mem ⟨?_, ?_⟩
      · exact Int.le_trans (by decide) hnonneg
      · exact Int.le_trans hle (by decide)
    rw [hpow, testBit_two_pow]
    simp [h31]

end HighJump.Lib.IntType
