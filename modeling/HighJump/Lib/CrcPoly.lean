/-
HighJump.Lib.CrcPoly — the bit-serial check as a remainder over GF(2).

A register is a polynomial of degree below `w`, bit `i` the coefficient of
`X^i`. A left step multiplies by `X`, adds the message bit at `X^w` and
subtracts the generator where the leading coefficient is not zero, so the
register stays congruent to the polynomial of all the bits shifted in so
far. It is zero exactly when the generator divides that polynomial.
-/
import Mathlib.Algebra.Polynomial.Div
import Mathlib.Algebra.Polynomial.Monic
import Mathlib.Algebra.Field.ZMod
import Mathlib.Tactic.Ring
import HighJump.Lib.Crc

namespace HighJump.Lib.Crc

open Polynomial

variable {w : Nat}

/-! ## Bit vectors as polynomials -/

/-- A bit as an element of GF(2). -/
def bit (b : Bool) : ZMod 2 := if b then 1 else 0

theorem bit_xor : ∀ a b : Bool, bit (a ^^ b) = bit a + bit b := by decide

theorem bit_and : ∀ a b : Bool, bit (a && b) = bit a * bit b := by decide

theorem bit_add_self : ∀ x : ZMod 2, x + x = 0 := by decide

theorem bit_injective : ∀ a b : Bool, bit a = bit b → a = b := by decide

/-- The polynomial of a register. -/
noncomputable def toPoly (r : BitVec w) : (ZMod 2)[X] :=
  ∑ i ∈ Finset.range w, C (bit (r.getLsbD i)) * X ^ i

theorem coeff_toPoly (r : BitVec w) (n : Nat) : (toPoly r).coeff n = bit (r.getLsbD n) := by
  rw [toPoly, finsetSum_coeff]
  simp only [coeff_C_mul, coeff_X_pow, mul_ite, mul_one, mul_zero]
  rw [Finset.sum_ite_eq (Finset.range w) n fun i => bit (r.getLsbD i)]
  split
  · rfl
  · next h =>
      rw [BitVec.getLsbD_of_ge r n (by simpa using h)]
      rfl

theorem toPoly_eq_zero_iff (r : BitVec w) : toPoly r = 0 ↔ r = 0#w := by
  constructor
  · intro h
    apply BitVec.eq_of_getLsbD_eq
    intro i hi
    have hcoeff : bit (r.getLsbD i) = bit false := by
      rw [← coeff_toPoly, h]
      rfl
    rw [bit_injective _ _ hcoeff, BitVec.getLsbD_zero]
  · rintro rfl
    ext n
    rw [coeff_toPoly, BitVec.getLsbD_zero, coeff_zero]
    rfl

theorem degree_toPoly_lt (r : BitVec w) : (toPoly r).degree < w := by
  rw [degree_lt_iff_coeff_zero]
  intro n hn
  rw [coeff_toPoly, BitVec.getLsbD_of_ge r n hn]
  rfl

/-! ## The generator -/

/-- The generator with its leading term. -/
noncomputable def generator (poly : BitVec w) : (ZMod 2)[X] := X ^ w + toPoly poly

theorem generator_monic (poly : BitVec w) : (generator poly).Monic :=
  monic_X_pow_add (degree_toPoly_lt poly)

theorem degree_generator (poly : BitVec w) : (generator poly).degree = w := by
  have hlead : (toPoly poly).degree < (X ^ w : (ZMod 2)[X]).degree := by
    rw [degree_X_pow]
    exact degree_toPoly_lt poly
  rw [generator, degree_add_eq_left_of_degree_lt hlead, degree_X_pow]

/-- Only zero is both a multiple of the generator and a register. -/
theorem generator_dvd_toPoly_iff (poly r : BitVec w) : generator poly ∣ toPoly r ↔ r = 0#w := by
  constructor
  · intro h
    rw [← toPoly_eq_zero_iff]
    by_contra hne
    refine (generator_monic poly).not_dvd_of_degree_lt hne ?_ h
    rw [degree_generator]
    exact degree_toPoly_lt r
  · rintro rfl
    rw [(toPoly_eq_zero_iff _).mpr rfl]
    exact dvd_zero _

/-! ## Steps -/

/-- One left step subtracts a multiple of the generator. -/
theorem toPoly_stepMsb (poly r : BitVec w) (b : Bool) (hw : 0 < w) :
    X * toPoly r + C (bit b) * X ^ w =
      toPoly (stepMsb poly r b) + C (bit (r.msb ^^ b)) * generator poly := by
  ext n
  simp only [coeff_add, coeff_C_mul, coeff_X_pow, generator, coeff_toPoly]
  cases n with
  | zero =>
      rw [coeff_X_mul_zero, if_neg (by omega), getLsbD_stepMsb_zero poly r b hw, bit_and, mul_zero,
        zero_add, zero_add, bit_add_self]
  | succ n =>
      rw [coeff_X_mul, coeff_toPoly]
      rcases Nat.lt_trichotomy (n + 1) w with hlt | heq | hgt
      · rw [if_neg (by omega), getLsbD_stepMsb_succ poly r b hlt, bit_xor, bit_and, mul_zero,
          add_zero, zero_add, add_assoc, bit_add_self, add_zero]
      · have hmsb : r.getLsbD n = r.msb := by
          rw [BitVec.msb_eq_getLsbD_last, show w - 1 = n by omega]
        rw [if_pos heq, BitVec.getLsbD_of_ge _ (n + 1) (by omega),
          BitVec.getLsbD_of_ge _ (n + 1) (by omega), hmsb, bit_xor]
        simp [bit]
      · rw [if_neg (by omega), BitVec.getLsbD_of_ge _ n (by omega),
          BitVec.getLsbD_of_ge _ (n + 1) (by omega), BitVec.getLsbD_of_ge _ (n + 1) (by omega)]
        simp [bit]

/-- The polynomial of a message, its first bit the leading coefficient. -/
noncomputable def bitsPoly : List Bool → (ZMod 2)[X]
  | [] => 0
  | b :: bs => C (bit b) * X ^ bs.length + bitsPoly bs

/-- What has been shifted in is the register plus a multiple of the
generator. -/
theorem foldl_stepMsb_congr (poly : BitVec w) (hw : 0 < w) (bs : List Bool) :
    ∀ r : BitVec w, ∃ q : (ZMod 2)[X],
      X ^ bs.length * toPoly r + X ^ w * bitsPoly bs =
        toPoly (bs.foldl (stepMsb poly) r) + q * generator poly := by
  induction bs with
  | nil =>
      intro r
      exact ⟨0, by simp [bitsPoly]⟩
  | cons b bs ih =>
      intro r
      obtain ⟨q, hq⟩ := ih (stepMsb poly r b)
      refine ⟨q + X ^ bs.length * C (bit (r.msb ^^ b)), ?_⟩
      calc X ^ (b :: bs).length * toPoly r + X ^ w * bitsPoly (b :: bs)
          = X ^ bs.length * (X * toPoly r + C (bit b) * X ^ w) + X ^ w * bitsPoly bs := by
            rw [List.length_cons, bitsPoly]
            ring
        _ = (X ^ bs.length * toPoly (stepMsb poly r b) + X ^ w * bitsPoly bs) +
              X ^ bs.length * C (bit (r.msb ^^ b)) * generator poly := by
            rw [toPoly_stepMsb poly r b hw]
            ring
        _ = toPoly ((b :: bs).foldl (stepMsb poly) r) +
              (q + X ^ bs.length * C (bit (r.msb ^^ b))) * generator poly := by
            rw [hq, List.foldl_cons]
            ring

/-- **The register ends at zero exactly when the generator divides what was
shifted in.** -/
theorem foldl_stepMsb_eq_zero_iff (poly : BitVec w) (hw : 0 < w) (r : BitVec w) (bs : List Bool) :
    bs.foldl (stepMsb poly) r = 0#w ↔
      generator poly ∣ X ^ bs.length * toPoly r + X ^ w * bitsPoly bs := by
  obtain ⟨q, hq⟩ := foldl_stepMsb_congr poly hw bs r
  rw [hq, dvd_add_left (Dvd.intro_left q rfl), generator_dvd_toPoly_iff]

end HighJump.Lib.Crc
