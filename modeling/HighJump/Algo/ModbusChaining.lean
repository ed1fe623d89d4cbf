/-
HighJump.Algo.ModbusChaining — when a MODBUS check may be computed in
pieces.

`Modbus.crc16` reads a zero `start` as a fresh register, and zero is also
a check like any other: a frame followed by its own check has it. A piece
that ends there loses what came before it. Which pieces those are is a
matter of divisibility over GF(2), so the condition below says nothing
about the code: the generator X^16 + X^15 + X^2 + 1 must not divide what
the piece shifts in after the starting register.
-/
import HighJump.Algo.CrcTheorems
import HighJump.Lib.CrcPoly

namespace HighJump.Algo.Crc

open HighJump.Lib HighJump.Lib.Crc Polynomial

/-- The comment's "x^16 + x^15 + x^2 + 1". -/
theorem generator_modbus : generator modbus.poly = X ^ 16 + X ^ 15 + X ^ 2 + 1 := by
  have hbits : ∀ i : Nat, i < 16 →
      modbus.poly.getLsbD i = decide (i = 0 ∨ i = 2 ∨ i = 15) := by decide
  have hpoly : toPoly modbus.poly = ∑ i ∈ Finset.range 16,
      C (bit (decide (i = 0 ∨ i = 2 ∨ i = 15))) * X ^ i := by
    refine Finset.sum_congr rfl fun i hi => ?_
    rw [hbits i (Finset.mem_range.mp hi)]
  rw [generator, hpoly]
  simp [Finset.sum_range_succ, bit]
  ring

namespace Modbus

/-- The polynomial of a starting register and the piece that follows it,
the bits of each byte least significant first. -/
noncomputable def shiftedIn (start : UInt16) (a : List UInt8) : (ZMod 2)[X] :=
  X ^ (8 * a.length) * toPoly (Modbus.initial start).toBitVec.reverse +
    X ^ 16 * bitsPoly (a.flatMap fun c => bitsLsb c.toBitVec)

/-- The reversed register, bit by bit. -/
theorem reverse_register (crc : UInt16) (u : List UInt8) :
    (Modbus.register crc u).toBitVec.reverse =
      (u.flatMap fun c => bitsLsb c.toBitVec).foldl (stepMsb modbus.poly) crc.toBitVec.reverse := by
  have hbits : (u.flatMap fun c => bitsLsb c.toBitVec) = (u.map UInt8.toBitVec).flatMap bitsLsb :=
    (List.flatMap_map UInt8.toBitVec bitsLsb u).symm
  have hrev := reverse_foldl_stepMsb modbus.poly (u.flatMap fun c => bitsLsb c.toBitVec)
    crc.toBitVec.reverse
  rw [BitVec.reverse_reverse_eq, hbits, foldl_flatMap_bitsLsb _ (by decide),
    ← Modbus.toBitVec_register] at hrev
  rw [← hrev, BitVec.reverse_reverse_eq, hbits]

/-- A piece ends at zero exactly when the generator divides it. -/
theorem register_eq_zero_iff (start : UInt16) (a : List UInt8) :
    Modbus.register (Modbus.initial start) a = 0 ↔
      X ^ 16 + X ^ 15 + X ^ 2 + 1 ∣ shiftedIn start a := by
  have hlen : (a.flatMap fun c => bitsLsb c.toBitVec).length = 8 * a.length := by
    rw [List.length_flatMap]
    simp [bitsLsb, Nat.mul_comm]
  rw [shiftedIn, ← generator_modbus, ← hlen, ← foldl_stepMsb_eq_zero_iff _ (by decide),
    ← reverse_register, BitVec.reverse_eq_zero_iff, ← UInt16.toBitVec_inj]
  rfl

theorem register_injective (u : List UInt8) :
    Function.Injective fun crc => Modbus.register crc u := by
  intro crc crc' h
  have hrev := congrArg (fun x : UInt16 => x.toBitVec.reverse) h
  simp only [reverse_register] at hrev
  have hinj := foldl_stepMsb_injective modbus.poly (by decide) (by decide) _ hrev
  have hbits := congrArg BitVec.reverse hinj
  rw [BitVec.reverse_reverse_eq, BitVec.reverse_reverse_eq] at hbits
  exact UInt16.toBitVec_inj.mp hbits

theorem register_append (crc : UInt16) (a b : List UInt8) :
    Modbus.register crc (a ++ b) = Modbus.register (Modbus.register crc a) b :=
  List.foldl_append

/-- Zero is the one start that is not the register itself. -/
theorem initial_eq_self_iff (start : UInt16) : Modbus.initial start = start ↔ start ≠ 0 := by
  unfold Modbus.initial
  split
  · next h => exact iff_of_true rfl h
  · next h =>
      have hzero : start = 0 := not_not.mp h
      subst hzero
      exact iff_of_false (by decide) h

/-- **A MODBUS check may be computed in pieces exactly when** the whole fits
an `int` counter and the first piece does not end at zero. -/
theorem crc16_chains_iff (a b : List UInt8) (start : UInt16) (ha : a.length < 2 ^ 31)
    (hb : b.length < 2 ^ 31) :
    Chains Modbus.crc16 a b start ↔
      a.length + b.length < 2 ^ 31 ∧ ¬ X ^ 16 + X ^ 15 + X ^ 2 + 1 ∣ shiftedIn start a := by
  have hca := crc16_eq a start (by unfold intMax; omega)
  have hcb := fun c => crc16_eq b c (by unfold intMax; omega)
  rw [← register_eq_zero_iff, ← Ne, ← initial_eq_self_iff]
  constructor
  · rintro ⟨c, d, hc, hd, hwhole⟩
    have hlen : a.length + b.length < 2 ^ 31 := by
      by_contra hlong
      rw [crc16_none (a ++ b) start (by rw [List.length_append]; unfold intMax; omega)] at hwhole
      cases hwhole
    refine ⟨hlen, ?_⟩
    rw [crc16_eq (a ++ b) start (by rw [List.length_append]; unfold intMax; omega),
      register_append] at hwhole
    obtain rfl : Modbus.register (Modbus.initial start) a = c := Option.some.inj (hca.symm.trans hc)
    rw [hcb] at hd
    exact register_injective b (Option.some.inj (hd.trans hwhole.symm))
  · rintro ⟨hlen, hself⟩
    refine ⟨_, _, hca, hcb _, ?_⟩
    rw [crc16_eq (a ++ b) start (by rw [List.length_append]; unfold intMax; omega),
      register_append, hself]

/-- Two pieces of "12" chain, so the generator does not divide the first. -/
theorem crc16_chains_iff_digits :
    Chains Modbus.crc16 [0x31] [0x32] 0 ∧
      ¬ X ^ 16 + X ^ 15 + X ^ 2 + 1 ∣ shiftedIn 0 [0x31] := by
  have hchains : Chains Modbus.crc16 [0x31] [0x32] 0 := by
    refine ⟨0x947E, 0xF595, ?_, ?_, ?_⟩ <;> decide +kernel
  exact ⟨hchains, ((crc16_chains_iff [0x31] [0x32] 0 (by decide) (by decide)).mp hchains).2⟩

/-- The frame [1] followed by its own check, then one more byte. -/
theorem crc16_frame_then_check : ¬ Chains Modbus.crc16 [0x01, 0x7E, 0x80] [0x02] 0 := by
  rintro ⟨c, d, hc, hd, hwhole⟩
  have hzero : Modbus.crc16 (some [0x01, 0x7E, 0x80]) 3 0 = some 0 := by decide +kernel
  obtain rfl : 0 = c := Option.some.inj (hzero.symm.trans hc)
  have hne : Modbus.crc16 (some [0x02]) 1 0 ≠
      Modbus.crc16 (some [0x01, 0x7E, 0x80, 0x02]) 4 0 := by decide +kernel
  exact hne (hd.trans hwhole.symm)

end Modbus

end HighJump.Algo.Crc
