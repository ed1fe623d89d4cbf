/-
HighJump.Algo.CrcTheorems — the table-driven checks compute the bit-serial
ones.

Each table is compared entry by entry with eight bit steps, which makes
one turn of the loop a byte step of `HighJump.Lib.Crc`; the loop is then a
fold over the buffer, and a fold splits where the buffer is split. Whether
the split can be seen depends on what `start` says: CRC-32 and XMODEM read
a zero start as the register that a zero check stands for, MODBUS reads it
as a fresh one.
-/
import HighJump.Algo.Crc
import HighJump.Lib.Crc

namespace HighJump.Algo.Crc

open HighJump.Lib HighJump.Lib.Crc

/-! ## The parameter sets -/

/-- "ISO/IEC 3309" -/
def isoHdlc : Params 32 where
  poly := 0x04C11DB7
  init := 0xFFFFFFFF
  refin := true
  refout := true
  xorout := 0xFFFFFFFF

/-- "MODBUS" -/
def modbus : Params 16 where
  poly := 0x8005
  init := 0xFFFF
  refin := true
  refout := true
  xorout := 0

/-- "XMODEM", also known as "ZMODEM", "CRC-16/ACORN" -/
def xmodem : Params 16 where
  poly := 0x1021
  init := 0
  refin := false
  refout := false
  xorout := 0

/-! ## The tables -/

/-- Every entry is what eight shifts make of its index. -/
theorem tables_entries :
    (crc32Table.toList.map UInt32.toBitVec = (List.range 256).map fun i =>
      (shiftLsb isoHdlc.poly.reverse)^[8] (BitVec.ofNat 32 i)) ∧
    (Modbus.crc16Table.toList.map UInt16.toBitVec = (List.range 256).map fun i =>
      (shiftLsb modbus.poly.reverse)^[8] (BitVec.ofNat 16 i)) ∧
    Xmodem.crc16Table.toList.map UInt16.toBitVec = (List.range 256).map fun i =>
      (shiftMsb xmodem.poly)^[8] (BitVec.ofNat 16 i <<< 8) := by
  decide +kernel

/-! ## One byte -/

theorem crc32Update_eq (crc : UInt32) (c : UInt8) :
    crc32Update crc c =
      some (UInt32.ofBitVec (byteLsb isoHdlc.poly.reverse crc.toBitVec c.toBitVec)) := by
  obtain ⟨t, ht, htv⟩ :=
    lookup_of_entries tables_entries.1 (crc.toBitVec ^^^ c.toBitVec.setWidth 32)
  have hval : t ^^^ (crc >>> 8) =
      UInt32.ofBitVec (byteLsb isoHdlc.poly.reverse crc.toBitVec c.toBitVec) := by
    apply UInt32.toBitVec_inj.mp
    rw [UInt32.toBitVec_xor, htv]
    rfl
  have hindex : crc32Table[((crc ^^^ c.toUInt32) &&& 0xFF).toNat]? = some t := ht
  rw [crc32Update, hindex, ← hval]
  rfl

theorem Modbus.crc16Update_eq (crc : UInt16) (c : UInt8) :
    Modbus.crc16Update crc c =
      some (UInt16.ofBitVec (byteLsb modbus.poly.reverse crc.toBitVec c.toBitVec)) := by
  obtain ⟨t, ht, htv⟩ :=
    lookup_of_entries tables_entries.2.1 (crc.toBitVec ^^^ c.toBitVec.setWidth 16)
  have hval : t ^^^ (crc >>> 8) =
      UInt16.ofBitVec (byteLsb modbus.poly.reverse crc.toBitVec c.toBitVec) := by
    apply UInt16.toBitVec_inj.mp
    rw [UInt16.toBitVec_xor, htv]
    rfl
  have hindex : Modbus.crc16Table[((crc ^^^ c.toUInt16) &&& 0xFF).toNat]? = some t := ht
  rw [Modbus.crc16Update, hindex, ← hval]
  rfl

theorem Xmodem.crc16Update_eq (crc : UInt16) (c : UInt8) :
    Xmodem.crc16Update crc c =
      some (UInt16.ofBitVec (byteMsb xmodem.poly crc.toBitVec c.toBitVec)) := by
  obtain ⟨t, ht, htv⟩ :=
    lookup_of_entries (f := fun x => (shiftMsb xmodem.poly)^[8] (x <<< 8)) tables_entries.2.2
      ((crc.toBitVec >>> 8) ^^^ c.toBitVec.setWidth 16)
  have hval : (crc <<< 8) ^^^ t =
      UInt16.ofBitVec (byteMsb xmodem.poly crc.toBitVec c.toBitVec) := by
    have hmask := lowOctet_shiftLeft ((crc.toBitVec >>> 8) ^^^ c.toBitVec.setWidth 16) (by decide)
    apply UInt16.toBitVec_inj.mp
    rw [UInt16.toBitVec_xor, htv, hmask]
    rfl
  have hindex : Xmodem.crc16Table[(((crc >>> 8) ^^^ c.toUInt16) &&& 0x00FF).toNat]? = some t := ht
  rw [Xmodem.crc16Update, hindex, ← hval]
  rfl

/-! ## The loop -/

/-- The loop folds the buffer when its counter can reach the end. -/
theorem overBuffer_eq {σ : Type} {most : Nat} {update : σ → UInt8 → Option σ} {f : σ → UInt8 → σ}
    (hupdate : ∀ crc c, update crc c = some (f crc c)) (u : List UInt8) (crc : σ)
    (hlen : u.length ≤ most) :
    overBuffer most update u u.length crc = some (u.foldl f crc) := by
  have hturn : ∀ i s, 0 ≤ i → i < 0 + u.length → s = (u.take i).foldl f crc →
      ∃ s', turn most update u i s = some s' ∧ s' = (u.take (i + 1)).foldl f crc := by
    intro i s _ hi hs
    have hu : u[i]? = some u[i] := List.getElem?_eq_getElem (by omega)
    refine ⟨f s u[i], ?_, ?_⟩
    · simp only [turn, hu, hupdate, Option.bind_eq_bind, Option.bind_some]
      exact if_pos (by omega)
    · rw [List.take_add_one, hu, List.foldl_append, hs]
      rfl
  obtain ⟨crc', hrun, hP⟩ := forUp_spec _ u.length 0 crc hturn (by rw [List.take_zero]; rfl)
  rw [overBuffer, hrun, hP, Nat.zero_add, List.take_length]

/-- The loop overruns its counter on a buffer that is too long. -/
theorem overBuffer_none {σ : Type} {most : Nat} {update : σ → UInt8 → Option σ} (u : List UInt8)
    (crc : σ) (hlen : most < u.length) : overBuffer most update u u.length crc = none := by
  have hturn : ∀ s, turn most update u most s = none := by
    intro s
    simp [turn]
  have hsplit : u.length = most + (1 + (u.length - most - 1)) := by omega
  rw [overBuffer]
  conv_lhs => rw [hsplit]
  rw [forUp_add, Option.bind_eq_none_iff]
  intro s _
  rw [forUp_add, Nat.zero_add, forUp, hturn]
  rfl

/-! ## What a call returns -/

/-- The register after a buffer, for the three checks. -/
def crc32Register (crc : UInt32) (u : List UInt8) : UInt32 :=
  u.foldl (fun crc c => .ofBitVec (byteLsb isoHdlc.poly.reverse crc.toBitVec c.toBitVec)) crc

def Modbus.register (crc : UInt16) (u : List UInt8) : UInt16 :=
  u.foldl (fun crc c => .ofBitVec (byteLsb modbus.poly.reverse crc.toBitVec c.toBitVec)) crc

def Xmodem.register (crc : UInt16) (u : List UInt8) : UInt16 :=
  u.foldl (fun crc c => .ofBitVec (byteMsb xmodem.poly crc.toBitVec c.toBitVec)) crc

theorem toBitVec_crc32Register (crc : UInt32) (u : List UInt8) :
    (crc32Register crc u).toBitVec =
      (u.map UInt8.toBitVec).foldl (byteLsb isoHdlc.poly.reverse) crc.toBitVec := by
  rw [crc32Register, List.foldl_map]
  exact (List.foldl_hom UInt32.toBitVec fun _ _ => rfl).symm

theorem Modbus.toBitVec_register (crc : UInt16) (u : List UInt8) :
    (Modbus.register crc u).toBitVec =
      (u.map UInt8.toBitVec).foldl (byteLsb modbus.poly.reverse) crc.toBitVec := by
  rw [Modbus.register, List.foldl_map]
  exact (List.foldl_hom UInt16.toBitVec fun _ _ => rfl).symm

theorem Xmodem.toBitVec_register (crc : UInt16) (u : List UInt8) :
    (Xmodem.register crc u).toBitVec =
      (u.map UInt8.toBitVec).foldl (byteMsb xmodem.poly) crc.toBitVec := by
  rw [Xmodem.register, List.foldl_map]
  exact (List.foldl_hom UInt16.toBitVec fun _ _ => rfl).symm

/-- A zero start is no special case of CRC-32. -/
theorem crc32_eq (u : List UInt8) (start : UInt32) (hlen : u.length ≤ sizeMax) :
    crc32 (some u) u.length start =
      some (crc32Register (start ^^^ 0xFFFFFFFF) u ^^^ 0xFFFFFFFF) := by
  have hstart : (if start ≠ 0 then start ^^^ 0xFFFFFFFF else 0xFFFFFFFF) = start ^^^ 0xFFFFFFFF := by
    split
    · rfl
    · next h => rw [not_not.mp h]; rfl
  have hloop := overBuffer_eq crc32Update_eq u (start ^^^ 0xFFFFFFFF) hlen
  rw [crc32, if_neg (by simp), hstart, Option.getD_some]
  simp only [hloop, Option.bind_eq_bind, Option.bind_some]
  rfl

/-- The register MODBUS starts from. -/
def Modbus.initial (start : UInt16) : UInt16 := if start ≠ 0 then start else 0xFFFF

theorem Modbus.crc16_eq (u : List UInt8) (start : UInt16) (hlen : u.length ≤ intMax) :
    Modbus.crc16 (some u) u.length start =
      some (Modbus.register (Modbus.initial start) u) := by
  rw [Modbus.crc16, crc16With, if_neg (by simp)]
  exact overBuffer_eq Modbus.crc16Update_eq u _ hlen

theorem Modbus.crc16_none (u : List UInt8) (start : UInt16) (hlen : intMax < u.length) :
    Modbus.crc16 (some u) u.length start = none := by
  rw [Modbus.crc16, crc16With, if_neg (by simp)]
  exact overBuffer_none u _ hlen

/-- Nor is it one of XMODEM. -/
theorem Xmodem.crc16_eq (u : List UInt8) (start : UInt16) (hlen : u.length ≤ intMax) :
    Xmodem.crc16 (some u) u.length start = some (Xmodem.register start u) := by
  have hstart : (if start ≠ 0 then start else 0) = start := by
    split
    · rfl
    · next h => exact (not_not.mp h).symm
  rw [Xmodem.crc16, crc16With, if_neg (by simp), hstart]
  exact overBuffer_eq Xmodem.crc16Update_eq u start hlen

/-! ## Checks computed in pieces -/

/-- The check of `a ++ b` is the check of `b` started from that of `a`. -/
def Chains {σ : Type} (crc : Option (List UInt8) → Nat → σ → Option σ) (a b : List UInt8)
    (start : σ) : Prop :=
  ∃ c d, crc (some a) a.length start = some c ∧ crc (some b) b.length c = some d ∧
    crc (some (a ++ b)) (a ++ b).length start = some d

theorem crc32_chains (a b : List UInt8) (start : UInt32) (hlen : (a ++ b).length ≤ sizeMax) :
    Chains crc32 a b start := by
  have ha : a.length ≤ sizeMax := by rw [List.length_append] at hlen; omega
  have hb : b.length ≤ sizeMax := by rw [List.length_append] at hlen; omega
  refine ⟨_, _, crc32_eq a start ha, crc32_eq b _ hb, ?_⟩
  rw [crc32_eq (a ++ b) start hlen, UInt32.xor_assoc, UInt32.xor_self, UInt32.xor_zero,
    crc32Register, List.foldl_append]
  rfl

theorem Xmodem.crc16_chains (a b : List UInt8) (start : UInt16)
    (hlen : (a ++ b).length ≤ intMax) : Chains Xmodem.crc16 a b start := by
  have ha : a.length ≤ intMax := by rw [List.length_append] at hlen; omega
  have hb : b.length ≤ intMax := by rw [List.length_append] at hlen; omega
  refine ⟨_, _, Xmodem.crc16_eq a start ha, Xmodem.crc16_eq b _ hb, ?_⟩
  rw [Xmodem.crc16_eq (a ++ b) start hlen, Xmodem.register, List.foldl_append]
  rfl

/-- **The three checks are the bit-serial ones**, and CRC-32 and XMODEM may
be computed in pieces, whatever the split and the start. -/
theorem crc_eq_bitSerial (msg : List UInt8) (hlen : msg.length < 2 ^ 31) :
    crc32 (some msg) msg.length 0 = some (.ofBitVec (isoHdlc.crc (msg.map UInt8.toBitVec))) ∧
    Modbus.crc16 (some msg) msg.length 0 =
      some (.ofBitVec (modbus.crc (msg.map UInt8.toBitVec))) ∧
    Xmodem.crc16 (some msg) msg.length 0 =
      some (.ofBitVec (xmodem.crc (msg.map UInt8.toBitVec))) ∧
    ∀ a b, a ++ b = msg →
      (∀ start, Chains crc32 a b start) ∧ (∀ start, Chains Xmodem.crc16 a b start) := by
  have hsize : msg.length ≤ sizeMax := by unfold sizeMax; omega
  have hint : msg.length ≤ intMax := by unfold intMax; omega
  refine ⟨?_, ?_, ?_, ?_⟩
  · have hreg := toBitVec_crc32Register (0 ^^^ 0xFFFFFFFF) msg
    have hinit : (0 ^^^ 0xFFFFFFFF : UInt32).toBitVec = isoHdlc.init.reverse := by decide +kernel
    have hxor : (0xFFFFFFFF : UInt32).toBitVec = isoHdlc.xorout := by decide
    rw [crc32_eq msg 0 hsize, isoHdlc.crc_reflected rfl rfl (by decide)]
    congr 1
    apply UInt32.toBitVec_inj.mp
    rw [UInt32.toBitVec_xor, hreg, hinit, hxor]
  · have hreg := Modbus.toBitVec_register (Modbus.initial 0) msg
    have hinit : (Modbus.initial 0).toBitVec = modbus.init.reverse := by decide +kernel
    rw [Modbus.crc16_eq msg 0 hint, modbus.crc_reflected rfl rfl (by decide)]
    congr 1
    apply UInt16.toBitVec_inj.mp
    rw [hreg, hinit]
    exact (BitVec.xor_zero).symm
  · have hreg := Xmodem.toBitVec_register 0 msg
    rw [Xmodem.crc16_eq msg 0 hint, xmodem.crc_plain rfl rfl (by decide)]
    congr 1
    apply UInt16.toBitVec_inj.mp
    rw [hreg]
    exact (BitVec.xor_zero).symm
  · rintro a b rfl
    exact ⟨fun start => crc32_chains a b start hsize,
      fun start => Xmodem.crc16_chains a b start hint⟩

/-- "123456789", cut after "1234". -/
theorem crc_eq_bitSerial_digits :
    crc32 (some [0x31, 0x32, 0x33, 0x34, 0x35, 0x36, 0x37, 0x38, 0x39]) 9 0 =
        some 0xCBF43926 ∧
      .ofBitVec (isoHdlc.crc (List.map UInt8.toBitVec
        [0x31, 0x32, 0x33, 0x34, 0x35, 0x36, 0x37, 0x38, 0x39])) = (0xCBF43926 : UInt32) ∧
      Chains Xmodem.crc16 [0x31, 0x32, 0x33, 0x34] [0x35, 0x36, 0x37, 0x38, 0x39] 0 := by
  have h := crc_eq_bitSerial [0x31, 0x32, 0x33, 0x34, 0x35, 0x36, 0x37, 0x38, 0x39] (by decide)
  have hval : crc32 (some [0x31, 0x32, 0x33, 0x34, 0x35, 0x36, 0x37, 0x38, 0x39]) 9 0 =
      some 0xCBF43926 := by decide +kernel
  exact ⟨hval, Option.some.inj (h.1.symm.trans hval),
    (h.2.2.2 [0x31, 0x32, 0x33, 0x34] [0x35, 0x36, 0x37, 0x38, 0x39] rfl).2 0⟩

end HighJump.Algo.Crc
