/-
HighJump.Lib.Crc — bit-serial cyclic redundancy checks, and the byte-wise
table step that computes the same thing.

A register of `w` bits takes one message bit at a time: it is shifted by
one, and the generator is added (xor) when the bit that falls out differs
from the message bit. `stepMsb` shifts towards the most significant bit,
`stepLsb` towards the least; one is the other seen through
`BitVec.reverse`. Both steps are linear, so `n` of them act on the part of
the register that falls out and on the part that stays separately, which
is what a table of `2^n` entries exploits (`foldl_stepLsb_table`,
`foldl_stepMsb_table`).
-/
import Mathlib.Data.BitVec
import Mathlib.Tactic.Common

namespace HighJump.Lib.Crc

variable {w : Nat}

/-! ## One bit -/

/-- One message bit into a register that shifts left. -/
def stepMsb (poly r : BitVec w) (b : Bool) : BitVec w :=
  if r.msb ^^ b then (r <<< 1) ^^^ poly else r <<< 1

/-- One message bit into a register that shifts right. -/
def stepLsb (poly r : BitVec w) (b : Bool) : BitVec w :=
  if r.getLsbD 0 ^^ b then (r >>> 1) ^^^ poly else r >>> 1

/-- The step on a zero bit. -/
def shiftMsb (poly r : BitVec w) : BitVec w := stepMsb poly r false

/-- The step on a zero bit. -/
def shiftLsb (poly r : BitVec w) : BitVec w := stepLsb poly r false

theorem getLsbD_stepMsb_zero (poly r : BitVec w) (b : Bool) (hw : 0 < w) :
    (stepMsb poly r b).getLsbD 0 = ((r.msb ^^ b) && poly.getLsbD 0) := by
  rw [stepMsb]
  cases r.msb ^^ b <;> simp [hw]

theorem getLsbD_stepMsb_succ (poly r : BitVec w) (b : Bool) {n : Nat} (hn : n + 1 < w) :
    (stepMsb poly r b).getLsbD (n + 1) =
      (r.getLsbD n ^^ ((r.msb ^^ b) && poly.getLsbD (n + 1))) := by
  rw [stepMsb]
  cases r.msb ^^ b <;> simp [hn, BitVec.getLsbD_eq_getElem (show n < w by omega)]

/-- A left step loses nothing when the generator has a constant term. -/
theorem stepMsb_injective (poly : BitVec w) (hw : 0 < w) (hpoly : poly.getLsbD 0 = true) (b : Bool) :
    Function.Injective fun r : BitVec w => stepMsb poly r b := by
  intro r r' h
  have h : stepMsb poly r b = stepMsb poly r' b := h
  have hfb : (r.msb ^^ b) = (r'.msb ^^ b) := by
    have h0 := congrArg (fun x : BitVec w => x.getLsbD 0) h
    simpa only [getLsbD_stepMsb_zero _ _ _ hw, hpoly, Bool.and_true] using h0
  apply BitVec.eq_of_getLsbD_eq
  intro i hi
  by_cases hlast : i + 1 < w
  · have hsucc := congrArg (fun x : BitVec w => x.getLsbD (i + 1)) h
    simp only [getLsbD_stepMsb_succ _ _ _ hlast, hfb] at hsucc
    exact Bool.xor_left_inj.mp hsucc
  · have hmsb : r.msb = r'.msb := Bool.xor_left_inj.mp hfb
    rw [BitVec.msb_eq_getLsbD_last, BitVec.msb_eq_getLsbD_last] at hmsb
    rw [show i = w - 1 by omega]
    exact hmsb

theorem foldl_stepMsb_injective (poly : BitVec w) (hw : 0 < w) (hpoly : poly.getLsbD 0 = true)
    (bs : List Bool) : Function.Injective fun r : BitVec w => bs.foldl (stepMsb poly) r := by
  induction bs with
  | nil => exact fun _ _ h => h
  | cons b bs ih => exact ih.comp (stepMsb_injective poly hw hpoly b)

/-- The bits of a byte, least significant first. -/
def bitsLsb (c : BitVec 8) : List Bool := List.ofFn fun i : Fin 8 => c.getLsbD i

/-- The bits of a byte, most significant first. -/
def bitsMsb (c : BitVec 8) : List Bool := List.ofFn fun i : Fin 8 => c.getMsbD i

/-! ## The bit-serial check -/

/-- The parameters of a check: generator without its leading term, first
value of the register, whether bytes go in least significant bit first,
whether the register comes out reversed, and what is added at the end. -/
structure Params (w : Nat) where
  poly : BitVec w
  init : BitVec w
  refin : Bool
  refout : Bool
  xorout : BitVec w

/-- The message bits in the order they enter the register. -/
def Params.bits (p : Params w) (msg : List (BitVec 8)) : List Bool :=
  msg.flatMap fun c => if p.refin then bitsLsb c else bitsMsb c

/-- The check of a message, bit by bit. -/
def Params.crc (p : Params w) (msg : List (BitVec 8)) : BitVec w :=
  let r := (p.bits msg).foldl (stepMsb p.poly) p.init
  (if p.refout then r.reverse else r) ^^^ p.xorout

/-! ## The two directions -/

theorem reverse_xor (x y : BitVec w) : (x ^^^ y).reverse = x.reverse ^^^ y.reverse := by
  apply BitVec.eq_of_getLsbD_eq
  intro i hi
  simp [BitVec.getLsbD_reverse, BitVec.getMsbD_xor]

theorem reverse_shiftLeft (x : BitVec w) (n : Nat) : (x <<< n).reverse = x.reverse >>> n := by
  apply BitVec.eq_of_getLsbD_eq
  intro i hi
  rw [BitVec.getLsbD_reverse, BitVec.getLsbD_ushiftRight, BitVec.getLsbD_reverse]
  rw [BitVec.getMsbD_shiftLeft, Nat.add_comm]

/-- Reversal turns a left step into a right step with the reversed
generator. -/
theorem reverse_stepMsb (poly r : BitVec w) (b : Bool) :
    (stepMsb poly r b).reverse = stepLsb poly.reverse r.reverse b := by
  have hmsb : r.reverse.getLsbD 0 = r.msb := BitVec.getLsbD_reverse
  rw [stepMsb, stepLsb, hmsb]
  split
  · rw [reverse_xor, reverse_shiftLeft]
  · exact reverse_shiftLeft r 1

theorem reverse_foldl_stepMsb (poly : BitVec w) (bs : List Bool) :
    ∀ r : BitVec w,
      (bs.foldl (stepMsb poly) r).reverse = bs.foldl (stepLsb poly.reverse) r.reverse := by
  induction bs with
  | nil => intro r; rfl
  | cons b bs ih =>
      intro r
      rw [List.foldl_cons, List.foldl_cons, ih, reverse_stepMsb]

theorem bitsMsb_eq (c : BitVec 8) : bitsMsb c = bitsLsb c.reverse := by
  simp only [bitsMsb, bitsLsb, BitVec.getLsbD_reverse]

/-! ## Linearity -/

/-- A message bit enters where the register's own bit falls out. -/
theorem stepLsb_eq_shiftLsb (poly r : BitVec w) (hw : 0 < w) (b : Bool) :
    stepLsb poly r b = shiftLsb poly (r ^^^ (BitVec.ofBool b).setWidth w) := by
  have hshift : ((BitVec.ofBool b).setWidth w) >>> 1 = 0#w := by
    apply BitVec.eq_of_getLsbD_eq
    intro i hi
    simp
  have hbit : (r ^^^ (BitVec.ofBool b).setWidth w).getLsbD 0 = (r.getLsbD 0 ^^ b) := by
    simp [hw]
  rw [shiftLsb, stepLsb, stepLsb, hbit, BitVec.ushiftRight_xor_distrib, hshift, BitVec.xor_zero,
    Bool.xor_false]

theorem shiftLsb_xor (poly x y : BitVec w) :
    shiftLsb poly (x ^^^ y) = shiftLsb poly x ^^^ shiftLsb poly y := by
  simp only [shiftLsb, stepLsb, Bool.xor_false, BitVec.getLsbD_xor, BitVec.ushiftRight_xor_distrib]
  cases x.getLsbD 0 <;> cases y.getLsbD 0
  · rfl
  · simp [BitVec.xor_assoc]
  · simp only [Bool.xor_false, if_true, Bool.false_eq_true, if_false]
    rw [BitVec.xor_assoc, BitVec.xor_comm (y >>> 1), ← BitVec.xor_assoc]
  · simp only [Bool.xor_self, Bool.false_eq_true, if_false, if_true]
    rw [BitVec.xor_assoc, BitVec.xor_comm (y >>> 1), ← BitVec.xor_assoc poly, BitVec.xor_self,
      BitVec.zero_xor]

theorem iterate_shiftLsb_xor (poly : BitVec w) (n : Nat) :
    ∀ x y : BitVec w, (shiftLsb poly)^[n] (x ^^^ y) = (shiftLsb poly)^[n] x ^^^ (shiftLsb poly)^[n] y := by
  induction n with
  | zero => intro x y; rfl
  | succ n ih =>
      intro x y
      rw [Function.iterate_succ_apply, shiftLsb_xor, ih, Function.iterate_succ_apply,
        Function.iterate_succ_apply]

/-- What was shifted up without loss is only shifted back. -/
theorem shiftLsb_shiftLeft (poly x : BitVec w) (h : x.msb = false) : shiftLsb poly (x <<< 1) = x := by
  have hbit : (x <<< 1).getLsbD 0 = false := by simp
  rw [shiftLsb, stepLsb, hbit]
  apply BitVec.eq_of_getLsbD_eq
  intro i hi
  rw [BitVec.msb_eq_getLsbD_last] at h
  by_cases hlast : 1 + i < w
  · simp [hlast, BitVec.getLsbD_eq_getElem hi]
  · have hi' : i = w - 1 := by omega
    subst hi'
    simp [hlast, h]

theorem iterate_shiftLsb_shiftLeft (poly : BitVec w) (n : Nat) :
    ∀ x : BitVec w, (∀ i, w ≤ i + n → x.getLsbD i = false) → (shiftLsb poly)^[n] (x <<< n) = x := by
  induction n with
  | zero => intro x _; exact BitVec.shiftLeft_zero x
  | succ n ih =>
      intro x hx
      have hmsb : (x <<< n).msb = false := by
        rw [BitVec.msb_eq_getLsbD_last, BitVec.getLsbD_shiftLeft]
        rw [hx (w - 1 - n) (by omega), Bool.and_false]
      rw [BitVec.shiftLeft_add, Function.iterate_succ_apply, shiftLsb_shiftLeft poly _ hmsb]
      exact ih x fun i hi => hx i (by omega)

/-! ## A byte at a time -/

/-- Bits as a register value, the first bit lowest. -/
def load (w : Nat) (bs : List Bool) : BitVec w := (BitVec.ofBoolListLE bs).setWidth w

theorem getLsbD_load (bs : List Bool) {i : Nat} (hi : i < w) :
    (load w bs).getLsbD i = bs.getD i false := by
  rw [load, BitVec.getLsbD_setWidth, BitVec.getLsbD_ofBoolListLE, decide_eq_true hi, Bool.true_and]

theorem load_cons (b : Bool) (bs : List Bool) :
    load w (b :: bs) = (BitVec.ofBool b).setWidth w ^^^ (load w bs <<< 1) := by
  apply BitVec.eq_of_getLsbD_eq
  intro i hi
  rw [getLsbD_load _ hi, BitVec.getLsbD_xor, BitVec.getLsbD_shiftLeft]
  cases i with
  | zero => simp [hi]
  | succ i => simp [hi, getLsbD_load bs (show i < w by omega)]

theorem load_bitsLsb (c : BitVec 8) : load w (bitsLsb c) = c.setWidth w := by
  apply BitVec.eq_of_getLsbD_eq
  intro i hi
  rw [getLsbD_load _ hi, BitVec.getLsbD_setWidth, decide_eq_true hi, Bool.true_and]
  rw [bitsLsb, List.getD_eq_getElem?_getD, List.getElem?_ofFn]
  split
  · rfl
  · exact (BitVec.getLsbD_of_ge c i (by omega)).symm

/-- Bits may all be added to the register before it is shifted. -/
theorem foldl_stepLsb_eq (poly : BitVec w) (bs : List Bool) :
    ∀ r : BitVec w, bs.length ≤ w →
      bs.foldl (stepLsb poly) r = (shiftLsb poly)^[bs.length] (r ^^^ load w bs) := by
  induction bs with
  | nil =>
      intro r _
      have hnil : load w [] = 0#w := by
        apply BitVec.eq_of_getLsbD_eq
        intro i hi
        rw [getLsbD_load _ hi]
        simp
      rw [hnil, BitVec.xor_zero]
      rfl
  | cons b bs ih =>
      intro r hlen
      rw [List.length_cons] at hlen ⊢
      have hmsb : (load w bs).msb = false := by
        rw [BitVec.msb_eq_getLsbD_last, getLsbD_load _ (by omega)]
        rw [List.getD_eq_getElem?_getD, List.getElem?_eq_none (by omega), Option.getD_none]
      have hstep : shiftLsb poly (r ^^^ load w (b :: bs)) = stepLsb poly r b ^^^ load w bs := by
        rw [load_cons, ← BitVec.xor_assoc, shiftLsb_xor, shiftLsb_shiftLeft poly _ hmsb,
          stepLsb_eq_shiftLsb poly r (by omega)]
      rw [List.foldl_cons, ih _ (by omega), Function.iterate_succ_apply, hstep]

/-- The low octet of a register. -/
def lowOctet (r : BitVec w) : BitVec w := r &&& (255#8).setWidth w

theorem getLsbD_lowOctet (r : BitVec w) {i : Nat} (hi : i < w) :
    (lowOctet r).getLsbD i = (r.getLsbD i && decide (i < 8)) := by
  have hmask : (255#8).getLsbD i = decide (i < 8) :=
    (BitVec.getLsbD_allOnes : (BitVec.allOnes 8).getLsbD i = decide (i < 8))
  rw [lowOctet, BitVec.getLsbD_and, BitVec.getLsbD_setWidth, hmask, decide_eq_true hi,
    Bool.true_and]

theorem lowOctet_lt (r : BitVec w) : (lowOctet r).toNat < 256 := by
  have hmask : ((255#8).setWidth w).toNat ≤ 255 := by
    rw [BitVec.toNat_setWidth]
    exact Nat.mod_le _ _
  have hand : (lowOctet r).toNat ≤ ((255#8).setWidth w).toNat := by
    rw [lowOctet, BitVec.toNat_and]
    exact Nat.and_le_right
  omega

/-- Only the low octet is left after a shift that keeps eight bits. -/
theorem lowOctet_shiftLeft (r : BitVec w) (hw : 8 ≤ w) :
    lowOctet r <<< (w - 8) = r <<< (w - 8) := by
  apply BitVec.eq_of_getLsbD_eq
  intro i hi
  rw [BitVec.getLsbD_shiftLeft, BitVec.getLsbD_shiftLeft]
  by_cases hlow : i < w - 8
  · simp [hlow]
  · rw [getLsbD_lowOctet r (by omega), decide_eq_true (show i - (w - 8) < 8 by omega), Bool.and_true]

/-- The part of the register above the low octet is shifted down unchanged. -/
theorem iterate_shiftLsb_eq (poly x : BitVec w) :
    (shiftLsb poly)^[8] x = (shiftLsb poly)^[8] (lowOctet x) ^^^ (x >>> 8) := by
  have hsplit : x = lowOctet x ^^^ ((x >>> 8) <<< 8) := by
    apply BitVec.eq_of_getLsbD_eq
    intro i hi
    rw [BitVec.getLsbD_xor, getLsbD_lowOctet x hi, BitVec.getLsbD_shiftLeft,
      BitVec.getLsbD_ushiftRight]
    by_cases h8 : i < 8
    · simp [h8, hi]
    · simp [h8, hi, show 8 + (i - 8) = i by omega]
  have hhigh : (shiftLsb poly)^[8] ((x >>> 8) <<< 8) = x >>> 8 := by
    apply iterate_shiftLsb_shiftLeft
    intro i hi
    rw [BitVec.getLsbD_ushiftRight]
    exact BitVec.getLsbD_of_ge x _ (by omega)
  conv_lhs => rw [hsplit]
  rw [iterate_shiftLsb_xor, hhigh]

/-- One byte into a right-shifting register, through what a table holds
for the low octet. -/
def byteLsb (poly r : BitVec w) (c : BitVec 8) : BitVec w :=
  (shiftLsb poly)^[8] (lowOctet (r ^^^ c.setWidth w)) ^^^ (r >>> 8)

/-- One byte into a left-shifting register, through what a table holds for
the high octet. -/
def byteMsb (poly r : BitVec w) (c : BitVec 8) : BitVec w :=
  (r <<< 8) ^^^ (shiftMsb poly)^[8] (((r >>> (w - 8)) ^^^ c.setWidth w) <<< (w - 8))

theorem foldl_stepLsb_table (poly r : BitVec w) (c : BitVec 8) (hw : 8 ≤ w) :
    (bitsLsb c).foldl (stepLsb poly) r = byteLsb poly r c := by
  have hlen : (bitsLsb c).length = 8 := List.length_ofFn
  have hlow : (r ^^^ c.setWidth w) >>> 8 = r >>> 8 := by
    have hzero : (c.setWidth w) >>> 8 = 0#w := by
      apply BitVec.eq_of_getLsbD_eq
      intro i hi
      rw [BitVec.getLsbD_ushiftRight, BitVec.getLsbD_setWidth, BitVec.getLsbD_of_ge c _ (by omega)]
      simp
    rw [BitVec.ushiftRight_xor_distrib, hzero, BitVec.xor_zero]
  rw [foldl_stepLsb_eq poly _ r (by omega), hlen, load_bitsLsb, iterate_shiftLsb_eq, hlow,
    byteLsb]

/-- Zero bits, seen through reversal. -/
theorem iterate_shiftMsb_eq (poly : BitVec w) (n : Nat) :
    ∀ x : BitVec w,
      (shiftMsb poly)^[n] x = ((shiftLsb poly.reverse)^[n] x.reverse).reverse := by
  induction n with
  | zero => intro x; exact BitVec.reverse_reverse_eq.symm
  | succ n ih =>
      intro x
      have hstep : (shiftMsb poly x).reverse = shiftLsb poly.reverse x.reverse :=
        reverse_stepMsb poly x false
      rw [Function.iterate_succ_apply, ih, hstep, Function.iterate_succ_apply]

theorem foldl_stepMsb_table (poly r : BitVec w) (c : BitVec 8) (hw : 8 ≤ w) :
    (bitsMsb c).foldl (stepMsb poly) r = byteMsb poly r c := by
  have hindex : (((r >>> (w - 8)) ^^^ c.setWidth w) <<< (w - 8)).reverse =
      lowOctet (r.reverse ^^^ c.reverse.setWidth w) := by
    apply BitVec.eq_of_getLsbD_eq
    intro i hi
    rw [getLsbD_lowOctet _ hi, BitVec.getLsbD_xor, BitVec.getLsbD_reverse,
      BitVec.getLsbD_reverse, BitVec.getLsbD_setWidth, BitVec.getLsbD_reverse,
      BitVec.getMsbD_eq_getLsbD, BitVec.getMsbD_eq_getLsbD, BitVec.getMsbD_eq_getLsbD,
      BitVec.getLsbD_shiftLeft, BitVec.getLsbD_xor, BitVec.getLsbD_ushiftRight,
      BitVec.getLsbD_setWidth]
    by_cases h8 : i < 8
    · have hr : w - 8 + (w - 1 - i - (w - 8)) = w - 1 - i := by omega
      have hc : w - 1 - i - (w - 8) = 8 - 1 - i := by omega
      rw [hr, hc]
      simp [h8, hi, show ¬ w - 1 - i < w - 8 by omega, show w - 1 - i < w by omega,
        show 7 - i < w by omega]
    · simp [h8, show w - 1 - i < w - 8 by omega]
  have hbits : ((bitsMsb c).foldl (stepMsb poly) r).reverse =
      byteLsb poly.reverse r.reverse c.reverse := by
    rw [reverse_foldl_stepMsb, bitsMsb_eq, foldl_stepLsb_table _ _ _ hw]
  rw [← @BitVec.reverse_reverse_eq _ ((bitsMsb c).foldl (stepMsb poly) r), hbits, byteLsb,
    reverse_xor, ← reverse_shiftLeft, BitVec.reverse_reverse_eq, BitVec.xor_comm, byteMsb,
    iterate_shiftMsb_eq, hindex]

/-- A table checked entry by entry holds the right value for every octet. -/
theorem lookup_of_entries {α : Type} {table : Array α} {value : α → BitVec w}
    {f : BitVec w → BitVec w}
    (h : table.toList.map value = (List.range 256).map fun i => f (BitVec.ofNat w i))
    (r : BitVec w) :
    ∃ t, table[(lowOctet r).toNat]? = some t ∧ value t = f (lowOctet r) := by
  have hentry : (table.toList[(lowOctet r).toNat]?).map value = some (f (lowOctet r)) := by
    rw [← List.getElem?_map, h, List.getElem?_map, List.getElem?_range (lowOctet_lt r),
      Option.map_some, BitVec.ofNat_toNat, BitVec.setWidth_eq]
  obtain ⟨t, ht, hv⟩ := Option.map_eq_some_iff.mp hentry
  exact ⟨t, by rw [← Array.getElem?_toList]; exact ht, hv⟩

/-! ## Messages -/

theorem foldl_flatMap_bitsLsb (poly : BitVec w) (hw : 8 ≤ w) (msg : List (BitVec 8)) :
    ∀ r : BitVec w,
      (msg.flatMap bitsLsb).foldl (stepLsb poly) r = msg.foldl (byteLsb poly) r := by
  induction msg with
  | nil => intro r; rfl
  | cons c msg ih =>
      intro r
      rw [List.flatMap_cons, List.foldl_append, foldl_stepLsb_table poly r c hw, ih, List.foldl_cons]

theorem foldl_flatMap_bitsMsb (poly : BitVec w) (hw : 8 ≤ w) (msg : List (BitVec 8)) :
    ∀ r : BitVec w,
      (msg.flatMap bitsMsb).foldl (stepMsb poly) r = msg.foldl (byteMsb poly) r := by
  induction msg with
  | nil => intro r; rfl
  | cons c msg ih =>
      intro r
      rw [List.flatMap_cons, List.foldl_append, foldl_stepMsb_table poly r c hw, ih, List.foldl_cons]

/-- A check that is reflected on both sides, byte by byte. -/
theorem Params.crc_reflected (p : Params w) (hin : p.refin = true) (hout : p.refout = true)
    (hw : 8 ≤ w) (msg : List (BitVec 8)) :
    p.crc msg = msg.foldl (byteLsb p.poly.reverse) p.init.reverse ^^^ p.xorout := by
  have hbits : p.bits msg = msg.flatMap bitsLsb := by simp only [Params.bits, hin, if_true]
  simp only [Params.crc, hout, if_true, hbits]
  rw [reverse_foldl_stepMsb, foldl_flatMap_bitsLsb _ hw]

/-- A check that is reflected on neither side, byte by byte. -/
theorem Params.crc_plain (p : Params w) (hin : p.refin = false) (hout : p.refout = false)
    (hw : 8 ≤ w) (msg : List (BitVec 8)) :
    p.crc msg = msg.foldl (byteMsb p.poly) p.init ^^^ p.xorout := by
  have hbits : p.bits msg = msg.flatMap bitsMsb := by
    simp only [Params.bits, hin, Bool.false_eq_true, if_false]
  simp only [Params.crc, hout, Bool.false_eq_true, if_false, hbits]
  rw [foldl_flatMap_bitsMsb _ hw]

end HighJump.Lib.Crc
