/-
HighJump.Encoding.BitsTheorems — reading, writing and printing bits.

Reading is right at every position of every type (`get_eq`), and so is the
text (`toStringInto_eq`, `toString_get`). Writing is right wherever the
mask, built as an `int`, is the mask of the position: `law_iff`.
-/
import HighJump.Encoding.Bits

namespace HighJump.Encoding.Bits

open HighJump.Lib

variable {T : IntType} {x : Int} {p : Nat} {b : Bool}

/-! ## Reading -/

theorem shift_eq (hp : 1 ≤ p) (hlt : p ≤ 2 ^ 32) : shift p = p - 1 := by
  have hmod : IntType.uint32.modulus = 2 ^ 32 := rfl
  rw [shift, IntType.unsigned, hmod, Int.emod_eq_of_lt (by omega) (by omega)]
  omega

/-- The lowest bit of a number shifted to the right. -/
theorem and_one_ne_zero (x : Int) (k : Nat) :
    decide (T.and (x / 2 ^ k) 1 ≠ 0) = x.testBit k := by
  rw [IntType.and_one, IntType.testBit_ediv, Nat.add_zero]
  cases x.testBit k <;> rfl

theorem get_eq (hp : 1 ≤ p) (hw : p ≤ T.width.bits) : get T x p = some (x.testBit (p - 1)) := by
  have h64 := T.width_le_64
  have hle := T.width_le_promoted
  rw [get, shift_eq hp (by omega), IntType.shr, if_pos (by omega), Option.map_some,
    and_one_ne_zero]

/-! ## Writing -/

theorem mask_eq (hp : 1 ≤ p) (h32 : p ≤ 32) : mask p = some (IntType.int32.shl 1 (p - 1)) := by
  have hbits : IntType.int32.promoted.width.bits = 32 := rfl
  rw [mask, shift_eq hp (by omega), IntType.shlChecked, hbits, if_pos (by omega)]

theorem mask_eq_none (h32 : 32 < p) (hlt : p ≤ 2 ^ 32) : mask p = none := by
  have hbits : IntType.int32.promoted.width.bits = 32 := rfl
  rw [mask, shift_eq (by omega) hlt, IntType.shlChecked, hbits, if_neg (by omega)]

/-- The bits of the mask of position `p`. -/
def inMask (p q : Nat) : Bool := decide (p = q) || decide (p = 32 ∧ 32 ≤ q)

theorem inMask_iff {q : Nat} : inMask p q = true ↔ p = q ∨ p = 32 ∧ 32 ≤ q := by
  rw [inMask, Bool.or_eq_true, decide_eq_true_iff, decide_eq_true_iff]

theorem testBit_mask {q : Nat} (hp : 1 ≤ p) (h32 : p ≤ 32) (hq : 1 ≤ q) :
    (IntType.int32.shl 1 (p - 1)).testBit (q - 1) = inMask p q := by
  rw [IntType.testBit_shl_one (by omega), inMask]
  congr 1 <;> exact decide_eq_decide.mpr (by omega)

/-- Inverting the mask in `int` inverts each bit of it that any type sees. -/
theorem testBit_not_mask {q : Nat} (hp : 1 ≤ p) (h32 : p ≤ 32) (hq : 1 ≤ q) :
    (IntType.int32.not (IntType.int32.shl 1 (p - 1))).testBit (q - 1) = !inMask p q := by
  have hmem : IntType.int32.promoted.Mem (-IntType.int32.shl 1 (p - 1) - 1) := by
    have hmask : IntType.int32.Mem (IntType.int32.shl 1 (p - 1)) := IntType.int32.mem_wrap _
    obtain ⟨hlo, hhi⟩ := hmask
    have hmin : IntType.int32.min = -2 ^ 31 := rfl
    have hmax : IntType.int32.max = 2 ^ 31 - 1 := rfl
    exact ⟨show IntType.int32.min ≤ _ by omega, show _ ≤ IntType.int32.max by omega⟩
  rw [IntType.not, IntType.wrap_of_mem _ hmem, IntType.testBit_not_int, testBit_mask hp h32 hq]

/-- What `put` writes: the bits under the mask become `b`. -/
theorem putBit_get (hp : 1 ≤ p) (h32 : p ≤ 32) :
    ∃ y, putBit T x p b = some y ∧ ∀ q, 1 ≤ q → q ≤ T.width.bits →
      get T y q = some (if inMask p q then b else x.testBit (q - 1)) := by
  have hle := T.width_le_promoted
  refine ⟨_, by rw [putBit, mask_eq hp h32, Option.map_some], fun q hq hqw => ?_⟩
  rw [get_eq hq hqw, IntType.testBit_wrap _ _ (by omega)]
  cases b with
  | true =>
    rw [if_pos rfl, IntType.testBit_or _ _ _ (by omega), testBit_mask hp h32 hq]
    cases inMask p q <;> simp
  | false =>
    rw [if_neg Bool.false_ne_true, IntType.testBit_and _ _ _ (by omega),
      testBit_not_mask hp h32 hq]
    cases inMask p q <;> simp

theorem put_eq_putBit (T : IntType) (x : Int) (p : Nat) : put T x p = putBit T x p true := rfl

/-! ## Printing -/

theorem modify_append_cons {α : Type} (f : α → α) (c : α) (r : List α) :
    ∀ l : List α, (l ++ c :: r).modify l.length f = l ++ f c :: r
  | [] => rfl
  | a :: l => congrArg (a :: ·) (modify_append_cons f c r l)

theorem toString_length (T : IntType) (x : Int) : (toString T x).length = T.width.bits := by
  rw [toString, List.length_map, List.length_range]

/-- The text of the bits, from the highest. -/
theorem toString_getElem? {i : Nat} (hi : i < T.width.bits) :
    (toString T x)[i]? = some (bitChar (x.testBit (T.width.bits - 1 - i))) := by
  rw [toString, List.getElem?_map, List.getElem?_range hi, Option.map_some,
    IntType.testBit_unsigned _ _ (by omega), bitChar]

/-- The loop has written the text down to some position. -/
theorem fill_eq (rest : List Char) : ∀ pos, pos ≤ T.width.bits →
    fill T x T.width.bits pos
        ((toString T x).take (T.width.bits - pos) ++ (List.replicate pos '0' ++ rest)) =
      some (toString T x ++ rest)
  | 0, _ => by
      rw [fill, Nat.sub_zero, ← toString_length T x, List.take_length]
      rfl
  | pos + 1, hle => by
      have hwide := T.width_le_promoted
      have hlen := toString_length T x
      have hindex : T.width.bits - (pos + 1) < T.width.bits := by omega
      have htake : ((toString T x).take (T.width.bits - (pos + 1))).length =
          T.width.bits - pos - 1 := by
        rw [List.length_take]
        omega
      -- '0' plus the bit is the character of the bit
      have hchar : Char.ofNat ('0'.toNat + (T.and (x / 2 ^ pos) 1).toNat) =
          bitChar (x.testBit pos) := by
        rw [IntType.and_one, IntType.testBit_ediv, Nat.add_zero]
        cases x.testBit pos <;> rfl
      have hnext : (toString T x).take (T.width.bits - pos) =
          (toString T x).take (T.width.bits - (pos + 1)) ++ [bitChar (x.testBit pos)] := by
        have hsub : T.width.bits - pos = T.width.bits - (pos + 1) + 1 := by omega
        have hbit : T.width.bits - 1 - (T.width.bits - (pos + 1)) = pos := by omega
        rw [hsub, List.take_add_one, toString_getElem? hindex, hbit]
        rfl
      rw [fill, IntType.shr, if_pos (by omega), Option.bind_some, List.replicate_succ,
        List.cons_append, ← htake, modify_append_cons, hchar, List.append_cons, ← hnext]
      exact fill_eq rest pos (by omega)

/-- `to_string` into a buffer writes the text and the terminator. -/
theorem toStringInto_eq {buf : List Char} (hlen : T.width.bits < buf.length) :
    toStringInto T x buf =
      some (toString T x ++ Char.ofNat 0 :: buf.drop (T.width.bits + 1)) := by
  have hfill := fill_eq (T := T) (x := x) (buf.drop T.width.bits) T.width.bits (Nat.le_refl _)
  rw [Nat.sub_self, List.take_zero, List.nil_append] at hfill
  rw [toStringInto, hfill, Option.map_some, List.drop_eq_getElem_cons hlen,
    List.set_append_right _ _ (Nat.le_of_eq (toString_length T x)), toString_length, Nat.sub_self,
    List.set_cons_zero]

theorem toString_get {q : Nat} (hq : 1 ≤ q) (hqw : q ≤ T.width.bits) :
    (toString T x)[T.width.bits - q]? = some (bitChar (x.testBit (q - 1))) := by
  have hsub : T.width.bits - 1 - (T.width.bits - q) = q - 1 := by omega
  rw [toString_getElem? (by omega), hsub]

/-! ## Whole values -/

/-- `reset` makes every bit the one it is given. -/
theorem reset_get (hp : 1 ≤ p) (hw : p ≤ T.width.bits) : get T (reset T b) p = some b := by
  have hle := T.width_le_promoted
  rw [get_eq hp hw, reset, IntType.testBit_wrap _ _ (by omega)]
  cases b with
  | true => rw [if_pos rfl, IntType.testBit_not _ _ (by omega)]; simp [Int.testBit]
  | false => simp [Int.testBit]

/-- `flip` inverts every bit. -/
theorem flip_get (hp : 1 ≤ p) (hw : p ≤ T.width.bits) :
    get T (flip T x) p = some (!x.testBit (p - 1)) := by
  have hle := T.width_le_promoted
  rw [get_eq hp hw, flip, IntType.testBit_wrap _ _ (by omega), IntType.testBit_not _ _ (by omega)]

/-! ## The law -/

theorem text_get {buf : List Char} (hlen : T.width.bits < buf.length) :
    ∃ out, toStringInto T x buf = some out ∧ ∀ q, 1 ≤ q → q ≤ T.width.bits →
      ∃ d, get T x q = some d ∧ out[T.width.bits - q]? = some (bitChar d) ∧
        (toString T x)[T.width.bits - q]? = some (bitChar d) := by
  refine ⟨_, toStringInto_eq hlen, fun q hq hqw => ⟨_, get_eq hq hqw, ?_, toString_get hq hqw⟩⟩
  have hlt : T.width.bits - q < (toString T x).length := by rw [toString_length]; omega
  rw [List.getElem?_append_left hlt, toString_get hq hqw]

/-- A mask within the type has no bit but its own, or bits beyond that are
`b` already. -/
theorem law_of_meets (hp : 1 ≤ p) (hw : p ≤ T.width.bits) (h : Meets T x p b) : Law T x p b where
  put_get := by
    have h32 : p ≤ 32 := by
      rcases h with hne | hle | ⟨heq, -⟩
      · exact Nat.le_trans hw (T.width_le_32 hne)
      · omega
      · omega
    obtain ⟨y, hput, hget⟩ := putBit_get (T := T) (x := x) (b := b) hp h32
    refine ⟨y, hput, ?_, fun q hq hqw hne => ?_⟩
    · rw [hget p hp hw, if_pos (inMask_iff.mpr (Or.inl rfl))]
    · rw [hget q hq hqw, get_eq hq hqw]
      by_cases hmask : inMask p q
      · have hp32 : p = 32 ∧ 32 < q := by
          rcases inMask_iff.mp hmask with rfl | ⟨hp32, hq32⟩
          · exact absurd rfl hne
          · omega
        rw [if_pos hmask]
        rcases h with hne64 | hle | ⟨-, hsame⟩
        · exact absurd (Nat.le_trans hqw (T.width_le_32 hne64)) (Nat.not_le.mpr hp32.2)
        · omega
        · rw [hsame q hp32.2 hqw]
      · rw [if_neg hmask]
  put_one := put_eq_putBit T x p
  text := fun _ hlen => text_get hlen

theorem meets_of_law (hp : 1 ≤ p) (hw : p ≤ T.width.bits) (h : Law T x p b) : Meets T x p b := by
  have h64 := T.width_le_64
  obtain ⟨y, hput, -, hsame⟩ := h.put_get
  by_cases h32 : p ≤ 32
  · by_cases h31 : p ≤ 31
    · exact Or.inr (Or.inl h31)
    · refine Or.inr (Or.inr ⟨by omega, fun q hq hqw => ?_⟩)
      obtain ⟨y', hput', hget⟩ := putBit_get (T := T) (x := x) (b := b) hp h32
      rw [hput] at hput'
      obtain rfl := Option.some.inj hput'
      have hmask : inMask p q = true := inMask_iff.mpr (Or.inr ⟨by omega, by omega⟩)
      have hq' := hsame q (by omega) hqw (by omega)
      rw [hget q (by omega) hqw, if_pos hmask, get_eq (by omega) hqw] at hq'
      exact (Option.some.inj hq').symm
  · rw [putBit, mask_eq_none (by omega) (by omega), Option.map_none] at hput
    cases hput

/-- Putting a bit is right exactly where the mask of the position is: at
every position of a type no wider than `int`; of a wider one up to
position 31, and at position 32 where the bits above it are `b` already.
From position 33 on the shift has no defined result. -/
theorem law_iff (T : IntType) (x : Int) (p : Nat) (b : Bool) (hp : 1 ≤ p)
    (hw : p ≤ T.width.bits) : Law T x p b ↔ Meets T x p b :=
  ⟨meets_of_law hp hw, law_of_meets hp hw⟩

/-- The sign position of an `int32_t`, and position 5 of a `uint64_t`. -/
theorem law_iff_inputs :
    (Law ⟨.w32, true⟩ 7 32 true ↔ Meets ⟨.w32, true⟩ 7 32 true) ∧
      (Law ⟨.w64, false⟩ 9 5 false ↔ Meets ⟨.w64, false⟩ 9 5 false) :=
  ⟨law_iff ⟨.w32, true⟩ 7 32 true (by decide) (by decide),
    law_iff ⟨.w64, false⟩ 9 5 false (by decide) (by decide)⟩

/-- Putting a one at position 32 of a `uint64_t` that is zero sets the 32
positions above it too. -/
theorem put_spills : ¬ ∀ (T : IntType) (x : Int) (p : Nat) (b : Bool),
    T.Mem x → 1 ≤ p → p ≤ T.width.bits → Law T x p b := by
  intro h
  have hlaw := h ⟨.w64, false⟩ 0 32 true (by decide) (by decide) (by decide)
  obtain ⟨y, hput, -, hsame⟩ := hlaw.put_get
  have hy : y = 0xFFFFFFFF80000000 := by
    have hput' : putBit ⟨.w64, false⟩ 0 32 true = some 0xFFFFFFFF80000000 := by decide
    rw [hput'] at hput
    exact (Option.some.inj hput).symm
  subst hy
  have h33 := hsame 33 (by decide) (by decide) (by decide)
  revert h33
  decide

end HighJump.Encoding.Bits
