/-
HighJump.Encoding.HexIntegral — the hexadecimal codec for integral types.

Encoding is one formatted insertion, `oss << value`, in a stream set to
hexadecimal: what comes out depends on which overload the type selects. A
number of 16 bits or more comes out as its unsigned representation, a
`bool` as 0 or 1, and the three character types as the character itself.
Decoding shifts the digits it finds into a `T` from the right.

`integral_round_trip_iff` is about every one of these types: the wider
ones come back, of the character types the zero character only.
-/
import HighJump.Encoding.HexTheorems

namespace HighJump.Encoding.Hex

open HighJump.Lib

/-- A type with the integral tag; the 8-bit integers are `char`, `signed
char` and `unsigned char`. -/
inductive Integral where
  | bool
  | integer (T : IntType)
  deriving DecidableEq, Repr

namespace Integral

/-- The values of the type. -/
def Mem : Integral → Int → Prop
  | .bool, x => x = 0 ∨ x = 1
  | .integer T, x => T.Mem x

instance : ∀ (T : Integral) (x : Int), Decidable (T.Mem x)
  | .bool, x => inferInstanceAs (Decidable (x = 0 ∨ x = 1))
  | .integer T, x => inferInstanceAs (Decidable (T.Mem x))

/-- Conversion to the type. -/
def convert : Integral → Int → Int
  | .bool, x => if x = 0 then 0 else 1
  | .integer T, x => T.wrap x

/-- The type whose promotion the operators work on. -/
def operand : Integral → IntType
  | .bool => .int32
  | .integer T => T

/-- A character type. -/
def IsChar (T : Integral) : Prop := ∃ signed, T = .integer ⟨.w8, signed⟩

end Integral

/-! ## The codec -/

/-- `oss << value` in a stream set to `std::hex` -/
def putIntegral (oss : FStream) : Integral → Int → FStream
  | .bool, v => oss.putUnsigned v.toNat
  | .integer T, v =>
      match T.width with
      | .w8 => oss.putString [UInt8.ofNat (T.unsigned v)]
      | _ => oss.putUnsigned (T.unsigned v)

/-- `encode<T>(value, upper_case)` -/
def encodeIntegral (T : Integral) (value : Int) (upperCase : Bool) : List UInt8 :=
  let oss := (FStream.fresh.letters upperCase).hex
  (putIntegral oss T value).out.written

/-- One turn of `_decode_impl`. -/
def decodeStep (T : Integral) (result : Int) (c : UInt8) : Int :=
  let value := hexCharToValue c
  if value ≥ 0 then T.convert (T.operand.or (T.operand.shl result 4) value) else result

/-- `_decode_impl<T>(hex_str, integral_tag)` -/
def decodeImplIntegral (T : Integral) (hexStr : List UInt8) : Int :=
  hexStr.foldl (decodeStep T) 0

/-- `decode<T>(str)` -/
def decodeIntegral (T : Integral) (str : List UInt8) : Int :=
  let hexStr := str.filter fun c => decide (hexCharToValue c ≥ 0)
  let hexStr := if hexStr.length % 2 ≠ 0 then 0x30 :: hexStr else hexStr
  decodeImplIntegral T hexStr

/-! ## Shifting digits in -/

section Digits

variable (T : IntType) (f : Fmt)

theorem hexCharToValue_digit_of {d : Nat} (hd : d < 16) : hexCharToValue (f.digit d) = d :=
  hexCharToValue_digit f.uppercase d hd

theorem decodeStep_digit (r : Int) {d : Nat} (hd : d < 16) :
    decodeStep (.integer T) r (f.digit d) = T.wrap (r * 16 + d) := by
  rw [decodeStep, hexCharToValue_digit_of f hd]
  simp only [ge_iff_le, Int.natCast_nonneg, if_true]
  exact T.wrap_or_shl r hd

/-- The digits of a number, highest first, are shifted in to the number. -/
theorem decodeImplIntegral_digits {ds : List Nat} (hds : ∀ d ∈ ds, d < 16) :
    decodeImplIntegral (.integer T) (ds.reverse.map f.digit) = T.wrap (Nat.ofDigits 16 ds : Nat) := by
  induction ds with
  | nil => exact (T.wrap_of_mem T.mem_zero).symm
  | cons d ds ih =>
      have hrest := ih fun e he => hds e (by simp [he])
      rw [decodeImplIntegral] at hrest ⊢
      rw [List.reverse_cons, List.map_append, List.foldl_append, hrest, List.map_singleton,
        List.foldl_cons, List.foldl_nil, decodeStep_digit T f _ (hds d (by simp)),
        Nat.ofDigits_cons]
      refine T.wrap_congr ?_
      have hwrap := T.modulus_dvd_sub_wrap (Nat.ofDigits 16 ds : Nat)
      generalize hv : ((Nat.ofDigits 16 ds : Nat) : Int) = v at hwrap
      have heq : T.wrap v * 16 + d - ((d + 16 * Nat.ofDigits 16 ds : Nat) : Int) =
          (v - T.wrap v) * -16 := by
        rw [Nat.cast_add, Nat.cast_mul, hv]
        omega
      rw [heq]
      exact Dvd.dvd.mul_right hwrap (-16)

end Digits

/-! ## Numbers of more than 8 bits -/

/-- A numeral is the digits of its number, of which zero has one. -/
theorem exists_digits {f : Fmt} (hbase : f.base = .hex) (n : Nat) :
    ∃ ds : List Nat, (∀ d ∈ ds, d < 16) ∧ Nat.ofDigits 16 ds = n ∧
      f.numeral n = ds.reverse.map f.digit := by
  have hradix : f.radix = 16 := by rw [Fmt.radix, hbase]
  by_cases hzero : n = 0
  · exact ⟨[0], by simp, by simp [hzero], by rw [Fmt.numeral, if_pos hzero]; rfl⟩
  · refine ⟨Nat.digits 16 n, fun d hd => Nat.digits_lt_base (by decide) hd,
      Nat.ofDigits_digits 16 n, ?_⟩
    rw [Fmt.numeral, if_neg hzero, hradix]

/-- The numeral of a number is read as that number in `T`, an even number of
digits or not. -/
theorem decodeIntegral_numeral (T : IntType) {f : Fmt} (hbase : f.base = .hex) (n : Nat) :
    decodeIntegral (.integer T) (f.numeral n) = T.wrap n := by
  obtain ⟨ds, hds, hvalue, hnum⟩ := exists_digits hbase n
  have hfilter : (f.numeral n).filter (fun c => decide (hexCharToValue c ≥ 0)) = f.numeral n := by
    rw [List.filter_eq_self, hnum]
    intro c hc
    obtain ⟨d, hd, rfl⟩ := List.mem_map.mp hc
    rw [hexCharToValue_digit_of f (hds d (List.mem_reverse.mp hd))]
    simp
  have hplain : decodeImplIntegral (.integer T) (f.numeral n) = T.wrap n := by
    rw [hnum, decodeImplIntegral_digits T f hds, hvalue]
  simp only [decodeIntegral, hfilter]
  by_cases hodd : (f.numeral n).length % 2 = 0
  · rw [if_neg (not_not.mpr hodd), hplain]
  · -- a zero in front leaves the result at zero
    have hzero : decodeStep (.integer T) 0 0x30 = 0 := by
      have hstep := decodeStep_digit T f 0 (d := 0) (by decide)
      rw [Int.zero_mul, Int.natCast_zero, Int.add_zero, T.wrap_of_mem T.mem_zero] at hstep
      exact hstep
    rw [if_pos hodd, decodeImplIntegral, List.foldl_cons, hzero]
    exact hplain

/-- The stream `encode` inserts into. -/
theorem plain_encoding (upper : Bool) : ((FStream.fresh.letters upper).hex).Plain :=
  ⟨OStream.open_empty, rfl, nofun, rfl⟩

theorem encodeIntegral_wide {T : IntType} (hwide : T.width ≠ .w8) (v : Int) (upper : Bool) :
    encodeIntegral (.integer T) v upper =
      ({ base := .hex, uppercase := upper } : Fmt).numeral (T.unsigned v) := by
  obtain ⟨-, hwritten⟩ := (plain_encoding upper).putUnsigned (T.unsigned v)
  rw [encodeIntegral, putIntegral]
  cases hw : T.width with
  | w8 => exact absurd hw hwide
  | w16 => exact hwritten
  | w32 => exact hwritten
  | w64 => exact hwritten

theorem decodeIntegral_wide {T : IntType} (hwide : T.width ≠ .w8) {v : Int} (hv : T.Mem v)
    (upper : Bool) :
    decodeIntegral (.integer T) (encodeIntegral (.integer T) v upper) = v := by
  rw [encodeIntegral_wide hwide, decodeIntegral_numeral T rfl, T.wrap_unsigned hv]

/-! ## Characters -/

theorem encodeIntegral_char (signed : Bool) (v : Int) (upper : Bool) :
    encodeIntegral (.integer ⟨.w8, signed⟩) v upper =
      [UInt8.ofNat ((⟨.w8, signed⟩ : IntType).unsigned v)] := by
  obtain ⟨-, hwritten⟩ := (plain_encoding upper).putString
    [UInt8.ofNat ((⟨.w8, signed⟩ : IntType).unsigned v)]
  exact hwritten

/-- A character is no numeral of itself: a digit has a smaller value, and
any other character is dropped. -/
theorem decodeIntegral_char (signed : Bool) : ∀ b : UInt8,
    decodeIntegral (.integer ⟨.w8, signed⟩) [b] = (⟨.w8, signed⟩ : IntType).wrap b.toNat ↔ b = 0 := by
  cases signed with
  | false => exact forall_byte (by decide +kernel)
  | true => exact forall_byte (by decide +kernel)

theorem decodeIntegral_char_iff (signed : Bool) {v : Int} (hv : (⟨.w8, signed⟩ : IntType).Mem v)
    (upper : Bool) :
    decodeIntegral (.integer ⟨.w8, signed⟩) (encodeIntegral (.integer ⟨.w8, signed⟩) v upper) = v ↔
      v = 0 := by
  have hlt : (⟨.w8, signed⟩ : IntType).unsigned v < 256 := by
    have hmod := (⟨.w8, signed⟩ : IntType).unsigned_eq v
    have := Int.emod_lt_of_pos v (⟨.w8, signed⟩ : IntType).modulus_pos
    have h256 : (⟨.w8, signed⟩ : IntType).modulus = 256 := rfl
    omega
  have hback := (⟨.w8, signed⟩ : IntType).wrap_unsigned hv
  have hiff := decodeIntegral_char signed (.ofNat ((⟨.w8, signed⟩ : IntType).unsigned v))
  rw [toNat_byte hlt, hback] at hiff
  rw [encodeIntegral_char, hiff]
  constructor
  · intro hzero
    have hnat := congrArg UInt8.toNat hzero
    rw [toNat_byte hlt] at hnat
    rw [← hback, hnat]
    exact IntType.wrap_of_mem _ (IntType.mem_zero _)
  · rintro rfl
    rfl

/-- **Round trip**: every integral type but the character types, and the
zero character. -/
theorem integral_round_trip_iff (T : Integral) (v : Int) (hv : T.Mem v) (upper : Bool) :
    decodeIntegral T (encodeIntegral T v upper) = v ↔ ¬ T.IsChar ∨ v = 0 := by
  cases T with
  | bool =>
      have hno : ¬ Integral.IsChar .bool := nofun
      rcases hv with rfl | rfl
      all_goals cases upper <;> simp [hno] <;> rfl
  | integer T =>
      by_cases hchar : T.width = .w8
      · obtain ⟨w, signed⟩ := T
        obtain rfl : w = .w8 := hchar
        rw [decodeIntegral_char_iff signed hv]
        simp [Integral.IsChar]
      · have hno : ¬ Integral.IsChar (.integer T) := by
          rintro ⟨signed, heq⟩
          cases heq
          exact hchar rfl
        simp [hno, decodeIntegral_wide hchar hv]

/-- The 16-bit -2 comes back from `FFFE`. -/
theorem integral_round_trip_short :
    (Integral.integer ⟨.w16, true⟩).Mem (-2) ∧
      (decodeIntegral (.integer ⟨.w16, true⟩) (encodeIntegral (.integer ⟨.w16, true⟩) (-2) true) =
        -2 ↔ ¬ (Integral.integer ⟨.w16, true⟩).IsChar ∨ (-2 : Int) = 0) :=
  ⟨by decide, integral_round_trip_iff (.integer ⟨.w16, true⟩) (-2) (by decide) true⟩

/-- The `unsigned char` 65 goes out as `A` and comes back as 10. -/
theorem integral_round_trip_letter :
    ¬ decodeIntegral (.integer ⟨.w8, false⟩) (encodeIntegral (.integer ⟨.w8, false⟩) 65 true) =
      65 := by
  decide +kernel

end HighJump.Encoding.Hex
