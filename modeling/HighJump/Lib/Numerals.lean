/-
HighJump.Lib.Numerals — reading numbers out of text, as `<cctype>` and
`std::stoi` do in the classic locale.
-/
import Mathlib.Data.List.TakeWhile
import HighJump.Lib.Format
import HighJump.Lib.MachineInt

namespace HighJump.Lib

/-- `std::isspace`. -/
def isSpace (c : UInt8) : Bool := c == 0x20 || (0x09 ≤ c && c ≤ 0x0D)

/-- `std::isdigit`. -/
def isDigit (c : UInt8) : Bool := 0x30 ≤ c && c ≤ 0x39

theorem isSpace_of_isDigit {c : UInt8} (h : isDigit c = true) : isSpace c = false := by
  simp only [isDigit, Bool.and_eq_true, decide_eq_true_eq, UInt8.le_iff_toNat_le] at h
  have hlow : 48 ≤ c.toNat := h.1
  have hne : c ≠ 0x20 := by
    rintro rfl
    exact absurd hlow (by decide)
  have hgt : ¬ c ≤ 0x0D := by
    rw [UInt8.le_iff_toNat_le]
    exact fun hle => absurd (Nat.le_trans hlow hle) (by decide)
  simp [isSpace, hne, hgt]

/-- The number a run of digits denotes. -/
def digitsValue (ds : List UInt8) : Nat := ds.foldl (fun v c => 10 * v + (c.toNat - 0x30)) 0

/-- `std::stoi(str)`, `none` where it throws: white space, a sign, then the
longest run of digits, which must not be empty and must fit an `int`.
What follows the digits is ignored. -/
def stoi (str : List UInt8) : Option Int :=
  let str := str.dropWhile isSpace
  let negative := str.head? = some 0x2D
  let str := if negative ∨ str.head? = some 0x2B then str.tail else str
  let ds := str.takeWhile isDigit
  if ds = [] then none
  else
    let v : Int := if negative then -digitsValue ds else digitsValue ds
    if -2 ^ 31 ≤ v ∧ v < 2 ^ 31 then some v else none

/-! ## Reading back what was written -/

theorem digit_isDigit {f : Fmt} : ∀ {d : Nat}, d < 10 → isDigit (f.digit d) = true := by
  have h : ∀ d : Nat, d < 10 → isDigit (UInt8.ofNat (0x30 + d)) = true := by decide
  intro d hd
  rw [Fmt.digit, if_pos hd]
  exact h d hd

theorem digit_value {f : Fmt} {d : Nat} (hd : d < 10) : (f.digit d).toNat - 0x30 = d := by
  have h : ∀ d : Nat, d < 10 → (UInt8.ofNat (0x30 + d)).toNat - 0x30 = d := by decide
  rw [Fmt.digit, if_pos hd]
  exact h d hd

section Numeral

variable {f : Fmt} (hbase : f.base = .dec) (n : Nat)
include hbase

theorem numeral_ne_nil : f.numeral n ≠ [] := by
  rw [Fmt.numeral]
  split
  · exact List.cons_ne_nil _ _
  · next h =>
      have hradix : f.radix = 10 := by rw [Fmt.radix, hbase]
      simpa [hradix, Nat.digits_eq_nil_iff_eq_zero] using h

theorem numeral_isDigit : ∀ c ∈ f.numeral n, isDigit c = true := by
  have hradix : f.radix = 10 := by rw [Fmt.radix, hbase]
  intro c hc
  rw [Fmt.numeral] at hc
  split at hc
  · rw [List.mem_singleton.mp hc]
    decide
  · obtain ⟨d, hd, rfl⟩ := List.mem_map.mp hc
    rw [List.mem_reverse, hradix] at hd
    exact digit_isDigit (Nat.digits_lt_base (by decide) hd)

theorem digitsValue_numeral : digitsValue (f.numeral n) = n := by
  have hradix : f.radix = 10 := by rw [Fmt.radix, hbase]
  rw [Fmt.numeral]
  split
  · next h =>
      rw [h]
      decide
  · have hfold : ∀ ds : List Nat, (∀ d ∈ ds, d < 10) →
        digitsValue (ds.reverse.map f.digit) = Nat.ofDigits 10 ds := by
      intro ds
      induction ds with
      | nil => intro _; rfl
      | cons d ds ih =>
          intro hlt
          have hds : ∀ d ∈ ds, d < 10 := fun d hd => hlt d (List.mem_cons_of_mem _ hd)
          have hd : d < 10 := hlt d List.mem_cons_self
          have hrest := ih hds
          rw [digitsValue] at hrest ⊢
          rw [List.reverse_cons, List.map_append, List.foldl_append, hrest, List.map_singleton,
            List.foldl_cons, List.foldl_nil, digit_value hd, Nat.ofDigits_cons, Nat.add_comm]
    rw [hradix, hfold _ fun d hd => Nat.digits_lt_base (by decide) hd, Nat.ofDigits_digits]

/-- A number in range is read back. -/
theorem stoi_numeral (hn : n < 2 ^ 31) : stoi (f.numeral n) = some (n : Int) := by
  have hdigits := numeral_isDigit hbase n
  have hhead : ∀ c, (f.numeral n).head? = some c → isDigit c = true :=
    fun c hc => hdigits c (List.mem_of_head? hc)
  have hspace : (f.numeral n).dropWhile isSpace = f.numeral n := by
    cases hs : f.numeral n with
    | nil => rfl
    | cons c rest =>
        have hc : isSpace c = false := isSpace_of_isDigit (hhead c (by rw [hs]; rfl))
        rw [List.dropWhile_cons_of_neg (by simp [hc])]
  have hminus : ¬ (f.numeral n).head? = some 0x2D := fun hc => absurd (hhead _ hc) (by decide)
  have hplus : ¬ (f.numeral n).head? = some 0x2B := fun hc => absurd (hhead _ hc) (by decide)
  have htake : (f.numeral n).takeWhile isDigit = f.numeral n :=
    List.takeWhile_eq_self_iff.mpr hdigits
  simp only [stoi, hspace, hminus, hplus, or_self, if_false, htake]
  rw [if_neg (numeral_ne_nil hbase n), digitsValue_numeral hbase n, if_pos (by omega)]

end Numeral

end HighJump.Lib
