/-
HighJump.Lib.Format — formatted output on `std::ostream`.

A stream carries a formatting state beside its characters. Inserting an
unsigned number converts it in the base in force, adds the base's prefix
if asked, pads to the field width on the side the adjustment says and
resets the width; the other settings stay until they are changed. The
locale is the classic one, so no digits are grouped.
-/
import Mathlib.Data.Nat.Digits.Defs
import Mathlib.Algebra.Ring.Int.Defs
import HighJump.Lib.Streams

namespace HighJump.Lib

/-- `std::ios_base::basefield`. -/
inductive Base where
  | dec | oct | hex
  deriving DecidableEq, Repr

/-- `std::ios_base::adjustfield`; `right` is also what no flag means. -/
inductive Adjust where
  | left | right | internal
  deriving DecidableEq, Repr

/-- The formatting state of a stream, as a new stream has it. -/
structure Fmt where
  width : Nat := 0
  fill : UInt8 := 0x20
  base : Base := .dec
  uppercase : Bool := false
  showbase : Bool := false
  adjust : Adjust := .right
  deriving DecidableEq, Repr

namespace Fmt

def radix (f : Fmt) : Nat :=
  match f.base with
  | .dec => 10
  | .oct => 8
  | .hex => 16

/-- One digit. -/
def digit (f : Fmt) (d : Nat) : UInt8 :=
  if d < 10 then UInt8.ofNat (0x30 + d)
  else if f.uppercase then UInt8.ofNat (0x41 + (d - 10))
  else UInt8.ofNat (0x61 + (d - 10))

/-- A number without prefix and padding. -/
def numeral (f : Fmt) (n : Nat) : List UInt8 :=
  if n = 0 then [0x30] else ((Nat.digits f.radix n).reverse).map f.digit

/-- `0x` or `0X`, the part internal padding goes after. -/
def hexMark (f : Fmt) (n : Nat) : List UInt8 :=
  if f.showbase ∧ f.base = .hex ∧ n ≠ 0 then [0x30, if f.uppercase then 0x58 else 0x78] else []

/-- The leading zero of an octal number that shows its base. -/
def octMark (f : Fmt) (n : Nat) : List UInt8 :=
  if f.showbase ∧ f.base = .oct ∧ n ≠ 0 then [0x30] else []

/-- Padding to the field width. -/
def pad (f : Fmt) (mark body : List UInt8) : List UInt8 :=
  let filler := List.replicate (f.width - (mark ++ body).length) f.fill
  match f.adjust with
  | .left => mark ++ body ++ filler
  | .right => filler ++ mark ++ body
  | .internal => mark ++ filler ++ body

end Fmt

/-- An output stream with its formatting state. -/
structure FStream where
  out : OStream
  fmt : Fmt
  deriving DecidableEq, Repr

namespace FStream

/-- A new `std::ostringstream`. -/
def fresh : FStream := { out := .empty, fmt := {} }

/-- `good()`. -/
def good (s : FStream) : Bool := s.out.ok

def setw (s : FStream) (n : Nat) : FStream := { s with fmt := { s.fmt with width := n } }

def setfill (s : FStream) (c : UInt8) : FStream := { s with fmt := { s.fmt with fill := c } }

/-- `std::hex`. -/
def hex (s : FStream) : FStream := { s with fmt := { s.fmt with base := .hex } }

/-- `upper ? std::uppercase : std::nouppercase`. -/
def letters (s : FStream) (upper : Bool) : FStream :=
  { s with fmt := { s.fmt with uppercase := upper } }

/-- What a formatted insertion does once the characters are known; on a
stream that is not good it does nothing. -/
def insert (s : FStream) (chars : List UInt8) : FStream :=
  if s.good then { out := s.out.write chars, fmt := { s.fmt with width := 0 } } else s

/-- `<< n` for an unsigned number. -/
def putUnsigned (s : FStream) (n : Nat) : FStream :=
  s.insert (s.fmt.pad (s.fmt.hexMark n) (s.fmt.octMark n ++ s.fmt.numeral n))

/-- `<< n` for an `int`: in the other bases its two's complement. -/
def putInt (s : FStream) (n : Int) : FStream :=
  if s.fmt.base = .dec then
    s.insert (s.fmt.pad (if n < 0 then [0x2D] else []) (s.fmt.numeral n.natAbs))
  else s.putUnsigned (n % 2 ^ 32).toNat

/-- `<< str`. -/
def putString (s : FStream) (str : List UInt8) : FStream := s.insert (s.fmt.pad [] str)

/-- A stream in good state without limit that pads on the left, shows no
base and has no width pending, as every new stream is. -/
structure Plain (s : FStream) : Prop where
  isOpen : s.out.Open
  showbase : s.fmt.showbase = false
  adjust : s.fmt.adjust ≠ .left
  width : s.fmt.width = 0

theorem plain_fresh : fresh.Plain := ⟨OStream.open_empty, rfl, nofun, rfl⟩

theorem Plain.good {s : FStream} (h : s.Plain) : s.good = true := by
  rw [FStream.good, OStream.ok, h.isOpen.fail]
  rfl

/-- Inserting keeps a plain stream plain and adds the characters. -/
theorem Plain.insert {s : FStream} (h : s.out.Open) (hshow : s.fmt.showbase = false)
    (hadj : s.fmt.adjust ≠ .left) (chars : List UInt8) :
    (s.insert chars).Plain ∧ (s.insert chars).out.written = s.out.written ++ chars := by
  have hgood : s.good = true := by
    rw [FStream.good, OStream.ok, h.fail]
    rfl
  obtain ⟨hopen, hwritten⟩ := OStream.write_open h chars
  rw [FStream.insert, if_pos hgood]
  exact ⟨⟨hopen, hshow, hadj, rfl⟩, hwritten⟩

/-- Without a pending width a string goes out as it is. -/
theorem Plain.putString {s : FStream} (h : s.Plain) (str : List UInt8) :
    (s.putString str).Plain ∧ (s.putString str).out.written = s.out.written ++ str := by
  have hpad : s.fmt.pad [] str = str := by
    rw [Fmt.pad, h.width, Nat.zero_sub]
    cases s.fmt.adjust <;> simp
  rw [FStream.putString, hpad]
  exact Plain.insert h.isOpen h.showbase h.adjust str

/-- So does a number, without a prefix. -/
theorem Plain.putUnsigned {s : FStream} (h : s.Plain) (n : Nat) :
    (s.putUnsigned n).Plain ∧ (s.putUnsigned n).out.written = s.out.written ++ s.fmt.numeral n := by
  have hpad : s.fmt.pad (s.fmt.hexMark n) (s.fmt.octMark n ++ s.fmt.numeral n) =
      s.fmt.numeral n := by
    rw [Fmt.hexMark, Fmt.octMark, h.showbase, Fmt.pad, h.width, Nat.zero_sub]
    cases s.fmt.adjust <;> simp
  rw [FStream.putUnsigned, hpad]
  exact Plain.insert h.isOpen h.showbase h.adjust _

/-! ## Default formatting -/

/-- A stream in good state without limit in the default formatting state. -/
structure Default (s : FStream) : Prop where
  isOpen : s.out.Open
  fmt : s.fmt = {}

theorem default_fresh : fresh.Default := ⟨OStream.open_empty, rfl⟩

theorem Default.insert {s : FStream} (h : s.Default) (chars : List UInt8) :
    (s.insert chars).Default ∧ (s.insert chars).out.written = s.out.written ++ chars := by
  have hgood : s.good = true := by
    rw [FStream.good, OStream.ok, h.isOpen.fail]
    rfl
  obtain ⟨hopen, hwritten⟩ := OStream.write_open h.isOpen chars
  rw [FStream.insert, if_pos hgood, h.fmt]
  exact ⟨⟨hopen, rfl⟩, hwritten⟩

theorem Default.putString {s : FStream} (h : s.Default) (str : List UInt8) :
    (s.putString str).Default ∧ (s.putString str).out.written = s.out.written ++ str := by
  have hpad : s.fmt.pad [] str = str := by
    rw [h.fmt, Fmt.pad]
    simp
  rw [FStream.putString, hpad]
  exact h.insert str

theorem Default.putInt {s : FStream} (h : s.Default) (n : Nat) :
    (s.putInt n).Default ∧
      (s.putInt n).out.written = s.out.written ++ ({} : Fmt).numeral n := by
  have hpad : s.fmt.pad [] (s.fmt.numeral n) = ({} : Fmt).numeral n := by
    rw [h.fmt, Fmt.pad]
    simp
  have hbase : s.fmt.base = .dec := by rw [h.fmt]
  have hsign : ¬ (n : Int) < 0 := by omega
  rw [FStream.putInt, if_pos hbase, if_neg hsign, Int.natAbs_natCast, hpad]
  exact h.insert _

end FStream

/-! ## Hexadecimal fields of `printf` -/

/-- `%0{width}x`: at least `width` lower-case digits. -/
def printfHex (width n : Nat) : List UInt8 :=
  let digits := ({ base := .hex } : Fmt).numeral n
  List.replicate (width - digits.length) 0x30 ++ digits

/-- A lower-case hexadecimal digit. -/
def lowerDigit (d : Nat) : UInt8 := ({ base := .hex } : Fmt).digit d

/-- The last `width` digits of a number. -/
def fixedHex : Nat → Nat → List UInt8
  | 0, _ => []
  | width + 1, n => fixedHex width (n / 16) ++ [lowerDigit (n % 16)]

theorem fixedHex_zero (width : Nat) : fixedHex width 0 = List.replicate width 0x30 := by
  induction width with
  | zero => rfl
  | succ width ih =>
      rw [fixedHex, Nat.zero_div, ih, List.replicate_succ']
      rfl

theorem length_fixedHex (width n : Nat) : (fixedHex width n).length = width := by
  induction width generalizing n with
  | zero => rfl
  | succ width ih => rw [fixedHex, List.length_append, ih, List.length_singleton]

theorem numeral_lt {n : Nat} (h : n < 16) : ({ base := .hex } : Fmt).numeral n = [lowerDigit n] := by
  by_cases hzero : n = 0
  · rw [hzero]
    rfl
  · rw [Fmt.numeral, if_neg hzero]
    change (Nat.digits 16 n).reverse.map _ = _
    rw [Nat.digits_of_lt 16 n hzero h]
    rfl

theorem numeral_div {n : Nat} (h : 16 ≤ n) :
    ({ base := .hex } : Fmt).numeral n =
      ({ base := .hex } : Fmt).numeral (n / 16) ++ [lowerDigit (n % 16)] := by
  rw [Fmt.numeral, if_neg (by omega), Fmt.numeral, if_neg (by omega)]
  change (Nat.digits 16 n).reverse.map _ = (Nat.digits 16 (n / 16)).reverse.map _ ++ _
  rw [Nat.digits_def' (by decide) (by omega), List.reverse_cons, List.map_append]
  rfl

/-- A number that fits the field fills it exactly. -/
theorem printfHex_eq {width n : Nat} (hpos : 0 < width) (h : n < 16 ^ width) :
    printfHex width n = fixedHex width n := by
  induction width generalizing n with
  | zero => omega
  | succ width ih =>
      rw [printfHex, fixedHex]
      by_cases hsmall : n < 16
      · rw [numeral_lt hsmall, Nat.div_eq_of_lt hsmall, Nat.mod_eq_of_lt hsmall, fixedHex_zero]
        rfl
      · have hwidth : 0 < width := by
          rw [Nat.pos_iff_ne_zero]
          rintro rfl
          exact hsmall h
        have hdiv : n / 16 < 16 ^ width := by
          rw [Nat.pow_succ] at h
          exact Nat.div_lt_of_lt_mul (by rw [Nat.mul_comm]; exact h)
        rw [← ih hwidth hdiv, printfHex, numeral_div (by omega)]
        simp only [List.length_append, List.length_singleton, Nat.add_sub_add_right,
          List.append_assoc]

theorem lowerDigit_inj : ∀ d < 16, ∀ e < 16, lowerDigit d = lowerDigit e → d = e := by decide

/-- A field is read back. -/
theorem fixedHex_inj {width n m : Nat} (hn : n < 16 ^ width) (hm : m < 16 ^ width)
    (h : fixedHex width n = fixedHex width m) : n = m := by
  induction width generalizing n m with
  | zero => omega
  | succ width ih =>
      rw [fixedHex, fixedHex] at h
      obtain ⟨hinit, hlast⟩ := List.append_inj' h rfl
      have hdiv := ih (n := n / 16) (m := m / 16) (by rw [Nat.pow_succ] at hn; omega)
        (by rw [Nat.pow_succ] at hm; omega) hinit
      have hmod := lowerDigit_inj _ (Nat.mod_lt n (by decide)) _ (Nat.mod_lt m (by decide))
        (List.cons.inj hlast).1
      omega

theorem mem_fixedHex {width n : Nat} {c : UInt8} (h : c ∈ fixedHex width n) :
    ∃ d < 16, c = lowerDigit d := by
  induction width generalizing n with
  | zero => cases h
  | succ width ih =>
      rcases List.mem_append.mp h with h | h
      · exact ih h
      · exact ⟨n % 16, Nat.mod_lt n (by decide), List.mem_singleton.mp h⟩

end HighJump.Lib
