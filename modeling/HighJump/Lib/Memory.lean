/-
HighJump.Lib.Memory — bounded buffers: `memcpy` into and out of a buffer
of known size.

A buffer is the list of its cells. Reading or writing past its end is
`none`, so a function built from these operations returns a value exactly
when every access it makes is in bounds.
-/
import Mathlib.Data.List.Basic

namespace HighJump.Lib

universe u

variable {α : Type u}

/-- The `n` cells from `i` on. -/
def readN (m : List α) (i n : Nat) : Option (List α) :=
  if i + n ≤ m.length then some ((m.drop i).take n) else none

/-- The buffer with `xs` copied over the cells from `i` on. -/
def writeN (m : List α) (i : Nat) (xs : List α) : Option (List α) :=
  if i + xs.length ≤ m.length then some (m.take i ++ xs ++ m.drop (i + xs.length)) else none

theorem readN_append (pre xs post : List α) :
    readN (pre ++ xs ++ post) pre.length xs.length = some xs := by
  simp [readN]

theorem readN_append' (pre post : List α) {xs m : List α} {i n : Nat} (hm : m = pre ++ xs ++ post)
    (hi : i = pre.length) (hn : n = xs.length) : readN m i n = some xs := by
  subst hm hi hn
  exact readN_append pre xs post

/-- Writing at the end of a finished prefix eats into the rest. -/
theorem writeN_append (pre xs rest : List α) (h : xs.length ≤ rest.length) :
    writeN (pre ++ rest) pre.length xs = some (pre ++ xs ++ rest.drop xs.length) := by
  have hle : pre.length + xs.length ≤ (pre ++ rest).length := by simp; omega
  rw [writeN, if_pos hle, List.take_left, List.drop_append, List.drop_eq_nil_of_le (by omega),
    Nat.add_sub_cancel_left, List.nil_append]

theorem writeN_append' {m pre xs rest : List α} {i : Nat} (hm : m = pre ++ rest)
    (hi : i = pre.length) (h : xs.length ≤ rest.length) :
    writeN m i xs = some (pre ++ xs ++ rest.drop xs.length) := by
  subst hm hi
  exact writeN_append pre xs rest h

/-- Writing nothing inside the buffer changes nothing. -/
theorem writeN_nil {m : List α} {i : Nat} (h : i ≤ m.length) : writeN m i [] = some m := by
  simp [writeN, h]

theorem length_writeN {m m' xs : List α} {i : Nat} (h : writeN m i xs = some m') :
    m'.length = m.length := by
  unfold writeN at h
  split at h
  · rw [← Option.some.inj h]
    simp only [List.length_append, List.length_take, List.length_drop]
    omega
  · cases h

/-- Writing at the start of a buffer. -/
theorem writeN_zero {m xs : List α} (h : xs.length ≤ m.length) :
    writeN m 0 xs = some (xs ++ m.drop xs.length) := by
  have := writeN_append [] xs m h
  rwa [List.nil_append, List.nil_append] at this

/-- One write after the other is one write. -/
theorem writeN_writeN {m m' m'' xs ys : List α} (h : writeN m 0 xs = some m')
    (h' : writeN m' xs.length ys = some m'') :
    (xs ++ ys).length ≤ m.length ∧ m'' = xs ++ ys ++ m.drop (xs ++ ys).length := by
  have hle : xs.length ≤ m.length := by
    by_contra hlt
    rw [writeN, if_neg (by omega)] at h
    cases h
  have hle' : xs.length + ys.length ≤ m.length := by
    by_contra hlt
    have hlen := length_writeN h
    rw [writeN, if_neg (by omega)] at h'
    cases h'
  rw [writeN_zero hle, Option.some.injEq] at h
  subst h
  rw [writeN_append xs ys (m.drop xs.length) (by rw [List.length_drop]; omega),
    Option.some.injEq, List.drop_drop] at h'
  exact ⟨by rw [List.length_append]; omega, by rw [← h', List.length_append]⟩

/-- A fact about the numbers below 256 is a fact about bytes. -/
theorem forall_byte {p : UInt8 → Prop} (h : ∀ n < 256, p (.ofNat n)) (b : UInt8) : p b := by
  have hb := h b.toNat b.toNat_lt
  rwa [UInt8.ofNat_toNat] at hb

theorem toNat_byte {n : Nat} (h : n < 256) : (UInt8.ofNat n).toNat = n :=
  UInt8.toNat_ofNat_of_lt' h

end HighJump.Lib
