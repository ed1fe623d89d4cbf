/-
HighJump.Util.CString — strings behind a `const char *`, and the
`strncpy_s` that string_util.hpp provides where the compiler has none.

A pointer reads as the bytes up to the first zero; behind the bytes that
are listed there is always one. `strncpyS_eq` is all a caller needs to
know: what is copied is a string, cut to `count` and to the size it was
told, and it has to fit the object with its zero.
-/
import HighJump.Lib.Memory

namespace HighJump.Util

open HighJump.Lib

abbrev Bytes := List UInt8

/-- The string at a `const char *`. -/
def cstr (bs : Bytes) : Bytes := bs.takeWhile (· != 0)

/-- `strncpy_s(dest, destsz, src, count)` into an object of as many bytes
as `dest` has; `none` is a write past its end. -/
def strncpyS (dest : Bytes) (destsz : Nat) (src : Bytes) (count : Nat) : Option Bytes :=
  if destsz = 0 then some dest
  else
    let maxCopy := destsz - 1
    let srcLen := (cstr src).length
    let toCopy := if count < srcLen then count else srcLen
    let toCopy := if toCopy > maxCopy then maxCopy else toCopy
    (if toCopy > 0 then writeN dest 0 (src.take toCopy) else some dest).bind fun dest =>
      writeN dest toCopy [0]

@[simp] theorem cstr_nil : cstr [] = [] := rfl

theorem cstr_cons (c : UInt8) (bs : Bytes) :
    cstr (c :: bs) = if c = 0 then [] else c :: cstr bs := by
  by_cases hc : c = 0 <;> simp [cstr, hc]

theorem not_mem_cstr (bs : Bytes) : 0 ∉ cstr bs := by
  induction bs with
  | nil => simp
  | cons c bs ih =>
    by_cases hc : c = 0
    · simp [cstr_cons, hc]
    · simp [cstr_cons, hc, ih, Ne.symm hc]

theorem cstr_append_zero {bs : Bytes} (h : 0 ∉ bs) (rest : Bytes) :
    cstr (bs ++ 0 :: rest) = bs := by
  induction bs with
  | nil => simp [cstr_cons]
  | cons c bs ih =>
    simp only [List.mem_cons, not_or] at h
    simp [cstr_cons, Ne.symm h.1, ih h.2]

theorem cstr_of_not_mem {bs : Bytes} (h : 0 ∉ bs) : cstr bs = bs := by
  induction bs with
  | nil => rfl
  | cons c bs ih =>
    simp only [List.mem_cons, not_or] at h
    simp [cstr_cons, Ne.symm h.1, ih h.2]

theorem cstr_isPrefix (bs : Bytes) : cstr bs <+: bs := List.takeWhile_prefix _

/-- What `strncpy_s` copies. -/
def copied (destsz : Nat) (src : Bytes) (count : Nat) : Bytes :=
  (cstr src).take (min count (destsz - 1))

theorem strncpyS_eq (dest : Bytes) {destsz : Nat} (h : 0 < destsz) (src : Bytes) (count : Nat) :
    strncpyS dest destsz src count =
      if (copied destsz src count).length < dest.length then
        some (copied destsz src count ++ 0 :: dest.drop ((copied destsz src count).length + 1))
      else none := by
  have hlen : (copied destsz src count).length = min (min count (destsz - 1)) (cstr src).length :=
    List.length_take
  have hsrc : src.take (copied destsz src count).length = copied destsz src count := by
    have hpre : copied destsz src count <+: src := (List.take_prefix _ _).trans (cstr_isPrefix src)
    exact (List.prefix_iff_eq_take.mp hpre).symm
  have hcopy : (if (if count < (cstr src).length then count else (cstr src).length) > destsz - 1
      then destsz - 1 else if count < (cstr src).length then count else (cstr src).length) =
        (copied destsz src count).length := by
    rw [hlen]
    split_ifs <;> omega
  unfold strncpyS
  rw [if_neg (Nat.ne_of_gt h)]
  dsimp only
  rw [hcopy, hsrc]
  generalize copied destsz src count = bs
  have hfirst : (if bs.length > 0 then writeN dest 0 bs else some dest) = writeN dest 0 bs := by
    split
    · rfl
    · rename_i hnil
      obtain rfl : bs = [] := List.eq_nil_of_length_eq_zero (Nat.eq_zero_of_not_pos hnil)
      exact (writeN_nil (Nat.zero_le _)).symm
  rw [hfirst]
  by_cases hfits : bs.length < dest.length
  · rw [if_pos hfits, writeN_zero (Nat.le_of_lt hfits), Option.bind_some,
      writeN_append bs [0] (dest.drop bs.length) (by simp; omega)]
    simp [List.drop_drop]
  · rw [if_neg hfits]
    by_cases hle : bs.length ≤ dest.length
    · rw [writeN_zero hle, Option.bind_some, writeN, if_neg (by simp; omega)]
    · rw [writeN, if_neg (by simpa using hle), Option.bind_none]

end HighJump.Util
