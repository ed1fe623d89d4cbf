/-
HighJump.Crypto.DesPadding — what `_padding_block` appends and what
`_unpadding_block` removes, as functions on byte strings.

`_unpadding_block` works in place on a buffer that is longer than the
data, with unsigned indices and a scan that clears what it cuts off.
`unpad` is the same decision without the buffer; `unpaddingBlock_eq` says
the first `len` bytes the function leaves are `unpad` of the data, for
whole blocks below 2^31 bytes. The four paddings that carry a count
(`cutBy`) look at the last eight bytes only; zero and 7816-4 padding look
as far back as the zeros go, which is where the buffer and the stream
overload part.
-/
import HighJump.Crypto.Des
import Mathlib.Data.List.DropRight
import Mathlib.Tactic.NormNum

namespace HighJump.Crypto.Des

open HighJump.Lib

/-! ## Trailing zeros -/

/-- The bytes without their trailing zeros. -/
def trim (data : Bytes) : Bytes := data.rdropWhile (· == 0)

theorem trim_append_zero (data : Bytes) : trim (data ++ [0]) = trim data := by
  simp [trim]

theorem trim_append_ne {x : UInt8} (data : Bytes) (h : x ≠ 0) : trim (data ++ [x]) = data ++ [x] := by
  simp [trim, h]

theorem trim_append_zeros (data : Bytes) (z : Nat) :
    trim (data ++ List.replicate z 0) = trim data := by
  induction z with
  | zero => simp
  | succ z ih =>
    rw [List.replicate_succ', ← List.append_assoc, trim_append_zero, ih]

/-- A byte string is its trimmed part and zeros. -/
theorem exists_zeros (data : Bytes) : ∃ z, data = trim data ++ List.replicate z 0 := by
  induction data using List.reverseRecOn with
  | nil => exact ⟨0, rfl⟩
  | append_singleton data x ih =>
    by_cases hx : x = 0
    · obtain ⟨z, hz⟩ := ih
      refine ⟨z + 1, ?_⟩
      rw [hx, trim_append_zero, List.replicate_succ', ← List.append_assoc, ← hz]
    · exact ⟨0, by simp [trim_append_ne data hx]⟩

theorem take_trim (data spare : Bytes) :
    (data ++ spare).take (trim data).length = trim data := by
  have hpre : trim data <+: data := List.rdropWhile_prefix _ _
  rw [List.take_append_of_le_length hpre.length_le]
  exact (List.prefix_iff_eq_take.mp hpre).symm

theorem length_trim_le (data : Bytes) : (trim data).length ≤ data.length :=
  List.IsPrefix.length_le (List.rdropWhile_prefix _ _)

/-- `stripZeros` counts the trimmed bytes. -/
theorem stripZeros_eq (data spare : Bytes) :
    stripZeros (data ++ spare) data.length = some (trim data).length := by
  induction data using List.reverseRecOn generalizing spare with
  | nil => rfl
  | append_singleton data x ih =>
    have hget : (data ++ [x] ++ spare)[data.length]? = some x := by simp
    rw [List.length_append, List.length_singleton, stripZeros, hget, Option.bind_eq_bind,
      Option.bind_some]
    by_cases hx : x = 0
    · rw [if_pos hx, hx, trim_append_zero, List.append_assoc, ih]
    · rw [if_neg hx, trim_append_ne data hx, List.length_append, List.length_singleton]

/-! ## Unpadding as a function on strings -/

/-- The paddings that end in a count `p`: if `p` is between 1 and 8 and
the last `p` bytes are `good`, they go. -/
def cutBy (good : UInt8 → Bytes → Bool) (data : Bytes) : Bytes :=
  match data.getLast? with
  | none => data
  | some p =>
      if p ≠ 0 ∧ p ≤ 8 ∧ good p (data.drop (data.length - p.toNat)) then
        data.take (data.length - p.toNat)
      else data

/-- 7816-4: zeros back to a byte 0x80, which goes with them. -/
def cutMarker (data : Bytes) : Bytes :=
  if (trim data).getLast? = some 0x80 then (trim data).dropLast else data

/-- What `_unpadding_block` keeps of whole decrypted blocks. -/
def unpad : Padding → Bytes → Bytes
  | .pkcs5 | .pkcs7 => cutBy fun p l => l.all (· == p)
  | .zero => trim
  | .iso10126 => cutBy fun _ _ => true
  | .ansix923 => cutBy fun _ l => l.dropLast.all (· == 0)
  | .isoIec7816_4 => cutMarker
  | .noPadding => id

/-- The count paddings see the last eight bytes only. -/
theorem cutBy_append (good : UInt8 → Bytes → Bool) (init : Bytes) {lst : Bytes}
    (h : lst.length = 8) : cutBy good (init ++ lst) = init ++ cutBy good lst := by
  have hne : lst ≠ [] := by intro h0; simp [h0] at h
  obtain ⟨p, hp⟩ : ∃ p, lst.getLast? = some p := ⟨_, List.getLast?_eq_some_getLast hne⟩
  have hp' : (init ++ lst).getLast? = some p := by
    rw [List.getLast?_append, hp]; rfl
  unfold cutBy
  rw [hp, hp']
  dsimp only
  by_cases h8 : p ≤ 8
  · have hle : p.toNat ≤ 8 := UInt8.le_iff_toNat_le.mp h8
    have hsub : (init ++ lst).length - p.toNat = init.length + (lst.length - p.toNat) := by
      rw [List.length_append]; omega
    rw [hsub, List.drop_length_add_append, List.take_length_add_append]
    split <;> rfl
  · simp [h8]

/-- A filler that names its own length is cut off. -/
theorem cutBy_filler {good : UInt8 → Bytes → Bool} (m : Bytes) {filler : Bytes} {p : UInt8}
    (h0 : p ≠ 0) (h8 : p ≤ 8) (hlast : filler.getLast? = some p)
    (hlen : filler.length = p.toNat) (hgood : good p filler = true) :
    cutBy good (m ++ filler) = m := by
  have hsub : (m ++ filler).length - p.toNat = m.length := by rw [List.length_append]; omega
  unfold cutBy
  rw [List.getLast?_append, hlast, Option.some_or]
  dsimp only
  rw [hsub, List.drop_left, List.take_left, if_pos ⟨h0, h8, hgood⟩]

/-! ## `_unpadding_block` computes it -/

theorem subSz_eq {a b : Nat} (hb : b ≤ a) (ha : a < 2 ^ 64) : subSz a b = a - b := by
  unfold subSz; omega

/-- What the cast to `int` keeps of a length: its residue modulo 2^32,
negative from 2^31 on. -/
theorem toInt_cases (n : Nat) : (n % 2 ^ 32 < 2 ^ 31 ∧ toInt n = (n % 2 ^ 32 : Nat)) ∨
    (2 ^ 31 ≤ n % 2 ^ 32 ∧ toInt n < 0) := by
  unfold toInt
  rw [Int.ofNat_eq_natCast, Int.bmod_def]
  split <;> omega

theorem toInt_eq {n : Nat} (h : n < 2 ^ 31) : toInt n = n := by
  rcases toInt_cases n with ⟨-, heq⟩ | ⟨hge, -⟩ <;> omega

/-- The cast of a length, where it is not negative, drops a multiple of
2^32. -/
theorem toNat_toInt_le (n : Nat) : (toInt n).toNat ≤ n := by
  rcases toInt_cases n with ⟨-, heq⟩ | ⟨-, hneg⟩ <;> omega

theorem allAt_eq (f : UInt8 → Bool) (pre mid post : Bytes) :
    allAt (pre ++ mid ++ post) f pre.length mid.length = some (mid.all f) := by
  induction mid generalizing pre with
  | nil => rfl
  | cons b mid ih =>
    have hget : (pre ++ b :: mid ++ post)[pre.length]? = some b := by simp
    have hnext := ih (pre ++ [b])
    simp only [List.append_assoc, List.singleton_append, List.length_append,
      List.length_singleton] at hnext
    rw [List.length_cons, allAt, hget, Option.bind_eq_bind, Option.bind_some, List.all_cons]
    cases hb : f b with
    | true => simpa using hnext
    | false => simp

/-- Overwriting from `len` on keeps the first `len` bytes. -/
theorem take_writeN {m m' xs : Bytes} {i : Nat} (h : writeN m i xs = some m') :
    m'.take i = m.take i := by
  unfold writeN at h
  split at h
  · rename_i hle
    rw [← Option.some.inj h, List.append_assoc, List.take_append_of_le_length (by simp; omega),
      List.take_take, Nat.min_self]
  · cases h

theorem writeN_isSome (m xs : Bytes) (i : Nat) (h : i + xs.length ≤ m.length) :
    ∃ m', writeN m i xs = some m' := ⟨_, if_pos h⟩

/-- Clearing the rest of the first block keeps the data. -/
theorem clearBlock_take (buf : Bytes) (len : Nat) (h : 8 ≤ buf.length) :
    ∃ buf', clearBlock buf len = some buf' ∧ buf'.length = buf.length ∧
      buf'.take len = buf.take len := by
  unfold clearBlock
  split
  · obtain ⟨buf', hw⟩ := writeN_isSome buf (List.replicate (8 - len) 0) len (by simp; omega)
    exact ⟨buf', hw, length_writeN hw, take_writeN hw⟩
  · exact ⟨buf, rfl, rfl, rfl⟩

/-- The 7816-4 branch without the clearing: the scan goes down from
`(int)(len - 1)`, and the length is what stands before the marker, if it
stopped at one. -/
def markerLength (buf : Bytes) (len : Nat) : Option Nat :=
  (if toInt (subSz len 1) < 0 then some 0
    else stripZeros buf ((toInt (subSz len 1)).toNat + 1)).bind fun n =>
  if n = 0 then some len else buf[n - 1]?.bind fun b => some (if b = 0x80 then n - 1 else len)

theorem unpaddingBlock_marker (buf : Bytes) (len : Nat) :
    unpaddingBlock buf len .isoIec7816_4 =
      (markerLength buf len).bind fun len => (clearBlock buf len).bind fun buf => some (buf, len) := by
  rw [unpaddingBlock, markerLength]
  split
  · rfl
  · cases stripZeros buf ((toInt (subSz len 1)).toNat + 1) with
    | none => rfl
    | some n =>
      simp only [Option.bind_eq_bind, Option.bind_some]
      split
      · rfl
      · cases buf[n - 1]? with
        | none => rfl
        | some b => rfl

theorem cutMarker_prefix (data : Bytes) : cutMarker data <+: data := by
  unfold cutMarker
  split
  · exact (List.dropLast_prefix _).trans (List.rdropWhile_prefix _ _)
  · exact List.prefix_rfl

/-- Where the scan of `n` bytes stops. -/
theorem getElem?_trim (data spare : Bytes) (h : trim data ≠ []) :
    (data ++ spare)[(trim data).length - 1]? = (trim data).getLast? := by
  have hpos : (trim data).length ≠ 0 := fun h0 => h (List.length_eq_zero_iff.mp h0)
  rw [List.getLast?_eq_getElem?, ← List.getElem?_take_of_lt (Nat.sub_one_lt hpos), take_trim]

/-- The scan over the first `i + 1` bytes. -/
theorem markerLength_of_scan {buf data spare : Bytes} {len : Nat}
    (hint : toInt (subSz len 1) = data.length - 1) (hpos : 0 < data.length)
    (hbuf : buf = data ++ spare) :
    markerLength buf len =
      some (if (trim data).getLast? = some 0x80 then (trim data).length - 1 else len) := by
  have hneg : ¬ toInt (subSz len 1) < 0 := by omega
  have hnat : (toInt (subSz len 1)).toNat + 1 = data.length := by omega
  rw [markerLength, if_neg hneg, hnat, hbuf, stripZeros_eq, Option.bind_some]
  by_cases hnil : trim data = []
  · simp [hnil]
  · have hlen0 : (trim data).length ≠ 0 := fun h0 => hnil (List.length_eq_zero_iff.mp h0)
    rw [if_neg hlen0, getElem?_trim data spare hnil, List.getLast?_eq_some_getLast hnil,
      Option.bind_some]
    simp only [Option.some.injEq]

/-- Below 2^31 bytes the length is that of `cutMarker`. -/
theorem markerLength_eq (data spare : Bytes) (hlen : data.length < 2 ^ 31) :
    markerLength (data ++ spare) data.length = some (cutMarker data).length := by
  by_cases hnil : data = []
  · subst hnil
    have hint : toInt (subSz 0 1) < 0 := by decide
    rw [List.length_nil, markerLength, if_pos hint]
    rfl
  · have hpos := List.length_pos_of_ne_nil hnil
    have hint : toInt (subSz data.length 1) = (data.length : Int) - 1 := by
      rw [subSz_eq hpos (by omega), toInt_eq (by omega)]
      omega
    rw [markerLength_of_scan hint hpos rfl, cutMarker]
    split
    · rw [List.length_dropLast]
    · rfl

theorem exists_stripZeros (buf : Bytes) : ∀ n, n ≤ buf.length →
    ∃ k, stripZeros buf n = some k ∧ k ≤ n
  | 0, _ => ⟨0, rfl, Nat.le_refl 0⟩
  | n + 1, h => by
      obtain ⟨k, hk, hle⟩ := exists_stripZeros buf n (by omega)
      have hget : buf[n]? = some buf[n] := List.getElem?_eq_getElem (by omega)
      by_cases hb : buf[n] = 0
      · exact ⟨k, by simp [stripZeros, hget, hb, hk], by omega⟩
      · exact ⟨n + 1, by simp [stripZeros, hget, hb], Nat.le_refl _⟩

/-- The index the marker scan starts from is negative or in the data. -/
theorem markerStart (n : Nat) (hn : n < 2 ^ 64) :
    toInt (subSz n 1) < 0 ∨ (toInt (subSz n 1)).toNat + 1 ≤ n := by
  rcases Nat.eq_zero_or_pos n with rfl | hpos
  · exact .inl (by decide)
  · rcases toInt_cases (subSz n 1) with ⟨-, heq⟩ | ⟨-, hneg⟩
    · rw [subSz_eq hpos hn] at heq ⊢
      right
      omega
    · exact .inl hneg

/-- The scan looks at the data only, whatever the narrowing made of their
length. -/
theorem exists_markerLength {data : Bytes} (spare : Bytes) (hlen : data.length < 2 ^ 64) :
    ∃ len, markerLength (data ++ spare) data.length = some len ∧ len ≤ data.length := by
  have hscan : ∃ n, (if toInt (subSz data.length 1) < 0 then some 0 else
      stripZeros (data ++ spare) ((toInt (subSz data.length 1)).toNat + 1)) = some n ∧
      n ≤ data.length := by
    by_cases hneg : toInt (subSz data.length 1) < 0
    · exact ⟨0, if_pos hneg, Nat.zero_le _⟩
    · have hle := (markerStart data.length hlen).resolve_left hneg
      obtain ⟨k, hk, hkle⟩ := exists_stripZeros (data ++ spare)
        ((toInt (subSz data.length 1)).toNat + 1) (by rw [List.length_append]; omega)
      exact ⟨k, (if_neg hneg).trans hk, by omega⟩
  obtain ⟨n, hn, hle⟩ := hscan
  rw [markerLength, hn, Option.bind_some]
  by_cases h0 : n = 0
  · exact ⟨data.length, if_pos h0, Nat.le_refl _⟩
  · have hlt : n - 1 < (data ++ spare).length := by rw [List.length_append]; omega
    refine ⟨_, by rw [if_neg h0, List.getElem?_eq_getElem hlt, Option.bind_some], ?_⟩
    split <;> omega

section Unpadding

variable {data : Bytes} (spare : Bytes) (h8 : 8 ≤ data.length) (hlen : data.length < 2 ^ 31)

/-- What `unpaddingBlock` must leave to agree with `kept`. -/
def Leaves (r : Option (Bytes × Nat)) (kept : Bytes) : Prop :=
  ∃ buf len, r = some (buf, len) ∧ len ≤ buf.length ∧ buf.take len = kept

include h8 hlen

/-- The byte at `len - 1`. -/
theorem last_byte : ∃ p, data.getLast? = some p ∧
    (data ++ spare)[subSz data.length 1]? = some p := by
  have hne : data ≠ [] := by intro h0; simp [h0] at h8
  refine ⟨_, List.getLast?_eq_some_getLast hne, ?_⟩
  rw [subSz_eq (by omega) (by omega), List.getElem?_append_left (by omega),
    List.getElem?_eq_getElem (by omega), List.getLast_eq_getElem]

theorem unpaddingBlock_zero :
    Leaves (unpaddingBlock (data ++ spare) data.length .zero) (trim data) := by
  have hle := length_trim_le data
  obtain ⟨buf, hc, hbuf, ht⟩ := clearBlock_take (data ++ spare) (trim data).length
    (by simp; omega)
  refine ⟨buf, (trim data).length, ?_, by simp [hbuf]; omega, ?_⟩
  · simp [unpaddingBlock, stripZeros_eq, hc]
  · rw [ht, take_trim]

/-- The count a padding names is out of range, or it is a real cut. -/
theorem count_cases (good : UInt8 → Bytes → Bool) {p : UInt8} (hp : data.getLast? = some p) :
    ((p = 0 ∨ p > 8) ∧ cutBy good data = data) ∨
    (¬ (p = 0 ∨ p > 8) ∧ p.toNat ≤ 8 ∧ 1 ≤ p.toNat ∧
      subSz data.length p.toNat = data.length - p.toNat ∧
      cutBy good data = if good p (data.drop (data.length - p.toNat)) then
        data.take (data.length - p.toNat) else data) := by
  by_cases hbad : p = 0 ∨ p > 8
  · refine .inl ⟨hbad, ?_⟩
    rw [cutBy, hp]
    refine if_neg ?_
    rintro ⟨h0, hle, -⟩
    rcases hbad with h | h
    · exact h0 h
    · exact absurd h (UInt8.not_lt.mpr hle)
  · have h0 : p ≠ 0 := fun h => hbad (.inl h)
    have hle : p ≤ 8 := UInt8.not_lt.mp fun h => hbad (.inr h)
    have hple : p.toNat ≤ 8 := UInt8.le_iff_toNat_le.mp hle
    have hpos : p.toNat ≠ 0 := fun h => h0 (UInt8.toNat_inj.mp h)
    refine .inr ⟨hbad, hple, by omega, subSz_eq (by omega) (by omega), ?_⟩
    rw [cutBy, hp]
    simp only [h0, hle, ne_eq, not_false_eq_true, true_and]

/-- Cutting with the cut bytes cleared. -/
theorem leaves_clear {n : Nat} (hn : n ≤ 8) :
    Leaves ((writeN (data ++ spare) (data.length - n) (List.replicate n 0)).bind fun buf =>
      some (buf, data.length - n)) (data.take (data.length - n)) := by
  obtain ⟨buf, hw⟩ := writeN_isSome (data ++ spare) (List.replicate n 0) (data.length - n)
    (by simp; omega)
  refine ⟨buf, _, by rw [hw]; rfl, by simp [length_writeN hw]; omega, ?_⟩
  rw [take_writeN hw, List.take_append_of_le_length (by omega)]

omit h8 hlen in
theorem leaves_all : Leaves (some (data ++ spare, data.length)) data :=
  ⟨_, _, rfl, by simp, by simp⟩

theorem unpaddingBlock_pkcs :
    Leaves (unpaddingBlock (data ++ spare) data.length .pkcs7) (unpad .pkcs7 data) := by
  obtain ⟨p, hp, hget⟩ := last_byte spare h8 hlen
  have hne : data.length ≠ 0 := by omega
  simp only [unpaddingBlock, hne, if_false, hget, Option.bind_eq_bind, Option.bind_some, unpad]
  rcases count_cases h8 hlen (fun p l => l.all (· == p)) hp with
    ⟨hbad, hcut⟩ | ⟨hok, hle, hpos, hsub, hcut⟩
  · rw [if_pos hbad, hcut]
    exact leaves_all spare
  · have hall := allAt_eq (· = p) (data.take (data.length - p.toNat))
      (data.drop (data.length - p.toNat)) spare
    rw [List.take_append_drop, List.length_take, List.length_drop,
      Nat.min_eq_left (Nat.sub_le _ _)] at hall
    rw [if_neg hok, hcut, hsub, hall, Option.bind_some]
    by_cases hgood : (data.drop (data.length - p.toNat)).all (· == p) = true
    · have hgood' : (data.drop (data.length - p.toNat)).all (fun x => decide (x = p)) = true := hgood
      rw [if_pos hgood, if_pos hgood']
      exact leaves_clear spare h8 hlen hle
    · have hgood' : ¬ (data.drop (data.length - p.toNat)).all (fun x => decide (x = p)) = true :=
        hgood
      rw [if_neg hgood, if_neg hgood']
      exact leaves_all spare

theorem unpaddingBlock_iso10126 :
    Leaves (unpaddingBlock (data ++ spare) data.length .iso10126) (unpad .iso10126 data) := by
  obtain ⟨p, hp, hget⟩ := last_byte spare h8 hlen
  have hne : data.length ≠ 0 := by omega
  simp only [unpaddingBlock, hne, if_false, hget, Option.bind_eq_bind, Option.bind_some, unpad]
  rcases count_cases h8 hlen (fun _ _ => true) hp with ⟨hbad, hcut⟩ | ⟨hok, hle, hpos, hsub, hcut⟩
  · rw [if_pos hbad, hcut]
    exact leaves_all spare
  · rw [if_neg hok, hcut, hsub, if_pos rfl]
    exact leaves_clear spare h8 hlen hle

theorem unpaddingBlock_ansix923 :
    Leaves (unpaddingBlock (data ++ spare) data.length .ansix923) (unpad .ansix923 data) := by
  obtain ⟨p, hp, hget⟩ := last_byte spare h8 hlen
  have hne : data.length ≠ 0 := by omega
  have hsub1 : subSz data.length 1 = data.length - 1 := subSz_eq (by omega) (by omega)
  simp only [unpaddingBlock, hne, if_false, hget, Option.bind_eq_bind, Option.bind_some, unpad]
  rcases count_cases h8 hlen (fun _ l => l.dropLast.all (· == 0)) hp with
    ⟨hbad, hcut⟩ | ⟨hok, hle, hpos, hsub, hcut⟩
  · rw [if_pos hbad, hcut]
    exact leaves_all spare
  · -- the scan stops one byte short of the count itself
    have hdrop : data.drop (data.length - p.toNat)
        = (data.drop (data.length - p.toNat)).dropLast ++ [p] := by
      have hne' : data.drop (data.length - p.toNat) ≠ [] := by
        intro h; have := congrArg List.length h; simp at this; omega
      have hl : (data.drop (data.length - p.toNat)).getLast? = some p := by
        rw [List.getLast?_drop, if_neg (by omega), hp]
      exact (List.dropLast_append_getLast? _ hl).symm
    have hsplit : data ++ spare = data.take (data.length - p.toNat)
        ++ (data.drop (data.length - p.toNat)).dropLast ++ ([p] ++ spare) := by
      conv => lhs; rw [← List.take_append_drop (data.length - p.toNat) data, hdrop]
      simp
    have hall := allAt_eq (· = 0) (data.take (data.length - p.toNat))
      (data.drop (data.length - p.toNat)).dropLast ([p] ++ spare)
    rw [← hsplit, List.length_take, List.length_dropLast, List.length_drop,
      Nat.min_eq_left (Nat.sub_le _ _)] at hall
    have hcount : data.length - 1 - (data.length - p.toNat)
        = data.length - (data.length - p.toNat) - 1 := by omega
    rw [if_neg hok, hcut, hsub, hsub1, hcount, hall, Option.bind_some]
    by_cases hgood : (data.drop (data.length - p.toNat)).dropLast.all (· == 0) = true
    · have hgood' : (data.drop (data.length - p.toNat)).dropLast.all (fun x => decide (x = 0))
          = true := hgood
      rw [if_pos hgood, if_pos hgood']
      exact ⟨_, _, rfl, by simp; omega, by rw [List.take_append_of_le_length (by omega)]⟩
    · have hgood' : ¬ (data.drop (data.length - p.toNat)).dropLast.all (fun x => decide (x = 0))
          = true := hgood
      rw [if_neg hgood, if_neg hgood']
      exact leaves_all spare

theorem unpaddingBlock_isoIec7816_4 :
    Leaves (unpaddingBlock (data ++ spare) data.length .isoIec7816_4) (cutMarker data) := by
  have hpre := cutMarker_prefix data
  have hle := hpre.length_le
  obtain ⟨buf, hc, hbuf, htake⟩ := clearBlock_take (data ++ spare) (cutMarker data).length
    (by rw [List.length_append]; omega)
  refine ⟨buf, (cutMarker data).length, ?_, by rw [hbuf, List.length_append]; omega, ?_⟩
  · rw [unpaddingBlock_marker, markerLength_eq data spare hlen, Option.bind_some, hc]
    rfl
  · rw [htake, List.take_append_of_le_length hle]
    exact (List.prefix_iff_eq_take.mp hpre).symm

/-- **Unpadding.** On at least one block, and below 2^31 bytes, what
`_unpadding_block` leaves in the first `len` bytes is `unpad` of the
data, whatever stands after it in the buffer. -/
theorem unpaddingBlock_eq (pad : Padding) :
    Leaves (unpaddingBlock (data ++ spare) data.length pad) (unpad pad data) := by
  cases pad with
  | pkcs5 => exact unpaddingBlock_pkcs spare h8 hlen
  | pkcs7 => exact unpaddingBlock_pkcs spare h8 hlen
  | zero => exact unpaddingBlock_zero spare h8 hlen
  | iso10126 => exact unpaddingBlock_iso10126 spare h8 hlen
  | ansix923 => exact unpaddingBlock_ansix923 spare h8 hlen
  | isoIec7816_4 => exact unpaddingBlock_isoIec7816_4 spare h8 hlen
  | noPadding => exact leaves_all spare

end Unpadding

/-! ## Unpadding the last block only -/

theorem trim_append (a l : Bytes) :
    trim (a ++ l) = if trim l = [] then trim a else a ++ trim l := by
  induction l using List.reverseRecOn with
  | nil => simp [trim]
  | append_singleton l x ih =>
    rw [← List.append_assoc]
    by_cases hx : x = 0
    · rw [hx, trim_append_zero, trim_append_zero, ih]
    · rw [trim_append_ne _ hx, trim_append_ne _ hx]
      simp

/-- A string with nothing but zeros in it. -/
theorem eq_zeros_of_trim_nil {l : Bytes} (h : trim l = []) : l = List.replicate l.length 0 := by
  obtain ⟨z, hz⟩ := exists_zeros l
  rw [h, List.nil_append] at hz
  rw [hz, List.length_replicate]

/-- Trimming a last part by itself misses zeros exactly when the zeros go
on before it. -/
theorem trim_append_eq_iff (a l : Bytes) :
    trim (a ++ l) = a ++ trim l ↔ ¬ ∃ m, a ++ l = m ++ List.replicate (l.length + 1) 0 := by
  rw [trim_append]
  by_cases h : trim l = []
  · have hzero := eq_zeros_of_trim_nil h
    rw [if_pos h, h, List.append_nil]
    constructor
    · -- if `a` ends in one zero more, trimming takes it
      rintro ha ⟨m, hm⟩
      have hm' : a ++ l = m ++ [0] ++ l := by
        conv => rhs; rw [hzero]
        rw [hm]; simp [List.replicate_succ]
      rw [List.append_cancel_right hm', trim_append_zero] at ha
      have hle := length_trim_le m
      have hlen := congrArg List.length ha
      simp only [List.length_append, List.length_singleton] at hlen
      omega
    · intro hno
      induction a using List.reverseRecOn with
      | nil => rfl
      | append_singleton a x _ =>
        refine trim_append_ne a fun hx => hno ⟨a, ?_⟩
        conv => lhs; rw [hzero]
        rw [hx, List.append_assoc, List.replicate_succ]; rfl
  · rw [if_neg h]
    refine iff_of_true rfl ?_
    rintro ⟨m, hm⟩
    have hdrop : (a ++ l).drop a.length = (m ++ List.replicate (l.length + 1) 0).drop a.length := by
      rw [hm]
    have hlen := congrArg List.length hm
    simp only [List.length_append, List.length_replicate] at hlen
    apply h
    rw [List.drop_left, List.drop_append, List.drop_eq_nil_of_le (by omega), List.drop_replicate,
      List.nil_append] at hdrop
    rw [hdrop]
    exact trim_append_zeros [] _

/-- Looking for the marker in the last part by itself misses it exactly
when it stands before that part. -/
theorem cutMarker_append_eq_iff {a l : Bytes} (hl : 0 < l.length) :
    cutMarker (a ++ l) = a ++ cutMarker l ↔
      ¬ ∃ m z, l.length ≤ z ∧ a ++ l = m ++ 0x80 :: List.replicate z 0 := by
  by_cases h : trim l = []
  · have hzero := eq_zeros_of_trim_nil h
    have hcut : cutMarker l = l := by simp [cutMarker, h]
    rw [hcut, cutMarker, trim_append, if_pos h]
    by_cases hm : (trim a).getLast? = some 0x80
    · rw [if_pos hm]
      refine iff_of_false ?_ ?_
      · intro heq
        have hlen := congrArg List.length heq
        have hle := length_trim_le a
        simp only [List.length_dropLast, List.length_append] at hlen
        omega
      · rw [not_not]
        obtain ⟨z, hz⟩ := exists_zeros a
        refine ⟨(trim a).dropLast, z + l.length, by omega, ?_⟩
        have hlast := List.dropLast_append_getLast? _ hm
        calc a ++ l = (trim a ++ List.replicate z 0) ++ List.replicate l.length 0 := by
                rw [← hz, ← hzero]
          _ = ((trim a).dropLast ++ [0x80]) ++ List.replicate (z + l.length) 0 := by
                rw [List.replicate_add, hlast, List.append_assoc]
          _ = _ := by simp
    · rw [if_neg hm]
      refine iff_of_true rfl ?_
      rintro ⟨m, z, hz, heq⟩
      apply hm
      have ht : trim (a ++ l) = m ++ [0x80] := by
        rw [heq, ← List.singleton_append, ← List.append_assoc, trim_append_zeros]
        exact trim_append_ne m (by decide)
      rw [trim_append, if_pos h] at ht
      rw [ht]; simp
  · -- the scan stops inside the last part, for both
    have hlast : (a ++ trim l).getLast? = (trim l).getLast? := by
      rw [List.getLast?_append, List.getLast?_eq_some_getLast h]; rfl
    refine iff_of_true ?_ ?_
    · rw [cutMarker, cutMarker, trim_append, if_neg h, hlast, List.dropLast_append_of_ne_nil h]
      split <;> rfl
    · rintro ⟨m, z, hz, heq⟩
      apply h
      have hdrop : (a ++ l).drop a.length = (m ++ 0x80 :: List.replicate z 0).drop a.length := by
        rw [heq]
      have hlen := congrArg List.length heq
      simp only [List.length_append, List.length_cons, List.length_replicate] at hlen
      have hsplit : m ++ 0x80 :: List.replicate z 0 = (m ++ [0x80]) ++ List.replicate z 0 := by simp
      rw [List.drop_left, hsplit, List.drop_append, List.drop_eq_nil_of_le (by simp; omega),
        List.drop_replicate, List.nil_append] at hdrop
      rw [hdrop]
      exact trim_append_zeros [] _

/-- A decrypted message whose padding reaches back over its last block:
nine zeros at the end under zero padding, the marker and eight zeros or
more under 7816-4 padding. -/
def PaddingStraddles : Padding → Bytes → Prop
  | .zero, p => ∃ m, p = m ++ List.replicate 9 0
  | .isoIec7816_4, p => ∃ m z, 8 ≤ z ∧ p = m ++ 0x80 :: List.replicate z 0
  | _, _ => False

section Straddle

variable {a l : Bytes} (hl : l.length = 8)

include hl

/-- **Where unpadding the last block is unpadding the whole**: everywhere
but on the messages whose padding straddles. -/
theorem unpad_split_iff (pad : Padding) :
    unpad pad (a ++ l) = a ++ unpad pad l ↔ ¬ PaddingStraddles pad (a ++ l) := by
  cases pad with
  | pkcs5 | pkcs7 | iso10126 | ansix923 =>
    refine iff_of_true ?_ id
    simp only [unpad]
    exact cutBy_append _ a hl
  | zero =>
    have h := trim_append_eq_iff a l
    rwa [hl] at h
  | isoIec7816_4 =>
    have h := cutMarker_append_eq_iff (a := a) (l := l) (by omega)
    rwa [hl] at h
  | noPadding => exact iff_of_true rfl id

end Straddle

/-! ## `_padding_block` and back -/

/-- What `_padding_block` puts after `n` bytes of data. -/
def filler (rnd : Nat → UInt8) (n : Nat) : Padding → Bytes
  | .pkcs5 | .pkcs7 => List.replicate (8 - n) (UInt8.ofNat (8 - n))
  | .iso10126 => (List.range' n (7 - n)).map rnd ++ [UInt8.ofNat (8 - n)]
  | .ansix923 => List.replicate (7 - n) 0 ++ [UInt8.ofNat (8 - n)]
  | .isoIec7816_4 => 0x80 :: List.replicate (7 - n) 0
  | .zero | .noPadding => List.replicate (8 - n) 0

/-- A partial block is padded by appending the filler. -/
theorem paddingBlock_val (rnd : Nat → UInt8) {data : Bytes} (h : data.length < 8)
    (pad : Padding) : (paddingBlock rnd data pad).val = data ++ filler rnd data.length pad := by
  -- eight lengths, seven paddings: each is a computation on named bytes
  match data, h with
  | [], _ => cases pad <;> rfl
  | [_], _ => cases pad <;> rfl
  | [_, _], _ => cases pad <;> rfl
  | [_, _, _], _ => cases pad <;> rfl
  | [_, _, _, _], _ => cases pad <;> rfl
  | [_, _, _, _, _], _ => cases pad <;> rfl
  | [_, _, _, _, _, _], _ => cases pad <;> rfl
  | [_, _, _, _, _, _, _], _ => cases pad <;> rfl
  | _ :: _ :: _ :: _ :: _ :: _ :: _ :: _ :: _, h => simp at h; omega

/-- The count byte of a partial block of `n` bytes. -/
theorem count_byte {n : Nat} (h : n < 8) : UInt8.ofNat (8 - n) ≠ 0 ∧ UInt8.ofNat (8 - n) ≤ 8 ∧
    (UInt8.ofNat (8 - n)).toNat = 8 - n := by
  have hv : (UInt8.ofNat (8 - n)).toNat = 8 - n := by
    rw [UInt8.toNat_ofNat']; omega
  refine ⟨fun h0 => ?_, ?_, hv⟩
  · have := congrArg UInt8.toNat h0
    rw [hv] at this
    have h00 : (0 : UInt8).toNat = 0 := rfl
    omega
  · rw [UInt8.le_iff_toNat_le, hv]
    have h88 : (8 : UInt8).toNat = 8 := rfl
    omega

/-- What unpadding makes of a padded message. -/
def recovered (pad : Padding) (m : Bytes) : Bytes := if pad = .zero then trim m else m

/-- **Unpadding undoes padding**: whatever the filler, the message comes
back, without its trailing zeros under zero padding. -/
theorem unpad_filler (rnd : Nat → UInt8) (m : Bytes) {n : Nat} (h : n < 8) {pad : Padding}
    (hp : pad ≠ .noPadding) : unpad pad (m ++ filler rnd n pad) = recovered pad m := by
  obtain ⟨h0, h8, hv⟩ := count_byte h
  cases pad with
  | pkcs5 | pkcs7 =>
    simp only [unpad, filler, recovered, reduceCtorEq, if_false]
    refine cutBy_filler m h0 h8 ?_ ?_ ?_
    · rw [List.getLast?_replicate, if_neg (by omega)]
    · rw [hv, List.length_replicate]
    · simp
  | iso10126 =>
    simp only [unpad, filler, recovered, reduceCtorEq, if_false]
    refine cutBy_filler m h0 h8 (by simp) ?_ rfl
    rw [hv]
    simp
    omega
  | ansix923 =>
    simp only [unpad, filler, recovered, reduceCtorEq, if_false]
    refine cutBy_filler m h0 h8 (by simp) ?_ (by simp)
    rw [hv]
    simp
    omega
  | isoIec7816_4 =>
    have htrim : trim (m ++ filler rnd n .isoIec7816_4) = m ++ [0x80] := by
      rw [filler, ← List.singleton_append, ← List.append_assoc, trim_append_zeros]
      exact trim_append_ne m (by decide)
    simp [unpad, cutMarker, htrim, recovered]
  | zero => simp [unpad, filler, trim_append_zeros, recovered]
  | noPadding => exact absurd rfl hp

end HighJump.Crypto.Des
