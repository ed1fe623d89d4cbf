/-
HighJump.Crypto.AesPadding — what `_padding_block` of `hj::aes` appends
and what `_unpadding_block` removes, as functions on byte strings.

Padding depends on the length modulo 16 only (`paddingBlock_eq`), so a
message may be cut at any multiple of 16 and its tail padded by itself.

Unpadding does not cut so well. Three things can happen to a last chunk
unpadded by itself. Zero padding and 7816-4 padding may have begun before
it. And a count byte may be larger than the chunk: the index then wraps
below zero, the check loop has nothing to run over, and the function
answers a length near 2^64 (`unpaddingBlock_overruns`). `Straddles` says
when one of these happens, and `unpad_append_iff` that nothing else can.
-/
import HighJump.Crypto.AesSession

namespace HighJump.Crypto.Aes

open HighJump.Lib
open HighJump.Crypto.Des (subSz subSz_eq trim cutMarker take_trim length_trim_le stripZeros_eq
  markerLength markerLength_eq exists_markerLength cutMarker_prefix trim_append_eq_iff
  cutMarker_append_eq_iff)

/-! ## Padding -/

/-- What `_padding_block` puts after `n` bytes under the paddings that
draw no random bytes. -/
def filler (n : Nat) : Padding → Bytes
  | .pkcs5 | .pkcs7 => List.replicate (16 - n % 16) (UInt8.ofNat (16 - n % 16))
  | .zero => List.replicate (16 - n % 16) 0
  | .ansix923 => List.replicate (15 - n % 16) 0 ++ [UInt8.ofNat (16 - n % 16)]
  | .isoIec7816_4 => 0x80 :: List.replicate (15 - n % 16) 0
  | .iso10126 | .noPadding => []

/-- What `_padding_block` puts after `n` bytes to fill a block of `b`. -/
def fillerTo (rnd : Nat → UInt8) (b n : Nat) : Padding → Bytes
  | .pkcs5 | .pkcs7 => List.replicate (b - n % b) (UInt8.ofNat (b - n % b))
  | .zero => List.replicate (b - n % b) 0
  | .iso10126 => (List.range' n (b - n % b - 1)).map rnd ++ [UInt8.ofNat (b - n % b)]
  | .ansix923 => List.replicate (b - n % b - 1) 0 ++ [UInt8.ofNat (b - n % b)]
  | .isoIec7816_4 => 0x80 :: List.replicate (b - n % b - 1) 0
  | .noPadding => []

/-- The count byte of a message of `n` bytes. -/
theorem toNat_count {b : Nat} (hb : 0 < b) (h256 : b < 256) (n : Nat) :
    (UInt8.ofNat (b - n % b)).toNat = b - n % b ∧ 1 ≤ b - n % b ∧ b - n % b ≤ b := by
  have hlt := Nat.mod_lt n hb
  rw [UInt8.toNat_ofNat']
  omega

theorem ne_zero_of_toNat {p : UInt8} (h : 1 ≤ p.toNat) : p ≠ 0 := by
  rintro rfl
  exact absurd h (by decide)

/-- Overwriting everything from `src.length` on. -/
theorem mapIdx_tail (src : Bytes) (k : Nat) (p : UInt8) :
    ((src ++ List.replicate k 0).mapIdx fun i b => if src.length ≤ i then p else b)
      = src ++ List.replicate k p := by
  rw [List.mapIdx_append]
  congr 1
  · apply List.ext_getElem (by simp)
    intro i h1 h2
    have hi : ¬ src.length ≤ i := by omega
    simp [hi]
  · apply List.ext_getElem (by simp)
    intro i h1 h2
    simp

/-- Overwriting everything from `src.length` on but the last byte. -/
theorem mapIdx_random (rnd : Nat → UInt8) (src : Bytes) (k : Nat) :
    ((src ++ List.replicate (k + 1) 0).mapIdx fun i b =>
      if src.length ≤ i ∧ i < src.length + k then rnd i else b)
      = src ++ ((List.range' src.length k).map rnd ++ [0]) := by
  rw [List.mapIdx_append, List.replicate_succ', List.mapIdx_append]
  congr 1
  · apply List.ext_getElem (by simp)
    intro i h1 h2
    have hi : ¬ (src.length ≤ i ∧ i < src.length + k) := by omega
    simp [hi]
  · congr 1
    · apply List.ext_getElem (by simp)
      intro i h1 h2
      have hi : i < k := by simpa using h1
      simp [hi, Nat.add_comm]
    · have hi : ¬ k + src.length < src.length + k := by omega
      simp [hi]

theorem set_append_last (src xs : Bytes) (p : UInt8) :
    (src ++ (xs ++ [0])).set (src.length + xs.length) p = src ++ (xs ++ [p]) := by
  rw [List.set_append_right _ _ (by omega), Nat.add_sub_cancel_left,
    List.set_append_right _ _ (Nat.le_refl _), Nat.sub_self]
  rfl

/-- **Padding** appends a filler that depends on the length only. -/
theorem paddingBlock_fillerTo {evp : Evp.Api Cipher} {mod : Mode} {keyLen b : Nat}
    (hb : getBlockSize evp mod keyLen = b) (h1 : 1 < b) (h256 : b < 256) (rnd : Nat → UInt8)
    (pad : Padding) (src : Bytes) :
    paddingBlock evp rnd mod keyLen pad src = some (src ++ fillerTo rnd b src.length pad) := by
  obtain ⟨hcount, hpos, -⟩ := toNat_count (by omega) h256 src.length
  have hb0 : b ≠ 0 := by omega
  obtain ⟨p, hp⟩ : ∃ p, UInt8.ofNat (b - src.length % b) = p := ⟨_, rfl⟩
  rw [hp] at hcount
  have hne : p ≠ 0 := ne_zero_of_toNat (by omega)
  obtain ⟨k, hk⟩ : ∃ k, b - src.length % b - 1 = k := ⟨_, rfl⟩
  have hsucc : p.toNat = k + 1 := by omega
  cases pad with
  | noPadding => simp [paddingBlock, hb, fillerTo]
  | pkcs5 | pkcs7 =>
    simp [paddingBlock, modulus, hb, hb0, h1, hp, hne, hcount, fillerTo, mapIdx_tail]
  | zero => simp [paddingBlock, modulus, hb, hb0, h1, hp, hne, hcount, fillerTo]
  | iso10126 =>
    have hset := set_append_last src ((List.range' src.length k).map rnd) p
    rw [List.length_map, List.length_range', ← mapIdx_random] at hset
    simp [paddingBlock, modulus, hb, hb0, h1, hp, hne, hsucc, hk, fillerTo, hset]
  | ansix923 =>
    have hset := set_append_last src (List.replicate k 0) p
    rw [List.length_replicate, ← List.replicate_succ'] at hset
    simp only [paddingBlock, modulus, hb, hb0, h1, hp, hne, hsucc, hk, fillerTo, ne_eq, reduceCtorEq,
      not_false_eq_true, true_and, if_true, if_false, Option.bind_eq_bind, Option.bind_some]
    exact congrArg some hset
  | isoIec7816_4 =>
    simp [paddingBlock, modulus, hb, hb0, h1, hp, hne, hsucc, hk, fillerTo, List.replicate_succ]

/-- The filler of the modes with blocks of 16. -/
theorem fillerTo_eq (rnd : Nat → UInt8) (n : Nat) {pad : Padding} (hp : pad ≠ .iso10126) :
    fillerTo rnd 16 n pad = filler n pad := by
  have hsub : 16 - n % 16 - 1 = 15 - n % 16 := by omega
  cases pad with
  | iso10126 => exact absurd rfl hp
  | pkcs5 | pkcs7 | zero | noPadding => rfl
  | ansix923 | isoIec7816_4 => rw [fillerTo, filler, hsub]

theorem paddingBlock_eq {mod : Mode} (hm : mod.Plain) (evp : Evp.Api Cipher) (rnd : Nat → UInt8)
    (keyLen : Nat) {pad : Padding} (hp : pad ≠ .iso10126) (src : Bytes) :
    paddingBlock evp rnd mod keyLen pad src = some (src ++ filler src.length pad) := by
  rw [paddingBlock_fillerTo (hm.blockSize evp keyLen) (by decide) (by decide), fillerTo_eq rnd _ hp]

/-- An authenticated mode is not padded. -/
theorem paddingBlock_gcm {evp : Evp.Api Cipher} {key : Bytes}
    (hb : getBlockSize evp .gcm key.length = 1) (rnd : Nat → UInt8) (pad : Padding)
    (src : Bytes) : paddingBlock evp rnd .gcm key.length pad src = some src := by
  simp [paddingBlock, hb]

/-- The filler of a message is that of what is left after whole
blocks. -/
theorem filler_append {head last : Bytes} (h : 16 ∣ head.length) (pad : Padding) :
    filler (head ++ last).length pad = filler last.length pad := by
  obtain ⟨k, hk⟩ := h
  have hmod : (head ++ last).length % 16 = last.length % 16 := by
    rw [List.length_append, hk]; omega
  cases pad <;> simp only [filler, hmod]

/-- A padded message is whole blocks. -/
theorem dvd_length_filler {pad : Padding} {src : Bytes} (hp : pad ≠ .iso10126)
    (h : pad = .noPadding → 16 ∣ src.length) :
    16 ∣ (src ++ filler src.length pad).length := by
  cases pad with
  | noPadding => simpa [filler] using h rfl
  | iso10126 => exact absurd rfl hp
  | pkcs5 | pkcs7 | zero | ansix923 | isoIec7816_4 => simp [filler]; omega

theorem length_filler_le (n : Nat) (pad : Padding) : (filler n pad).length ≤ 16 - n % 16 := by
  cases pad <;> simp [filler] <;> omega

/-! ## Unpadding -/

/-- The paddings that end in a count. -/
def Padding.Counts : Padding → Prop
  | .pkcs5 | .pkcs7 | .iso10126 | .ansix923 => True
  | _ => False

/-- A count byte from 1 to 16 that is larger than the data before and
with it. -/
def Overruns (pad : Padding) (data : Bytes) : Prop :=
  pad.Counts ∧ ∃ d, data.getLast? = some d ∧ data.length < d.toNat ∧ d.toNat ≤ 16

/-- The paddings that end in a count `p`: if `p` is between 1 and 16 and
the last `p` bytes are `good`, they go. -/
def cutBy (good : UInt8 → Bytes → Bool) (data : Bytes) : Bytes :=
  match data.getLast? with
  | none => data
  | some p =>
      if p ≠ 0 ∧ p.toNat ≤ 16 ∧ good p (data.drop (data.length - p.toNat)) then
        data.take (data.length - p.toNat)
      else data

/-- What `_unpadding_block` keeps, where it does not overrun. -/
def unpad : Padding → Bytes → Bytes
  | .pkcs5 | .pkcs7 => cutBy fun p l => l.all (· == p)
  | .zero => trim
  | .iso10126 => cutBy fun _ _ => true
  | .ansix923 => cutBy fun _ l => l.dropLast.all (· == 0)
  | .isoIec7816_4 => cutMarker
  | .noPadding => id

/-! The same for any block size. -/

/-- A count byte from 1 to `b` that is larger than the data it ends. -/
def Exceeds (b : Nat) (pad : Padding) (data : Bytes) : Prop :=
  pad.Counts ∧ ∃ d, data.getLast? = some d ∧ data.length < d.toNat ∧ d.toNat ≤ b

/-- `cutBy` with a count between 1 and `b`. -/
def cutUpTo (b : Nat) (good : UInt8 → Bytes → Bool) (data : Bytes) : Bytes :=
  match data.getLast? with
  | none => data
  | some p =>
      if p ≠ 0 ∧ p.toNat ≤ b ∧ good p (data.drop (data.length - p.toNat)) then
        data.take (data.length - p.toNat)
      else data

/-- `unpad` with blocks of `b`. -/
def unpadUpTo (b : Nat) : Padding → Bytes → Bytes
  | .pkcs5 | .pkcs7 => cutUpTo b fun p l => l.all (· == p)
  | .zero => trim
  | .iso10126 => cutUpTo b fun _ _ => true
  | .ansix923 => cutUpTo b fun _ l => l.dropLast.all (· == 0)
  | .isoIec7816_4 => cutMarker
  | .noPadding => id

theorem unpadUpTo_eq (pad : Padding) : unpadUpTo 16 pad = unpad pad := by
  cases pad <;> rfl

section Unpadding

variable {data : Bytes} (spare : Bytes) (hlen : data.length < 2 ^ 64) {b : Nat}

include hlen

/-- The byte at `len - 1`. -/
theorem last_byte {d : UInt8} (hd : data.getLast? = some d) :
    data.length ≠ 0 ∧ (data ++ spare)[subSz data.length 1]? = some d := by
  have hne : data ≠ [] := by rintro rfl; cases hd
  have hpos := List.length_pos_of_ne_nil hne
  refine ⟨by omega, ?_⟩
  rw [subSz_eq hpos hlen, List.getElem?_append_left (by omega), ← List.getLast?_eq_getElem?, hd]

/-- The four paddings that end in a count share a shape: `ok` is the check
on the bytes the count covers. -/
def unpadCount (b : Nat) (ok : UInt8 → Nat → Option Bool) (dst : Bytes) (dstLen : Nat) :
    Option Nat :=
  if dstLen = 0 then some dstLen
  else do
    let p ← dst[subSz dstLen 1]?
    if p = 0 ∨ p.toNat > b then some dstLen
    else do
      let valid ← ok p (subSz dstLen p.toNat)
      some (if valid then subSz dstLen p.toNat else dstLen)

/-- A count that fits is a real cut. -/
theorem unpadCount_eq {g : UInt8 → Bytes → Bool} {ok : UInt8 → Nat → Option Bool}
    (hok : ∀ p, data.getLast? = some p → 1 ≤ p.toNat → p.toNat ≤ data.length →
      ok p (data.length - p.toNat) = some (g p (data.drop (data.length - p.toNat))))
    (hfits : ∀ d, data.getLast? = some d → data.length < d.toNat → b < d.toNat) :
    ∃ n, unpadCount b ok (data ++ spare) data.length = some n ∧ n ≤ data.length ∧
      data.take n = cutUpTo b g data := by
  unfold unpadCount
  cases hd : data.getLast? with
  | none =>
    rw [List.getLast?_eq_none_iff] at hd
    exact ⟨0, by simp [hd], by simp, by simp [hd, cutUpTo]⟩
  | some d =>
    obtain ⟨hne, hbyte⟩ := last_byte spare hlen hd
    rw [if_neg hne, hbyte, Option.bind_eq_bind, Option.bind_some]
    by_cases hbad : d = 0 ∨ d.toNat > b
    · refine ⟨data.length, if_pos hbad, Nat.le_refl _, ?_⟩
      rw [cutUpTo, hd, List.take_length]
      refine (if_neg ?_).symm
      rintro ⟨h0, hle, -⟩
      rcases hbad with h | h
      · exact h0 h
      · omega
    · have h0 : d ≠ 0 := fun h => hbad (.inl h)
      have hdb : d.toNat ≤ b := by omega
      have hle : d.toNat ≤ data.length := by
        by_contra hlt
        have := hfits d hd (by omega)
        omega
      have h1 : 1 ≤ d.toNat := Nat.pos_of_ne_zero fun h => h0 (UInt8.toNat_inj.mp h)
      rw [if_neg hbad, subSz_eq hle hlen, hok d hd h1 hle, Option.bind_eq_bind,
        Option.bind_some, cutUpTo, hd]
      simp only [h0, hdb, ne_eq, not_false_eq_true, true_and]
      by_cases hg : g d (data.drop (data.length - d.toNat)) = true
      · exact ⟨_, rfl, by simp [hg], by simp [hg]⟩
      · exact ⟨_, rfl, by simp [hg], by simp [hg]⟩

/-- A count that does not fit wraps. -/
theorem unpadCount_overruns {ok : UInt8 → Nat → Option Bool} {d : UInt8}
    (hd : data.getLast? = some d) (hlt : data.length < d.toNat) (hle : d.toNat ≤ b)
    (hok : ∀ start, data.length ≤ start → ok d start = some true) :
    ∃ n, unpadCount b ok (data ++ spare) data.length = some n ∧ 2 ^ 63 ≤ n := by
  obtain ⟨hne, hbyte⟩ := last_byte spare hlen hd
  have h0 : ¬ (d = 0 ∨ d.toNat > b) := by
    rintro (rfl | h)
    · exact Nat.not_lt_zero _ hlt
    · omega
  have h256 := d.toNat_lt
  have hwrap : 2 ^ 63 ≤ subSz data.length d.toNat := by
    unfold subSz
    omega
  refine ⟨subSz data.length d.toNat, ?_, hwrap⟩
  rw [unpadCount, if_neg hne, hbyte, Option.bind_eq_bind, Option.bind_some, if_neg h0,
    hok _ (by omega), Option.bind_eq_bind, Option.bind_some, if_pos rfl]

omit hlen in
/-- The check loop over the last `k` bytes. -/
theorem scan_last (f : UInt8 → Bool) {k : Nat} (hk : k ≤ data.length) :
    scan (data ++ spare) f (data.length - k) data.length
      = some ((data.drop (data.length - k)).all f) := by
  unfold scan
  split
  · have hread : readN (data ++ spare) (data.length - k) (data.length - (data.length - k))
        = some (data.drop (data.length - k)) :=
      readN_append' (data.take (data.length - k)) spare (by rw [List.take_append_drop])
        (by simp) (by simp)
    rw [hread, Option.map_some]
  · have hk0 : k = 0 := by omega
    subst hk0
    simp

omit hlen in
/-- The check loop that leaves the count itself out. -/
theorem scan_dropLast (f : UInt8 → Bool) {k : Nat} (h1 : 1 ≤ k) (hk : k ≤ data.length) :
    scan (data ++ spare) f (data.length - k) (data.length - 1)
      = some ((data.drop (data.length - k)).dropLast.all f) := by
  have hne : data.drop (data.length - k) ≠ [] := by
    intro h; have := congrArg List.length h; simp at this; omega
  have hsplit : data ++ spare = data.take (data.length - k) ++ (data.drop (data.length - k)).dropLast
      ++ ([(data.drop (data.length - k)).getLast hne] ++ spare) := by
    conv => lhs; rw [← List.take_append_drop (data.length - k) data,
      ← List.dropLast_append_getLast hne]
    simp
  unfold scan
  split
  · rw [readN_append' (data.take (data.length - k)) _ hsplit (by simp) (by simp; omega),
      Option.map_some]
  · have hk1 : k = 1 := by omega
    have hnil : (data.drop (data.length - k)).dropLast = [] :=
      List.length_eq_zero_iff.mp (by simp; omega)
    rw [hnil]
    rfl

omit hlen in
/-- No check loop runs backwards. -/
theorem scan_empty (dst : Bytes) (f : UInt8 → Bool) {start stop : Nat} (h : stop ≤ start) :
    scan dst f start stop = some true :=
  if_neg (by omega)

variable {mod : Mode} (haead : isAeadMode mod = false) (hb : 1 < b)

include haead hb

omit hlen in
/-- The count paddings, with their checks. -/
theorem unpaddingBlock_count (dst : Bytes) (n : Nat) :
    unpaddingBlock dst n mod .pkcs7 b
        = unpadCount b (fun p start => scan dst (· == p) start n) dst n ∧
      unpaddingBlock dst n mod .pkcs5 b
        = unpadCount b (fun p start => scan dst (· == p) start n) dst n ∧
      unpaddingBlock dst n mod .iso10126 b = unpadCount b (fun _ _ => some true) dst n ∧
      unpaddingBlock dst n mod .ansix923 b
        = unpadCount b (fun _ start => scan dst (· == 0) start (subSz n 1)) dst n := by
  refine ⟨?_, ?_, ?_, ?_⟩ <;> simp [unpaddingBlock, unpadCount, haead, hb]

omit hlen in
theorem unpaddingBlock_zero :
    unpaddingBlock (data ++ spare) data.length mod .zero b = some (trim data).length := by
  simp [unpaddingBlock, haead, hb, stripZeros_eq]

omit hlen in
/-- The 7816-4 branch is the one of `hj::des`. -/
theorem unpaddingBlock_marker (dst : Bytes) (n : Nat) :
    unpaddingBlock dst n mod .isoIec7816_4 b = markerLength dst n := by
  simp only [unpaddingBlock, haead, hb, markerLength, Bool.not_false, decide_true, Bool.and_true,
    Bool.true_and]
  rw [if_pos (by decide)]
  split
  · rfl
  · rfl

/-- The count paddings, where the count fits. -/
theorem unpaddingBlock_counts {pad : Padding} (hc : pad.Counts) (hno : ¬ Exceeds b pad data) :
    ∃ n, unpaddingBlock (data ++ spare) data.length mod pad b = some n ∧ n ≤ data.length ∧
      data.take n = unpadUpTo b pad data := by
  have hfits (d : UInt8) (hd : data.getLast? = some d) (hlt : data.length < d.toNat) :
      b < d.toNat := by
    by_contra hle
    exact hno ⟨hc, d, hd, hlt, by omega⟩
  obtain ⟨h7, h5, h10126, h923⟩ := unpaddingBlock_count haead hb (data ++ spare) data.length
  cases pad with
  | pkcs7 =>
    rw [h7]
    exact unpadCount_eq spare hlen (g := fun p l => l.all (· == p))
      (fun p _ _ hk => scan_last spare _ hk) hfits
  | pkcs5 =>
    rw [h5]
    exact unpadCount_eq spare hlen (g := fun p l => l.all (· == p))
      (fun p _ _ hk => scan_last spare _ hk) hfits
  | iso10126 =>
    rw [h10126]
    exact unpadCount_eq spare hlen (g := fun _ _ => true) (fun p _ _ _ => rfl) hfits
  | ansix923 =>
    rw [h923]
    refine unpadCount_eq spare hlen (g := fun _ l => l.dropLast.all (· == 0))
      (fun p hd h1 hk => ?_) hfits
    rw [subSz_eq (by omega) (by omega)]
    exact scan_dropLast spare _ h1 hk
  | zero | isoIec7816_4 | noPadding => exact hc.elim

/-- **Unpadding never lengthens** the data unless their count exceeds
them. -/
theorem unpaddingBlock_le (pad : Padding) (hno : ¬ Exceeds b pad data) :
    ∃ n, unpaddingBlock (data ++ spare) data.length mod pad b = some n ∧ n ≤ data.length := by
  have hcount (hc : pad.Counts) : ∃ n,
      unpaddingBlock (data ++ spare) data.length mod pad b = some n ∧ n ≤ data.length := by
    obtain ⟨n, hn, hle, -⟩ := unpaddingBlock_counts spare hlen haead hb hc hno
    exact ⟨n, hn, hle⟩
  cases pad with
  | pkcs5 | pkcs7 | iso10126 | ansix923 => exact hcount trivial
  | zero => exact ⟨_, unpaddingBlock_zero spare haead hb, length_trim_le data⟩
  | isoIec7816_4 =>
    rw [unpaddingBlock_marker haead hb]
    exact exists_markerLength spare hlen
  | noPadding => exact ⟨data.length, by simp [unpaddingBlock], Nat.le_refl _⟩

omit hlen in
/-- **Unpadding, without overrun.** Below 2^31 bytes, what
`_unpadding_block` keeps is `unpadUpTo` of the data, whatever stands after
it in the buffer. -/
theorem unpaddingBlock_upTo (hlt : data.length < 2 ^ 31) (pad : Padding)
    (hno : ¬ Exceeds b pad data) :
    ∃ n, unpaddingBlock (data ++ spare) data.length mod pad b = some n ∧ n ≤ data.length ∧
      data.take n = unpadUpTo b pad data := by
  have hlen : data.length < 2 ^ 64 := by omega
  cases pad with
  | pkcs5 | pkcs7 | iso10126 | ansix923 =>
    exact unpaddingBlock_counts spare hlen haead hb trivial hno
  | zero =>
    refine ⟨_, unpaddingBlock_zero spare haead hb, length_trim_le data, ?_⟩
    have h := take_trim data []
    rwa [List.append_nil] at h
  | isoIec7816_4 =>
    have hpre := cutMarker_prefix data
    refine ⟨_, ?_, hpre.length_le, (List.prefix_iff_eq_take.mp hpre).symm⟩
    rw [unpaddingBlock_marker haead hb, markerLength_eq data spare hlt]
  | noPadding => exact ⟨data.length, by simp [unpaddingBlock], Nat.le_refl _, by simp [unpadUpTo]⟩

/-- **Unpadding, with overrun**: the length wraps below zero. -/
theorem unpaddingBlock_exceeds {pad : Padding} (h : Exceeds b pad data) :
    ∃ n, unpaddingBlock (data ++ spare) data.length mod pad b = some n ∧ 2 ^ 63 ≤ n := by
  obtain ⟨hc, d, hd, hlt, hle⟩ := h
  have hpos := (last_byte spare hlen hd).1
  obtain ⟨h7, h5, h10126, h923⟩ := unpaddingBlock_count haead hb (data ++ spare) data.length
  cases pad with
  | pkcs7 =>
    rw [h7]
    exact unpadCount_overruns spare hlen hd hlt hle fun _ hs => scan_empty _ _ hs
  | pkcs5 =>
    rw [h5]
    exact unpadCount_overruns spare hlen hd hlt hle fun _ hs => scan_empty _ _ hs
  | iso10126 =>
    rw [h10126]
    exact unpadCount_overruns spare hlen hd hlt hle fun _ _ => rfl
  | ansix923 =>
    rw [h923]
    refine unpadCount_overruns spare hlen hd hlt hle fun _ hs => scan_empty _ _ ?_
    rw [subSz_eq (by omega) hlen]
    omega
  | zero | isoIec7816_4 | noPadding => exact hc.elim

end Unpadding

section Plain

variable {data : Bytes} (spare : Bytes) (hlen : data.length < 2 ^ 31) {mod : Mode} (hm : mod.Plain)

include hlen hm

theorem unpaddingBlock_eq (pad : Padding) (hno : ¬ Overruns pad data) :
    ∃ n, unpaddingBlock (data ++ spare) data.length mod pad 16 = some n ∧ n ≤ data.length ∧
      data.take n = unpad pad data := by
  rw [← unpadUpTo_eq]
  exact unpaddingBlock_upTo spare hm.aead (by decide) hlen pad hno

theorem unpaddingBlock_overruns {pad : Padding} (h : Overruns pad data) :
    ∃ n, unpaddingBlock (data ++ spare) data.length mod pad 16 = some n ∧ 2 ^ 63 ≤ n :=
  unpaddingBlock_exceeds spare (by omega) hm.aead (by decide) h

end Plain

/-! ## Unpadding the last chunk only -/

/-- A message of which a last part of `r` bytes cannot be unpadded by
itself: the zeros or the marker go back further, or the count does. -/
def Straddles (r : Nat) : Padding → Bytes → Prop
  | .zero, p => ∃ m, p = m ++ List.replicate (r + 1) 0
  | .isoIec7816_4, p => ∃ m z, r ≤ z ∧ p = m ++ 0x80 :: List.replicate z 0
  | .noPadding, _ => False
  | _, p => ∃ d, p.getLast? = some d ∧ r < d.toNat ∧ d.toNat ≤ 16

theorem straddles_counts {pad : Padding} (hc : pad.Counts) (r : Nat) (p : Bytes) :
    Straddles r pad p ↔ ∃ d, p.getLast? = some d ∧ r < d.toNat ∧ d.toNat ≤ 16 := by
  cases pad with
  | pkcs5 | pkcs7 | iso10126 | ansix923 => exact Iff.rfl
  | zero | isoIec7816_4 | noPadding => exact hc.elim

/-- The count paddings that do not overrun their part see nothing before
it. -/
theorem cutBy_append (g : UInt8 → Bytes → Bool) (a : Bytes) {l : Bytes} (hl : l ≠ [])
    (hfits : ∀ d, l.getLast? = some d → l.length < d.toNat → 16 < d.toNat) :
    cutBy g (a ++ l) = a ++ cutBy g l := by
  obtain ⟨d, hd⟩ : ∃ d, l.getLast? = some d := ⟨_, List.getLast?_eq_some_getLast hl⟩
  have hd' : (a ++ l).getLast? = some d := by rw [List.getLast?_append, hd]; rfl
  unfold cutBy
  rw [hd, hd']
  dsimp only
  by_cases h16 : d.toNat ≤ 16
  · have hle : d.toNat ≤ l.length := by
      by_contra hlt
      have := hfits d hd (by omega)
      omega
    have hsub : (a ++ l).length - d.toNat = a.length + (l.length - d.toNat) := by
      rw [List.length_append]; omega
    rw [hsub, List.drop_length_add_append, List.take_length_add_append]
    split <;> rfl
  · simp [h16]

/-- **Where unpadding a last part is unpadding the whole.** -/
theorem unpad_append_iff (pad : Padding) {a l : Bytes} (hl : l ≠ [])
    (hno : ¬ Overruns pad l) :
    unpad pad (a ++ l) = a ++ unpad pad l ↔ ¬ Straddles l.length pad (a ++ l) := by
  have hcount (hc : pad.Counts) : (∀ g : UInt8 → Bytes → Bool,
      cutBy g (a ++ l) = a ++ cutBy g l) ∧ ¬ Straddles l.length pad (a ++ l) := by
    constructor
    · intro g
      refine cutBy_append g a hl fun d hd hlt => ?_
      by_contra h16
      exact hno ⟨hc, d, hd, hlt, by omega⟩
    · rw [straddles_counts hc]
      rintro ⟨d, hd, hlt, h16⟩
      rw [List.getLast?_append, List.getLast?_eq_some_getLast hl, Option.some_or] at hd
      exact hno ⟨hc, d, (List.getLast?_eq_some_getLast hl).trans hd, hlt, h16⟩
  cases pad with
  | pkcs5 | pkcs7 | iso10126 | ansix923 =>
    obtain ⟨hcut, hstr⟩ := hcount trivial
    refine iff_of_true ?_ hstr
    simp only [unpad]
    exact hcut _
  | zero => exact trim_append_eq_iff a l
  | isoIec7816_4 => exact cutMarker_append_eq_iff (List.length_pos_of_ne_nil hl)
  | noPadding => exact iff_of_true rfl id

/-- A last part that overruns belongs to a message that straddles. -/
theorem Overruns.straddles {pad : Padding} {l : Bytes} (h : Overruns pad l) (a : Bytes) :
    Straddles l.length pad (a ++ l) := by
  obtain ⟨hc, d, hd, hlt, h16⟩ := h
  rw [straddles_counts hc]
  exact ⟨d, by rw [List.getLast?_append, hd]; rfl, hlt, h16⟩

end HighJump.Crypto.Aes
