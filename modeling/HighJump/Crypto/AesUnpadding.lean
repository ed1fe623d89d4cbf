/-
HighJump.Crypto.AesUnpadding — `_unpadding_block` seen by itself: how far
its 7816-4 scan reaches, and that it undoes `_padding_block`.

The scan starts from `(int)(len - 1)`. Where that is not `len - 1` it
starts below the end of the data, or not at all, and finds the marker only
if it still starts at or above it. `ScanMeets` is that condition, the same
for `hj::aes` and `hj::des` (`unpadding_marked_iff`), and from 2^31 bytes
on it depends on the length modulo 2^32.

Padding is a filler that `unpadUpTo` cuts off again, so below 2^31 bytes
the round trip is `unpaddingBlock_upTo` at a filled message.
-/
import HighJump.Crypto.AesPadding
import Mathlib.Order.Bounds.Defs

namespace HighJump.Crypto.Aes

open HighJump.Lib
open HighJump.Crypto.Des (subSz subSz_eq toInt toInt_cases trim trim_append_ne trim_append_zeros
  length_trim_le cutMarker markerLength markerLength_of_scan clearBlock writeN_isSome)

/-! ## The marker at every length -/

/-- `m` with its marker and `k` zeros. -/
def marked (m : Bytes) (k : Nat) : Bytes := m ++ 0x80 :: List.replicate k 0

@[simp] theorem length_marked (m : Bytes) (k : Nat) : (marked m k).length = m.length + k + 1 := by
  simp only [marked, List.length_append, List.length_cons, List.length_replicate]
  omega

theorem trim_marked (m : Bytes) (k : Nat) : trim (marked m k) = m ++ [0x80] := by
  rw [marked, ← List.singleton_append, ← List.append_assoc, trim_append_zeros]
  exact trim_append_ne m (by decide)

/-- The scan of a message of `n` bytes with marker and `k` zeros starts at
its marker or above: `n + k` is the index of the last byte. -/
def ScanMeets (n k : Nat) : Prop := (n + k) % 2 ^ 32 < 2 ^ 31 ∧ n ≤ (n + k) % 2 ^ 32

instance (n k : Nat) : Decidable (ScanMeets n k) := inferInstanceAs (Decidable (_ ∧ _))

section Marker

variable (m spare : Bytes) (k : Nat)

/-- The first bytes of a marked message, down to the marker. -/
theorem take_marked {r : Nat} (hle : m.length ≤ r) (hr : r ≤ m.length + k) :
    (marked m k ++ spare).take (r + 1) = marked m (r - m.length) := by
  have hsplit : r + 1 = m.length + (r - m.length + 1) := by omega
  rw [List.take_append_of_le_length (by rw [length_marked]; omega), hsplit, marked,
    List.take_length_add_append, List.take_succ_cons, List.take_replicate,
    Nat.min_eq_left (by omega)]
  rfl

/-- Below the marker there is message only. -/
theorem take_unmarked {r : Nat} (hlt : r < m.length) :
    (marked m k ++ spare).take (r + 1) = m.take (r + 1) := by
  rw [marked, List.append_assoc, List.take_append_of_le_length (by omega)]

variable (hlen : (marked m k).length < 2 ^ 64)

include hlen

/-- **Where the marker is found.** -/
theorem markerLength_marked_iff :
    markerLength (marked m k ++ spare) (marked m k).length = some m.length ↔
      ScanMeets m.length k := by
  rw [length_marked] at hlen ⊢
  have hsub : subSz (m.length + k + 1) 1 = m.length + k := subSz_eq (by omega) hlen
  rcases toInt_cases (m.length + k) with ⟨hlt, heq⟩ | ⟨hge, hneg⟩
  · obtain ⟨r, hr⟩ : ∃ r, (m.length + k) % 2 ^ 32 = r := ⟨_, rfl⟩
    have hrle : r ≤ m.length + k := hr ▸ Nat.mod_le _ _
    have hdata : ((marked m k ++ spare).take (r + 1)).length = r + 1 := by
      rw [List.length_take, List.length_append, length_marked]
      omega
    have hint : toInt (subSz (m.length + k + 1) 1)
        = (((marked m k ++ spare).take (r + 1)).length : Int) - 1 := by
      rw [hsub, heq, hr, hdata]
      omega
    rw [markerLength_of_scan hint (by omega) (List.take_append_drop _ _).symm, Option.some.injEq]
    unfold ScanMeets
    rw [hr]
    by_cases hle : m.length ≤ r
    · rw [take_marked m spare k hle hrle, trim_marked]
      refine iff_of_true ?_ ⟨by omega, hle⟩
      simp
    · -- the scan ends inside the message, or finds nothing
      rw [take_unmarked m spare k (by omega)]
      have htrim := length_trim_le (m.take (r + 1))
      rw [List.length_take] at htrim
      refine iff_of_false ?_ fun h => hle h.2
      split <;> omega
  · have hnone : markerLength (marked m k ++ spare) (m.length + k + 1)
        = some (m.length + k + 1) := by
      rw [markerLength, hsub, if_pos hneg]
      rfl
    rw [hnone, Option.some.injEq]
    exact iff_of_false (by omega) fun h => absurd h.1 (by omega)

/-- The length `hj::des` leaves; it also clears the rest of its first
block, which must be there. -/
theorem des_unpaddingBlock_marked_iff :
    (∃ buf, Des.unpaddingBlock (marked m k ++ spare) (marked m k).length .isoIec7816_4
        = some (buf, m.length)) ↔
      ScanMeets m.length k ∧ 8 ≤ (marked m k ++ spare).length := by
  rw [← markerLength_marked_iff m spare k hlen, Des.unpaddingBlock_marker]
  constructor
  · rintro ⟨buf, h⟩
    obtain ⟨n, hn, h⟩ := Option.bind_eq_some_iff.mp h
    obtain ⟨buf', hclear, h⟩ := Option.bind_eq_some_iff.mp h
    obtain ⟨rfl, rfl⟩ := Prod.mk.inj (Option.some.inj h)
    refine ⟨hn, ?_⟩
    by_cases h8 : m.length < 8
    · rw [clearBlock, if_pos h8, writeN] at hclear
      by_contra hshort
      rw [if_neg (by rw [List.length_replicate]; omega)] at hclear
      cases hclear
    · rw [List.length_append, length_marked]
      omega
  · rintro ⟨hn, h8⟩
    obtain ⟨buf, hclear, -, -⟩ := Des.clearBlock_take (marked m k ++ spare) m.length h8
    exact ⟨buf, by rw [hn, Option.bind_some, hclear]; rfl⟩

/-- **7816-4 unpadding at every length**: both classes leave the message
exactly when the scan meets the marker. -/
theorem unpadding_marked_iff {mod : Mode} (haead : isAeadMode mod = false) {b : Nat}
    (hb : b = 8 ∨ b = 16) :
    (unpaddingBlock (marked m k ++ spare) (marked m k).length mod .isoIec7816_4 b = some m.length ↔
      ScanMeets m.length k) ∧
    ((∃ buf, Des.unpaddingBlock (marked m k ++ spare) (marked m k).length .isoIec7816_4
        = some (buf, m.length)) ↔
      ScanMeets m.length k ∧ 8 ≤ (marked m k ++ spare).length) := by
  refine ⟨?_, des_unpaddingBlock_marked_iff m spare k hlen⟩
  rw [unpaddingBlock_marker haead (by omega)]
  exact markerLength_marked_iff m spare k hlen

end Marker

/-- A message that ends in a marker and a zero of its own. -/
theorem unpadding_marked_iff_three :
    isAeadMode .ecb = false ∧ (marked [7, 0x80, 0] 4).length < 2 ^ 64 ∧
    unpaddingBlock (marked [7, 0x80, 0] 4 ++ []) (marked [7, 0x80, 0] 4).length .ecb
      .isoIec7816_4 16 = some 3 ∧
    ∃ buf, Des.unpaddingBlock (marked [7, 0x80, 0] 4 ++ []) (marked [7, 0x80, 0] 4).length
      .isoIec7816_4 = some (buf, 3) := by
  have hlen : (marked [7, 0x80, 0] 4).length < 2 ^ 64 := by decide
  have hmod : isAeadMode .ecb = false := rfl
  obtain ⟨haes, hdes⟩ := unpadding_marked_iff [7, 0x80, 0] [] 4 hlen hmod (.inr rfl)
  exact ⟨hmod, hlen, haes.mpr (by decide), hdes.mpr (by decide)⟩

/-- The marker at the start of 2^31 + 1 bytes: the index of the last one
is negative as an `int`, and nothing is cut off. -/
theorem unpadding_keeps_marker :
    ¬ unpaddingBlock (marked [] (2 ^ 31) ++ []) (marked [] (2 ^ 31)).length .ecb .isoIec7816_4 16
        = some 0 ∧
      ¬ ∃ buf, Des.unpaddingBlock (marked [] (2 ^ 31) ++ []) (marked [] (2 ^ 31)).length
        .isoIec7816_4 = some (buf, 0) := by
  have hlen : (marked [] (2 ^ 31)).length < 2 ^ 64 := by rw [length_marked]; decide
  have hno : ¬ ScanMeets 0 (2 ^ 31) := by decide
  refine ⟨?_, ?_⟩
  · rw [unpaddingBlock_marker rfl (by decide)]
    exact fun h => hno ((markerLength_marked_iff [] [] (2 ^ 31) hlen).mp h)
  · exact fun h => hno ((des_unpaddingBlock_marked_iff [] [] (2 ^ 31) hlen).mp h).1

/-! ## Padding and back -/

/-- What unpadding makes of a padded message: under zero padding its own
trailing zeros go too. -/
def recovered (pad : Padding) (m : Bytes) : Bytes := if pad = .zero then trim m else m

section Filler

variable {b : Nat} (hb : 1 < b) (h256 : b < 256)

/-- A filler that names its own length is cut off. -/
theorem cutUpTo_filler {good : UInt8 → Bytes → Bool} (m : Bytes) {fill : Bytes} {p : UInt8}
    (h0 : p ≠ 0) (hle : p.toNat ≤ b) (hlast : fill.getLast? = some p)
    (hlen : fill.length = p.toNat) (hgood : good p fill = true) :
    cutUpTo b good (m ++ fill) = m := by
  have hsub : (m ++ fill).length - p.toNat = m.length := by rw [List.length_append]; omega
  unfold cutUpTo
  rw [List.getLast?_append, hlast, Option.some_or]
  dsimp only
  rw [hsub, List.drop_left, List.take_left, if_pos ⟨h0, hle, hgood⟩]

variable (rnd : Nat → UInt8) {pad : Padding} (hp : pad ≠ .noPadding)

include hb hp in
theorem length_fillerTo (n : Nat) : (fillerTo rnd b n pad).length = b - n % b := by
  have hlt : n % b < b := Nat.mod_lt n (by omega)
  cases pad with
  | pkcs5 | pkcs7 | zero => simp [fillerTo]
  | iso10126 | ansix923 | isoIec7816_4 => simp [fillerTo]; omega
  | noPadding => exact absurd rfl hp

include hb h256

/-- The count paddings end in a byte that names the length of the
filler. -/
theorem getLast?_fillerTo (hc : pad.Counts) (n : Nat) :
    (fillerTo rnd b n pad).getLast? = some (UInt8.ofNat (b - n % b)) := by
  obtain ⟨-, hpos, -⟩ := toNat_count (by omega) h256 n
  cases pad with
  | pkcs5 | pkcs7 => rw [fillerTo, List.getLast?_replicate, if_neg (by omega)]
  | iso10126 | ansix923 => simp [fillerTo]
  | zero | isoIec7816_4 | noPadding => exact hc.elim

include hp

/-- **Unpadding undoes padding**, whatever the filler. -/
theorem unpadUpTo_fillerTo (m : Bytes) :
    unpadUpTo b pad (m ++ fillerTo rnd b m.length pad) = recovered pad m := by
  obtain ⟨hcount, hpos, hle⟩ := toNat_count (by omega) h256 m.length
  rw [← hcount] at hpos hle
  have hcut {good : UInt8 → Bytes → Bool} (hc : pad.Counts)
      (hgood : good (UInt8.ofNat (b - m.length % b)) (fillerTo rnd b m.length pad) = true) :
      cutUpTo b good (m ++ fillerTo rnd b m.length pad) = m :=
    cutUpTo_filler m (ne_zero_of_toNat hpos) hle (getLast?_fillerTo hb h256 rnd hc m.length)
      (by rw [length_fillerTo hb rnd hp, hcount]) hgood
  cases pad with
  | pkcs5 | pkcs7 =>
    rw [unpadUpTo, recovered, if_neg (by decide)]
    exact hcut trivial (by simp [fillerTo])
  | iso10126 =>
    rw [unpadUpTo, recovered, if_neg (by decide)]
    exact hcut trivial rfl
  | ansix923 =>
    rw [unpadUpTo, recovered, if_neg (by decide)]
    exact hcut trivial (by simp [fillerTo])
  | isoIec7816_4 =>
    have htrim := trim_marked m (b - m.length % b - 1)
    rw [marked] at htrim
    simp [unpadUpTo, cutMarker, fillerTo, htrim, recovered]
  | zero => simp [unpadUpTo, fillerTo, trim_append_zeros, recovered]
  | noPadding => exact absurd rfl hp

/-- A filler never names more than there is. -/
theorem not_exceeds_fillerTo (m : Bytes) :
    ¬ Exceeds b pad (m ++ fillerTo rnd b m.length pad) := by
  rintro ⟨hc, d, hd, hlt, -⟩
  rw [List.getLast?_append, getLast?_fillerTo hb h256 rnd hc, Option.some_or] at hd
  rw [← Option.some.inj hd, (toNat_count (by omega) h256 m.length).1, List.length_append,
    length_fillerTo hb rnd hp] at hlt
  omega

end Filler

/-- Filling up to the next block gives the least multiple beyond `n`. -/
theorem isLeast_fill {b : Nat} (hb : 0 < b) (n : Nat) :
    IsLeast { k | b ∣ k ∧ n < k } (n + (b - n % b)) := by
  have hlt := Nat.mod_lt n hb
  have hdm := Nat.div_add_mod n b
  have hfill : n + (b - n % b) = b * (n / b + 1) := by rw [Nat.mul_succ]; omega
  refine ⟨⟨⟨n / b + 1, hfill⟩, by omega⟩, ?_⟩
  rintro _ ⟨⟨q, rfl⟩, hq⟩
  rw [hfill]
  exact Nat.mul_le_mul_left b (Nat.div_lt_of_lt_mul hq)

/-- **The padding round trip**: a message is padded to the least multiple
of the block size beyond it, comes back from unpadding (without its
trailing zeros under zero padding), and under the other paddings no other
message is padded to the same bytes. -/
theorem padding_roundTrip {evp : Evp.Api Cipher} {mod : Mode} {keyLen b : Nat}
    (hsize : getBlockSize evp mod keyLen = b) (hb : b = 8 ∨ b = 16)
    (haead : isAeadMode mod = false) {pad : Padding} (hp : pad ≠ .noPadding) (rnd : Nat → UInt8)
    {m : Bytes} (hlen : m.length < 2 ^ 31 - 16) (spare : Bytes) :
    ∃ padded, paddingBlock evp rnd mod keyLen pad m = some padded ∧
      IsLeast { k | b ∣ k ∧ m.length < k } padded.length ∧
      (∃ n, unpaddingBlock (padded ++ spare) padded.length mod pad b = some n ∧
        n ≤ padded.length ∧ padded.take n = if pad = .zero then trim m else m) ∧
      (pad ≠ .zero → ∀ rnd' m', paddingBlock evp rnd' mod keyLen pad m' = some padded →
        m' = m) := by
  have h1 : 1 < b := by omega
  have h256 : b < 256 := by omega
  have hfill := length_fillerTo h1 rnd hp m.length
  have hlt : (m ++ fillerTo rnd b m.length pad).length < 2 ^ 31 := by
    rw [List.length_append, hfill]
    omega
  refine ⟨_, paddingBlock_fillerTo hsize h1 h256 rnd pad m, ?_, ?_, ?_⟩
  · rw [List.length_append, hfill]
    exact isLeast_fill (by omega) m.length
  · obtain ⟨n, hn, hle, htake⟩ := unpaddingBlock_upTo spare haead h1 hlt pad
      (not_exceeds_fillerTo h1 h256 rnd hp m)
    exact ⟨n, hn, hle, by rw [htake, unpadUpTo_fillerTo h1 h256 rnd hp, recovered]⟩
  · intro hz rnd' m' h
    rw [paddingBlock_fillerTo hsize h1 h256, Option.some.injEq] at h
    have hcut := congrArg (unpadUpTo b pad) h
    rwa [unpadUpTo_fillerTo h1 h256 rnd' hp, unpadUpTo_fillerTo h1 h256 rnd hp, recovered,
      recovered, if_neg hz, if_neg hz] at hcut

/-- A session with a cipher of 8-byte blocks, as key wrap has them. -/
def wrapEvp : Evp.Api Cipher :=
  Evp.reference fun c => Evp.ofBlocks 8 c.keyLen 0 (fun _ x => x) (fun _ x => x)

theorem padding_roundTrip_wrap :
    getBlockSize wrapEvp .wrap 16 = 8 ∧ ([1, 2, 0] : Bytes).length < 2 ^ 31 - 16 ∧
    ∃ padded, paddingBlock wrapEvp (fun i => UInt8.ofNat i) .wrap 16 .iso10126 [1, 2, 0]
        = some padded ∧
      ∃ n, unpaddingBlock (padded ++ []) padded.length .wrap .iso10126 8 = some n ∧
        padded.take n = [1, 2, 0] := by
  have hsize : getBlockSize wrapEvp .wrap 16 = 8 := rfl
  have hlen : ([1, 2, 0] : Bytes).length < 2 ^ 31 - 16 := by decide
  obtain ⟨padded, hpad, -, ⟨n, hn, -, htake⟩, -⟩ := padding_roundTrip hsize (.inl rfl) rfl
    (show Padding.iso10126 ≠ .noPadding by decide) (fun i => UInt8.ofNat i) hlen []
  exact ⟨hsize, hlen, padded, hpad, n, hn, htake⟩

end HighJump.Crypto.Aes
