/-
HighJump.Crypto.DesBounds — which bytes the buffer overloads of `hj::des`
touch, at every source length.

`cfb`, `ofb` and `ctr` decrypt any number of bytes, so that
`_unpadding_block` may be given less than a block; the count it reads is
compared with the block size and not with that length, and `len - pad`
then wraps (`Wraps`). `ecb` and `cbc` copy eight bytes of the source at a
time whether they are there or not. Everywhere else the accesses stay in
the caller's buffers, which is what a result other than `none` says of a
destination of exactly the reserved size.
-/
import HighJump.Crypto.DesTheorems

namespace HighJump.Crypto.Des

open HighJump.Lib HighJump.Lib.BlockModes

/-! ## Unpadding at every length -/

/-- The paddings that end in a count. -/
def Padding.counts : Padding → Bool
  | .pkcs5 | .pkcs7 | .iso10126 | .ansix923 => true
  | _ => false

/-- The count at the end of the data is accepted, and is more than there
is data. -/
def Wraps (pad : Padding) (data : Bytes) : Prop :=
  pad.counts = true ∧ ∃ p, data.getLast? = some p ∧ data.length < p.toNat ∧ p.toNat ≤ 8

theorem exists_allAt (buf : Bytes) (f : UInt8 → Bool) : ∀ n i, i + n ≤ buf.length →
    ∃ b, allAt buf f i n = some b
  | 0, _, _ => ⟨true, rfl⟩
  | n + 1, i, h => by
      obtain ⟨b, hb⟩ := exists_allAt buf f n (i + 1) (by omega)
      have hget : buf[i]? = some buf[i] := List.getElem?_eq_getElem (by omega)
      cases hf : f buf[i] with
      | true => exact ⟨b, by simp [allAt, hget, hf, hb]⟩
      | false => exact ⟨false, by simp [allAt, hget, hf]⟩

theorem exists_clearBlock {buf : Bytes} (h : 8 ≤ buf.length) (len : Nat) :
    ∃ buf', clearBlock buf len = some buf' := by
  obtain ⟨buf', hc, -⟩ := clearBlock_take buf len h
  exact ⟨buf', hc⟩

section Unpadding

variable {data : Bytes} (spare : Bytes) (hlen : data.length < 2 ^ 64)

include hlen

theorem getElem?_last {p : UInt8} (hp : data.getLast? = some p) :
    data.length ≠ 0 ∧ (data ++ spare)[subSz data.length 1]? = some p := by
  have hne : data.length ≠ 0 := by
    intro h0
    rw [List.length_eq_zero_iff.mp h0] at hp
    cases hp
  refine ⟨hne, ?_⟩
  rw [subSz_eq (by omega) hlen, List.getElem?_append_left (by omega), ← hp,
    List.getLast?_eq_getElem?]

omit hlen in
theorem count_range {p : UInt8} (h : ¬ (p = 0 ∨ p > 8)) : 1 ≤ p.toNat ∧ p.toNat ≤ 8 := by
  have h0 : p.toNat ≠ 0 := fun h0 => h (.inl (UInt8.toNat_inj.mp h0))
  have h8 : p.toNat ≤ 8 := UInt8.le_iff_toNat_le.mp (UInt8.not_lt.mp fun h8 => h (.inr h8))
  omega

omit hlen in
theorem count_accepted {p : UInt8} (h1 : 1 ≤ p.toNat) (h8 : p.toNat ≤ 8) : ¬ (p = 0 ∨ p > 8) := by
  rintro (rfl | h)
  · exact absurd h1 (by decide)
  · exact absurd (UInt8.lt_iff_toNat_lt.mp h) (Nat.not_lt.mpr h8)

/-- A count that does not wrap leads to a cut inside the data. -/
theorem count_within {pad : Padding} (hcounts : pad.counts = true) (h : ¬ Wraps pad data)
    {p : UInt8} (hp : data.getLast? = some p) (hrange : ¬ (p = 0 ∨ p > 8)) :
    p.toNat ≤ data.length ∧ subSz data.length p.toNat = data.length - p.toNat := by
  have hle : p.toNat ≤ data.length :=
    Nat.not_lt.mp fun hlt => h ⟨hcounts, p, hp, hlt, (count_range hrange).2⟩
  exact ⟨hle, subSz_eq hle hlen⟩

/-- What a call of `_unpadding_block` that stays in bounds and does not
lengthen the data comes to. -/
def Within (r : Option (Bytes × Nat)) (n : Nat) : Prop := ∃ buf len, r = some (buf, len) ∧ len ≤ n

/-- Where the count is read, what is left is the case of one in range. -/
theorem within_counts {pad : Padding} (hcounts : pad.counts = true) (h : ¬ Wraps pad data)
    (hread : ∀ p : UInt8, data.length ≠ 0 → (data ++ spare)[subSz data.length 1]? = some p →
      ¬ (p = 0 ∨ p > 8) → p.toNat ≤ data.length →
      subSz data.length p.toNat = data.length - p.toNat →
      Within (unpaddingBlock (data ++ spare) data.length pad) data.length) :
    Within (unpaddingBlock (data ++ spare) data.length pad) data.length := by
  cases hp : data.getLast? with
  | none =>
    rw [List.getLast?_eq_none_iff.mp hp]
    refine ⟨spare, 0, ?_, Nat.le_refl 0⟩
    cases pad <;> first | rfl | cases hcounts
  | some p =>
    obtain ⟨hne, hget⟩ := getElem?_last spare hlen hp
    by_cases hrange : p = 0 ∨ p > 8
    · refine ⟨data ++ spare, data.length, ?_, Nat.le_refl _⟩
      cases pad <;> first | (cases hcounts; done) | simp [unpaddingBlock, hne, hget, hrange]
    · obtain ⟨hle, hsub⟩ := count_within hlen hcounts h hp hrange
      exact hread p hne hget hrange hle hsub

theorem within_pkcs (h : ¬ Wraps .pkcs7 data) :
    Within (unpaddingBlock (data ++ spare) data.length .pkcs7) data.length := by
  refine within_counts spare hlen rfl h fun p hne hget hrange hle hsub => ?_
  obtain ⟨same, hsame⟩ := exists_allAt (data ++ spare) (· = p)
    (data.length - (data.length - p.toNat)) (data.length - p.toNat) (by simp)
  obtain ⟨buf, hw⟩ := writeN_isSome (data ++ spare) (List.replicate p.toNat 0)
    (data.length - p.toNat) (by simp; omega)
  simp only [unpaddingBlock, hne, hget, hrange, hsub, hsame, hw, if_false, Option.bind_eq_bind,
    Option.bind_some]
  cases same with
  | true => exact ⟨_, _, rfl, Nat.sub_le _ _⟩
  | false => exact ⟨_, _, rfl, Nat.le_refl _⟩

theorem within_iso10126 (h : ¬ Wraps .iso10126 data) :
    Within (unpaddingBlock (data ++ spare) data.length .iso10126) data.length := by
  refine within_counts spare hlen rfl h fun p hne hget hrange hle hsub => ?_
  obtain ⟨buf, hw⟩ := writeN_isSome (data ++ spare) (List.replicate p.toNat 0)
    (data.length - p.toNat) (by simp; omega)
  exact ⟨buf, data.length - p.toNat, by simp [unpaddingBlock, hne, hget, hrange, hsub, hw],
    Nat.sub_le _ _⟩

theorem within_ansix923 (h : ¬ Wraps .ansix923 data) :
    Within (unpaddingBlock (data ++ spare) data.length .ansix923) data.length := by
  refine within_counts spare hlen rfl h fun p hne hget hrange hle hsub => ?_
  have hsub1 : subSz data.length 1 = data.length - 1 := subSz_eq (by omega) hlen
  rw [hsub1] at hget
  obtain ⟨zeros, hzeros⟩ := exists_allAt (data ++ spare) (· = 0)
    (data.length - 1 - (data.length - p.toNat)) (data.length - p.toNat) (by simp; omega)
  simp only [unpaddingBlock, hne, hsub1, hget, hrange, hsub, hzeros, if_false,
    Option.bind_eq_bind, Option.bind_some]
  cases zeros with
  | true => exact ⟨_, _, rfl, Nat.sub_le _ _⟩
  | false => exact ⟨_, _, rfl, Nat.le_refl _⟩

theorem within_marker (hcap : 8 ≤ (data ++ spare).length) :
    Within (unpaddingBlock (data ++ spare) data.length .isoIec7816_4) data.length := by
  obtain ⟨len, hcut, hle⟩ := exists_markerLength spare hlen
  obtain ⟨buf, hc⟩ := exists_clearBlock hcap len
  refine ⟨buf, len, ?_, hle⟩
  rw [unpaddingBlock_marker, hcut, Option.bind_some, hc, Option.bind_some]

/-- **Unpadding in bounds.** Unless the count wraps, `_unpadding_block`
stays in a buffer of at least a block and never lengthens the data. -/
theorem unpaddingBlock_within {pad : Padding} (hcap : 8 ≤ (data ++ spare).length)
    (h : ¬ Wraps pad data) :
    Within (unpaddingBlock (data ++ spare) data.length pad) data.length := by
  cases pad with
  | pkcs5 => exact within_pkcs spare hlen h
  | pkcs7 => exact within_pkcs spare hlen h
  | zero =>
    obtain ⟨k, hk, hle⟩ := exists_stripZeros (data ++ spare) data.length (by simp)
    obtain ⟨buf, hc⟩ := exists_clearBlock hcap k
    exact ⟨buf, k, by simp [unpaddingBlock, hk, hc], hle⟩
  | iso10126 => exact within_iso10126 spare hlen h
  | ansix923 => exact within_ansix923 spare hlen h
  | isoIec7816_4 => exact within_marker spare hlen hcap
  | noPadding => exact ⟨_, _, rfl, Nat.le_refl _⟩

omit hlen in
/-- `len - pad` where it wraps: far past every buffer, and past `len`. -/
theorem subSz_wraps {n p : Nat} (hlt : n < p) (h8 : p ≤ 8) :
    subSz n p + p = 2 ^ 64 + n ∧ n - subSz n p = 0 := by
  unfold subSz
  omega

omit hlen in
theorem writeN_past {m xs : Bytes} {i : Nat} (h : m.length < i + xs.length) :
    writeN m i xs = none := if_neg (by omega)

/-- **Where the count wraps**, the check finds nothing to compare and
passes. The bytes cleared then lie before the buffer, except under
`ansix923`, which clears none and only reports the wrapped length. -/
theorem unpaddingBlock_wraps {pad : Padding} (h : Wraps pad data)
    (hcap : (data ++ spare).length < 2 ^ 64) :
    (pad ≠ .ansix923 → unpaddingBlock (data ++ spare) data.length pad = none) ∧
    (pad = .ansix923 → ∃ len, unpaddingBlock (data ++ spare) data.length pad =
      some (data ++ spare, len) ∧ data.length < len) := by
  obtain ⟨hcounts, p, hp, hlt, h8⟩ := h
  obtain ⟨hne, hget⟩ := getElem?_last spare hlen hp
  have hrange := count_accepted (by omega : 1 ≤ p.toNat) h8
  obtain ⟨hstart, hnone⟩ := subSz_wraps hlt h8
  have hwrite : writeN (data ++ spare) (subSz data.length p.toNat) (List.replicate p.toNat 0) =
      none := writeN_past (by rw [List.length_replicate]; omega)
  cases pad with
  | pkcs5 | pkcs7 =>
    refine ⟨fun _ => ?_, fun h => by cases h⟩
    simp only [unpaddingBlock, hne, hget, hrange, hnone, hwrite, if_false, allAt,
      Option.bind_eq_bind, Option.bind_some, if_true, Option.bind_none]
  | iso10126 =>
    refine ⟨fun _ => ?_, fun h => by cases h⟩
    simp only [unpaddingBlock, hne, hget, hrange, hwrite, if_false, Option.bind_eq_bind,
      Option.bind_some, Option.bind_none]
  | ansix923 =>
    refine ⟨fun h => absurd rfl h, fun _ => ⟨subSz data.length p.toNat, ?_, by omega⟩⟩
    have hzeros : subSz data.length 1 - subSz data.length p.toNat = 0 := by
      rw [subSz_eq (by omega) hlen]
      omega
    simp only [unpaddingBlock, hne, hget, hrange, hzeros, if_false, allAt, Option.bind_eq_bind,
      Option.bind_some, if_true]
  | zero | isoIec7816_4 | noPadding => cases hcounts

theorem not_within_of_wraps {pad : Padding} (h : Wraps pad data)
    (hcap : (data ++ spare).length < 2 ^ 64) :
    ¬ Within (unpaddingBlock (data ++ spare) data.length pad) data.length := by
  rintro ⟨buf, len, hun, hle⟩
  obtain ⟨hnone, hlong⟩ := unpaddingBlock_wraps spare hlen h hcap
  by_cases hansi : pad = .ansix923
  · obtain ⟨len', hun', hgt⟩ := hlong hansi
    rw [hun] at hun'
    obtain ⟨-, rfl⟩ := Prod.mk.inj (Option.some.inj hun')
    omega
  · rw [hnone hansi] at hun
    cases hun

end Unpadding

/-! ## Decrypting every length -/

section Modes

variable {api : DesApi} (ks : List api.KeySchedule)

variable (api) in
/-- The `switch` of `decrypt`: the destination and `dst_len` before
unpadding. -/
def decryptMode (dst src : Bytes) (mod : Mode) (iv : Option Bytes) : Option (Bytes × Nat) :=
  match mod, iv with
  | .ecb, _ => decryptEcb api ks dst src
  | _, none => none
  | .cbc, some iv => decryptCbc api ks dst src iv
  | .cfb, some iv => decryptCfb api ks dst src iv
  | .ofb, some iv => decryptOfb api ks dst src iv
  | .ctr, some iv => decryptCtr api ks dst src iv

/-- `decrypt` is the switch and the unpadding of what it left. -/
theorem decrypt_eq_decryptMode (dst src : Bytes) (n : Nat) {key : Bytes} {mod : Mode}
    (pad : Padding) {iv : Option Bytes} (hkey : isKeyValid (some key) = true)
    (hks : multipleKey api key = some ks) (hiv : isIvValid mod iv = true) :
    decrypt api (some dst) n src (some key) mod pad iv =
      (decryptMode api ks dst src mod iv).bind fun d =>
        (unpaddingBlock d.1 d.2 pad).map fun p => ⟨.ok, p.1, p.2⟩ := by
  simp only [decrypt, hkey, hiv, Bool.not_true, Bool.false_eq_true, if_false, Option.bind_some,
    hks, Option.bind_eq_bind, Option.map_eq_bind]
  cases mod <;> cases iv <;> rfl

/-- The modes that decrypt byte by byte. -/
def Mode.feeds : Mode → Bool
  | .cfb | .ofb | .ctr => true
  | .ecb | .cbc => false

/-- A block loop that was left took whole blocks only. -/
theorem dvd_of_loop {σ : Type} {src : Bytes} {body : σ → Option σ} (idx : σ → Nat)
    (hbody : ∀ s s', body s = some s' → ∃ b, readBlock src (idx s) = some b ∧ idx s' = idx s + 8)
    {fuel : Nat} {s s' : σ} (h0 : idx s = 0)
    (h : loop (fun s => decide (idx s < src.length)) body fuel s = some s') : 8 ∣ src.length := by
  obtain ⟨⟨hdvd, hle⟩, hstop⟩ := loop_sound (fun s => 8 ∣ idx s ∧ idx s ≤ src.length)
    (fun s s' hI _ hs => by
      obtain ⟨b, hread, hidx⟩ := hbody s s' hs
      have hfit : idx s + 8 ≤ src.length := by
        unfold readBlock at hread
        split at hread
        · assumption
        · cases hread
      rw [hidx]
      exact ⟨Nat.dvd_add hI.1 (Nat.dvd_refl 8), hfit⟩)
    fuel s s' ⟨h0 ▸ Nat.dvd_zero 8, by omega⟩ h
  have hend : ¬ idx s' < src.length := of_decide_eq_false hstop
  rwa [show src.length = idx s' by omega]

theorem decryptEcb_ragged (dst : Bytes) {src : Bytes} (h : ¬ 8 ∣ src.length) :
    decryptEcb api ks dst src = none := by
  rw [decryptEcb, Option.bind_eq_bind]
  refine Option.bind_eq_none_iff.mpr fun s hs => absurd (dvd_of_loop Prod.fst ?_ rfl hs) h
  intro s s' hs
  simp only [ecbDecBody, Option.bind_eq_bind, Option.bind_eq_some_iff] at hs
  obtain ⟨b, hb, d, -, hs⟩ := hs
  exact ⟨b, hb, by rw [← Option.some.inj hs]⟩

theorem decryptCbc_ragged (dst : Bytes) {src : Bytes} (v : Block) (h : ¬ 8 ∣ src.length) :
    decryptCbc api ks dst src v.val = none := by
  rw [decryptCbc, readBlock_val, Option.bind_eq_bind, Option.bind_some]
  refine Option.bind_eq_none_iff.mpr fun s hs => absurd (dvd_of_loop Cursor.idx ?_ rfl hs) h
  intro s s' hs
  simp only [cbcDecBody, Option.bind_eq_bind, Option.bind_eq_some_iff] at hs
  obtain ⟨b, hb, d, -, hs⟩ := hs
  exact ⟨b, hb, by rw [← Option.some.inj hs]⟩

/-- What the switch makes of a source: as many bytes as the source has,
and for a source shorter than a block the source under the keystream. -/
structure Decrypts (dst src : Bytes) (mod : Mode) (iv : Option Bytes) (data : Bytes) : Prop where
  length : data.length = src.length
  eq : decryptMode api ks dst src mod iv = some (data ++ dst.drop src.length, src.length)
  whole : mod.feeds = false → 8 ∣ src.length
  short : mod.feeds = true → src.length < 8 → ∃ v : Block, iv = some v.val ∧
    data = List.zipWith (· ^^^ ·) src (edeEncrypt api ks v).val

variable {dst src : Bytes}

theorem decrypts_whole {mod : Mode} (hmod : mod.feeds = false) {iv : Option Bytes}
    (step : Block → Block → Block × Block) (v : Block) {cs : List Block} (hsrc : src = bytes cs)
    (h : decryptMode api ks dst src mod iv = some (decResult step v dst cs)) :
    Decrypts ks dst src mod iv (bytes (run step v cs)) where
  length := by rw [hsrc, length_bytes, length_bytes, length_run]
  eq := by rw [h, decResult, wrote, length_run, hsrc, length_bytes]
  whole _ := by rw [hsrc, length_bytes]; exact Nat.dvd_mul_right 8 _
  short hf := by rw [hmod] at hf; cases hf

theorem decrypts_feed {mod : Mode} (hmod : mod.feeds = true) (v : Block)
    (step : Block → Block → Block × Block) {cs : List Block} {tail : Bytes}
    (hsrc : src = bytes cs ++ tail) (ht : tail.length < 8)
    (h : decryptMode api ks dst src mod (some v.val) =
      some (feedResult step (edeEncrypt api ks) v dst cs tail)) :
    Decrypts ks dst src mod (some v.val) (bytes (run step v cs) ++
      List.zipWith (· ^^^ ·) tail (edeEncrypt api ks (final step v cs)).val) where
  length := by
    rw [length_src hsrc, List.length_append, length_bytes, length_run, List.length_zipWith,
      Block.property]
    omega
  eq := by rw [h, feedResult, length_src hsrc]
  whole hf := by rw [hmod] at hf; cases hf
  short _ h8 := by
    have hlen := length_src hsrc
    have hcs : cs = [] := List.length_eq_zero_iff.mp (by omega)
    subst hcs
    exact ⟨v, rfl, by rw [hsrc]; rfl⟩

/-- A block mode reads past a source that is not whole blocks. -/
theorem decrypts_block {mod : Mode} (hmod : mod.feeds = false) {iv : Option Bytes}
    (step : Block → Block → Block × Block) (v : Block) {cs : List Block} {tail : Bytes}
    (hsrc : src = bytes cs ++ tail) (ht : tail.length < 8)
    (hwhole : decryptMode api ks dst (bytes cs) mod iv = some (decResult step v dst cs))
    (hragged : ¬ 8 ∣ src.length → decryptMode api ks dst src mod iv = none) :
    (mod.feeds = false ∧ ¬ 8 ∣ src.length ∧ decryptMode api ks dst src mod iv = none) ∨
      ∃ data, Decrypts ks dst src mod iv data := by
  by_cases hdvd : 8 ∣ src.length
  · have hlen := length_src hsrc
    have hnil : tail = [] := List.length_eq_zero_iff.mp (by omega)
    have hbytes : src = bytes cs := by rw [hsrc, hnil, List.append_nil]
    rw [← hbytes] at hwhole
    exact .inr ⟨_, decrypts_whole ks hmod step v hbytes hwhole⟩
  · exact .inl ⟨hmod, hdvd, hragged hdvd⟩

/-- **The switch at every length.** The block modes leave the source unless
it is whole blocks; otherwise as many bytes are decrypted as there are. -/
theorem decryptMode_cases (hdst : src.length ≤ dst.length) {mod : Mode} {iv : Option Bytes}
    (hiv : isIvValid mod iv = true) :
    (mod.feeds = false ∧ ¬ 8 ∣ src.length ∧ decryptMode api ks dst src mod iv = none) ∨
      ∃ data, Decrypts ks dst src mod iv data := by
  obtain ⟨cs, tail, hsrc, ht⟩ := exists_blocks src.length src (Nat.le_refl _)
  have hcap : 8 * cs.length ≤ dst.length := by
    have hlen := length_src hsrc
    omega
  rcases iv_cases hiv with rfl | ⟨v, rfl⟩
  · exact decrypts_block ks rfl _ (chainOf iv).iv hsrc ht (decryptEcb_eq ks hcap _)
      (decryptEcb_ragged ks dst)
  · cases mod with
    | ecb =>
      exact decrypts_block ks rfl _ v hsrc ht (decryptEcb_eq ks hcap v) (decryptEcb_ragged ks dst)
    | cbc =>
      exact decrypts_block ks rfl _ v hsrc ht (decryptCbc_eq ks hcap v) (decryptCbc_ragged ks dst v)
    | cfb => exact .inr ⟨_, decrypts_feed ks rfl v _ hsrc ht (decryptCfb_eq ks hsrc ht hdst v)⟩
    | ofb => exact .inr ⟨_, decrypts_feed ks rfl v _ hsrc ht (decryptOfb_eq ks hsrc ht hdst v)⟩
    | ctr => exact .inr ⟨_, decrypts_feed ks rfl v _ hsrc ht (decryptCtr_eq ks hsrc ht hdst v)⟩

end Modes

/-! ## Lengths and bounds -/

section Bounds

variable (api : DesApi) (key : Bytes) (mod : Mode) (pad : Padding) (iv : Option Bytes) (src : Bytes)

/-- The last byte that decrypting a source shorter than a block gives in a
feedback mode: the last source byte under the encrypted iv. -/
def lastPlain : Option UInt8 := do
  let ks ← multipleKey api key
  let v ← iv.bind (readBlock · 0)
  (List.zipWith (· ^^^ ·) src (edeEncrypt api ks v).val).getLast?

/-- A source shorter than a block that a feedback mode decrypts to data
ending in a count of more bytes than there are. -/
def ShortCount : Prop :=
  mod.feeds = true ∧ pad.counts = true ∧
    ∃ p, lastPlain api key iv src = some p ∧ src.length < p.toNat ∧ p.toNat ≤ 8

/-- `encrypt` stays within its source and `encrypt_len_reserve` bytes of
its destination: with a destination of that size it leaves neither. -/
def EncryptInBounds : Prop :=
  ∀ (rnd : Nat → UInt8) (dst : Bytes) (n : Nat), dst.length = encryptLenReserve src.length →
    ∃ r, encrypt api rnd (some dst) n (some src) (some key) mod pad iv = some r

/-- `decrypt` stays within its source and `decrypt_len_reserve` bytes of
its destination. -/
def DecryptInBounds : Prop :=
  ∀ (dst : Bytes) (n : Nat), dst.length = decryptLenReserve src.length →
    ∃ r, decrypt api (some dst) n src (some key) mod pad iv = some r

/-- What `decrypt` should report: at most as many bytes as it decrypted,
with the accesses of `_unpadding_block` below `max(len, 8)`. -/
def UnpadsWithin : Prop :=
  ∀ (dst : Bytes) (n : Nat), decryptLenReserve src.length ≤ dst.length →
    ∀ ks dst' len, multipleKey api key = some ks →
      decryptMode api ks dst src mod iv = some (dst', len) →
      (∃ r, decrypt api (some dst) n src (some key) mod pad iv = some r ∧ r.dstLen ≤ len) ∧
      Within (unpaddingBlock (dst'.take (max len 8)) len pad) len

variable {api key mod pad iv src}

theorem lastPlain_eq {ks : List api.KeySchedule} (hks : multipleKey api key = some ks) (v : Block) :
    lastPlain api key (some v.val) src =
      (List.zipWith (· ^^^ ·) src (edeEncrypt api ks v).val).getLast? := by
  rw [lastPlain, hks, Option.bind_some, readBlock_val]
  rfl

/-- The data that make `_unpadding_block` wrap come from a short source. -/
theorem wraps_iff {ks : List api.KeySchedule} (hks : multipleKey api key = some ks)
    {dst data : Bytes} (hd : Decrypts ks dst src mod iv data) :
    Wraps pad data ↔ ShortCount api key mod pad iv src := by
  have hlen := hd.length
  constructor
  · rintro ⟨hcounts, p, hp, hlt, h8⟩
    have hpos : 0 < data.length := List.length_pos_iff.mpr fun h0 => by rw [h0] at hp; cases hp
    have hfeeds : mod.feeds = true := by
      cases hf : mod.feeds with
      | true => rfl
      | false =>
        have hdvd := hd.whole hf
        omega
    obtain ⟨v, rfl, hdata⟩ := hd.short hfeeds (by omega)
    exact ⟨hfeeds, hcounts, p, by rw [lastPlain_eq hks, ← hdata, hp], by omega, h8⟩
  · rintro ⟨hfeeds, hcounts, p, hp, hlt, h8⟩
    obtain ⟨v, rfl, hdata⟩ := hd.short hfeeds (by omega)
    rw [lastPlain_eq hks, ← hdata] at hp
    exact ⟨hcounts, p, hp, by omega, h8⟩

theorem reserve_le (n : Nat) : n ≤ decryptLenReserve n ∧ 8 ≤ decryptLenReserve n := by
  unfold decryptLenReserve
  omega

/-- The part of the destination that holds the data and their first
block. -/
theorem take_max {data dst : Bytes} {n : Nat} (hdata : data.length = n)
    (hdst : decryptLenReserve n ≤ dst.length) :
    ∃ spare, (data ++ dst.drop n).take (max n 8) = data ++ spare ∧
      (data ++ spare).length = max n 8 := by
  have hres := reserve_le n
  have htake : (data ++ dst.drop n).take (max n 8) = data ++ (dst.drop n).take (max n 8 - n) := by
    rw [List.take_append, List.take_of_length_le (by omega), hdata]
  refine ⟨(dst.drop n).take (max n 8 - n), htake, ?_⟩
  rw [← htake, List.length_take, List.length_append, List.length_drop]
  omega

/-- **Unpadding never lengthens**, and touches nothing past the data and
their first block, except where a feedback mode decrypts fewer than eight
bytes whose last one counts more bytes than there are. -/
theorem decrypt_unpadsWithin_iff (hkey : isKeyValid (some key) = true)
    (hiv : isIvValid mod iv = true) (hlen : src.length < 2 ^ 64) :
    UnpadsWithin api key mod pad iv src ↔ ¬ ShortCount api key mod pad iv src := by
  obtain ⟨ks, hks⟩ := exists_multipleKey api key
  constructor
  · intro h hshort
    have hdst : decryptLenReserve src.length ≤
        (List.replicate (decryptLenReserve src.length) (0 : UInt8)).length := by
      rw [List.length_replicate]
    rcases decryptMode_cases ks (Nat.le_trans (reserve_le _).1 hdst) hiv with
      ⟨hfeeds, -⟩ | ⟨data, hd⟩
    · rw [hshort.1] at hfeeds
      cases hfeeds
    · obtain ⟨spare, htake, hcap⟩ := take_max hd.length hdst
      have hwithin := (h _ 0 hdst ks _ _ hks hd.eq).2
      rw [htake, ← hd.length] at hwithin
      exact not_within_of_wraps spare (hd.length ▸ hlen) ((wraps_iff hks hd).mpr hshort) (by omega)
        hwithin
  · intro hshort dst n hdst ks' dst' len hks' hmode
    obtain rfl := Option.some.inj (hks.symm.trans hks')
    rcases decryptMode_cases ks (Nat.le_trans (reserve_le _).1 hdst) hiv with
      ⟨-, -, hnone⟩ | ⟨data, hd⟩
    · rw [hnone] at hmode
      cases hmode
    · obtain ⟨rfl, rfl⟩ := Prod.mk.inj (Option.some.inj (hd.eq.symm.trans hmode))
      have hwraps : ¬ Wraps pad data := fun hw => hshort ((wraps_iff hks hd).mp hw)
      have hlt : data.length < 2 ^ 64 := by rw [hd.length]; exact hlen
      have hres := reserve_le src.length
      constructor
      · obtain ⟨buf, len, hun, hle⟩ := unpaddingBlock_within (dst.drop src.length) hlt
          (by rw [List.length_append, List.length_drop, hd.length]; omega) hwraps
        rw [hd.length] at hun hle
        refine ⟨⟨.ok, buf, len⟩, ?_, hle⟩
        rw [decrypt_eq_decryptMode ks dst src n pad hkey hks hiv, hd.eq, Option.bind_some, hun]
        rfl
      · obtain ⟨spare, htake, hcap⟩ := take_max hd.length hdst
        rw [htake, ← hd.length]
        exact unpaddingBlock_within spare hlt (by omega) hwraps

/-- A valid call that does not meet the exception: one byte that decrypts
to 1, with the count read as such. -/
theorem decrypt_unpadsWithin_iff_one :
    ¬ ShortCount sampleDes sampleKey .cfb .pkcs7 (some (List.replicate 8 0)) [0x95] ∧
    UnpadsWithin sampleDes sampleKey .cfb .pkcs7 (some (List.replicate 8 0)) [0x95] := by
  have hshort : ¬ ShortCount sampleDes sampleKey .cfb .pkcs7 (some (List.replicate 8 0)) [0x95] := by
    rintro ⟨-, -, p, hp, hlt, -⟩
    have hone : lastPlain sampleDes sampleKey (some (List.replicate 8 0)) [0x95] = some 1 := by decide
    rw [hone] at hp
    obtain rfl := Option.some.inj hp
    exact absurd hlt (by decide)
  exact ⟨hshort, (decrypt_unpadsWithin_iff (by decide) (by decide) (by decide)).mpr hshort⟩

/-- One byte that decrypts to 8: the reported length wraps. -/
theorem decrypt_lengthens :
    (decrypt sampleDes (some (List.replicate 8 0)) 8 [0x9c] (some sampleKey) .cfb .ansix923
      (some (List.replicate 8 0))).map Result.dstLen = some (2 ^ 64 - 7) ∧
    ¬ UnpadsWithin sampleDes sampleKey .cfb .ansix923 (some (List.replicate 8 0)) [0x9c] := by
  have hlong : (decrypt sampleDes (some (List.replicate 8 0)) 8 [0x9c] (some sampleKey) .cfb
      .ansix923 (some (List.replicate 8 0))).map Result.dstLen = some (2 ^ 64 - 7) := by decide
  refine ⟨hlong, fun h => ?_⟩
  obtain ⟨ks, hks⟩ := exists_multipleKey sampleDes sampleKey
  have hfits : ([0x9c] : Bytes).length ≤ (List.replicate 8 0 : Bytes).length := by decide
  have hiv : isIvValid .cfb (some (List.replicate 8 0)) = true := by decide
  rcases decryptMode_cases ks hfits hiv with ⟨hfeeds, -⟩ | ⟨data, hd⟩
  · cases hfeeds
  · obtain ⟨r, hr, hle⟩ := (h (List.replicate 8 0) 8 (by decide) ks _ _ hks hd.eq).1
    rw [hr, Option.map_some] at hlong
    rw [Option.some.inj hlong] at hle
    exact absurd hle (by decide)

theorem encrypt_inBounds (hkey : isKeyValid (some key) = true) (hiv : isIvValid mod iv = true) :
    EncryptInBounds api key mod pad iv src := by
  intro rnd dst n hdst
  cases hplain : isPlainValid (some src) pad with
  | false => exact ⟨_, by simp [encrypt, hkey, hiv, hplain]; rfl⟩
  | true =>
    obtain ⟨ks, hks⟩ := exists_multipleKey api key
    obtain ⟨bs, tail, hsrc, ht⟩ := exists_tailOk hplain
    exact ⟨_, encrypt_eq rnd n hkey hks hiv hplain hsrc ht hdst.ge⟩

/-- **Where decryption stays in its buffers**, given that the switch did:
where the count does not wrap, and under `ansix923`, which clears
nothing. -/
theorem decrypt_some_iff {ks : List api.KeySchedule} (hkey : isKeyValid (some key) = true)
    (hiv : isIvValid mod iv = true) (hks : multipleKey api key = some ks) {dst data : Bytes}
    (n : Nat) (hd : Decrypts ks dst src mod iv data) (hlen : src.length + 8 < 2 ^ 64)
    (hdst : dst.length = decryptLenReserve src.length) :
    (∃ r, decrypt api (some dst) n src (some key) mod pad iv = some r) ↔
      ¬ (pad ≠ .ansix923 ∧ Wraps pad data) := by
  have hres : 8 ≤ decryptLenReserve src.length ∧ src.length ≤ decryptLenReserve src.length ∧
      decryptLenReserve src.length ≤ src.length + 8 := by
    unfold decryptLenReserve
    omega
  have hcap : (data ++ dst.drop src.length).length = decryptLenReserve src.length := by
    rw [List.length_append, List.length_drop, hd.length]
    omega
  have hlt : data.length < 2 ^ 64 := by rw [hd.length]; omega
  rw [decrypt_eq_decryptMode ks dst src n pad hkey hks hiv, hd.eq, Option.bind_some, ← hd.length]
  by_cases hwraps : Wraps pad data
  · obtain ⟨hnone, hlong⟩ := unpaddingBlock_wraps (dst.drop src.length) hlt hwraps (by omega)
    rw [← hd.length] at hnone hlong
    by_cases hansi : pad = .ansix923
    · obtain ⟨len, hun, -⟩ := hlong hansi
      exact iff_of_true ⟨_, by rw [hun]; rfl⟩ fun h => h.1 hansi
    · refine iff_of_false ?_ fun h => h ⟨hansi, hwraps⟩
      rintro ⟨r, hr⟩
      rw [hnone hansi] at hr
      cases hr
  · obtain ⟨buf, len, hun, -⟩ :=
      unpaddingBlock_within (dst.drop src.length) hlt (by omega) hwraps
    rw [← hd.length] at hun
    exact iff_of_true ⟨_, by rw [hun]; rfl⟩ fun h => hwraps h.2

/-- **Buffer bounds.** `encrypt` always stays in its source and in the
bytes it asks its caller to reserve. `decrypt` does exactly when the block
modes are given whole blocks and the count of a short source does not make
it clear bytes before the destination. -/
theorem buffer_inBounds_iff (hkey : isKeyValid (some key) = true) (hiv : isIvValid mod iv = true)
    (hlen : src.length + 8 < 2 ^ 64) :
    EncryptInBounds api key mod pad iv src ∧
    (DecryptInBounds api key mod pad iv src ↔
      (mod.feeds = false → 8 ∣ src.length) ∧
        ¬ (pad ≠ .ansix923 ∧ ShortCount api key mod pad iv src)) := by
  refine ⟨encrypt_inBounds hkey hiv, ?_⟩
  obtain ⟨ks, hks⟩ := exists_multipleKey api key
  constructor
  · intro h
    have hdst := List.length_replicate (n := decryptLenReserve src.length) (a := (0 : UInt8))
    rcases decryptMode_cases ks (hdst ▸ (reserve_le src.length).1) hiv with
      ⟨-, -, hnone⟩ | ⟨data, hd⟩
    · obtain ⟨r, hr⟩ := h _ 0 hdst
      rw [decrypt_eq_decryptMode ks _ src 0 pad hkey hks hiv, hnone] at hr
      cases hr
    · have hin := (decrypt_some_iff hkey hiv hks 0 hd hlen hdst).mp (h _ 0 hdst)
      rw [wraps_iff hks hd] at hin
      exact ⟨hd.whole, hin⟩
  · rintro ⟨hwhole, hshort⟩ dst n hdst
    rcases decryptMode_cases ks (hdst ▸ (reserve_le src.length).1) hiv with
      ⟨hfeeds, hdvd, -⟩ | ⟨data, hd⟩
    · exact absurd (hwhole hfeeds) hdvd
    · rw [decrypt_some_iff hkey hiv hks n hd hlen hdst, wraps_iff hks hd]
      exact hshort

/-- One byte, in a feedback mode and in a block mode. -/
theorem buffer_inBounds_iff_one :
    EncryptInBounds sampleDes sampleKey .ecb .zero none [0x95] ∧
    (DecryptInBounds sampleDes sampleKey .ecb .zero none [0x95] ↔
      (Mode.feeds .ecb = false → 8 ∣ [0x95].length) ∧
        ¬ (Padding.zero ≠ .ansix923 ∧ ShortCount sampleDes sampleKey .ecb .zero none [0x95])) :=
  buffer_inBounds_iff (by decide) (by decide) (by decide)

/-- `ecb` reads seven bytes past a source of one byte; `cfb` clears seven
bytes before the destination when that byte decrypts to 8. -/
theorem decrypt_out_of_bounds :
    ¬ DecryptInBounds sampleDes sampleKey .ecb .zero none [0x95] ∧
    ¬ DecryptInBounds sampleDes sampleKey .cfb .pkcs7 (some (List.replicate 8 0)) [0x9c] := by
  constructor
  · intro h
    obtain ⟨r, hr⟩ := h (List.replicate 8 0) 8 (by decide)
    have hnone : decrypt sampleDes (some (List.replicate 8 0)) 8 [0x95] (some sampleKey) .ecb .zero
        none = none := by decide
    rw [hnone] at hr
    cases hr
  · intro h
    obtain ⟨r, hr⟩ := h (List.replicate 8 0) 8 (by decide)
    have hnone : decrypt sampleDes (some (List.replicate 8 0)) 8 [0x9c] (some sampleKey) .cfb .pkcs7
        (some (List.replicate 8 0)) = none := by decide
    rw [hnone] at hr
    cases hr

end Bounds

end HighJump.Crypto.Des
