/-
HighJump.Crypto.AesString — the string overloads of `hj::aes`, there and
back.

The overload of `encrypt` makes room, encrypts into it and cuts the string
to what came out; `decryptString` is its counterpart. `comes_back` is the
round trip for the plain modes under every padding but none, and for GCM
under an iv of the standard length. Under zero padding a message loses its
own trailing zeros (`recovered`).
-/
import HighJump.Crypto.AesBounds
import HighJump.Crypto.AesUnpadding
import HighJump.Crypto.AesStream

namespace HighJump.Crypto.Aes

open HighJump.Lib
open HighJump.Lib.Evp (Call Dir Algorithm Work Phase Serves)
open HighJump.Crypto.Des (toInt trim length_trim_le exists_zeros)

/-- `encrypt`, the string overload: its code and what is in `dst` then. -/
def encryptString (evp : Evp.Api Cipher) (rnd : Nat → UInt8) (dst src key : Bytes) (mod : Mode)
    (pad : Padding) (iv : Bytes) : Option (ErrorCode × Bytes) := do
  let dst ← resize dst (encryptLenReserve evp src.length mod key.length)
  let r ← encrypt evp rnd dst dst.length src (some key) mod pad (ivPtr mod iv)
  if r.code ≠ .ok then some (r.code, r.dst)
  else do
    let dst ← resize r.dst r.dstLen
    some (.ok, dst)

theorem resize_eq (s : Bytes) {n : Nat} (h : n ≤ maxSize) :
    resize s n = some (s.take n ++ List.replicate (n - s.length) 0) :=
  if_pos h

/-- A string of `a` in front is cut to `a`. -/
theorem resize_prefix {a b s : Bytes} (hs : s = a ++ b) (h : a.length ≤ maxSize) :
    resize s a.length = some a := by
  rw [resize_eq s h, hs, List.take_left, List.length_append, Nat.sub_eq_zero_of_le (by omega)]
  exact congrArg some (List.append_nil a)

section RoundTrip

variable {alg : Cipher → Algorithm} {evp : Evp.Api Cipher} {At : evp.Ctx → Phase Cipher → Prop}
variable {mod : Mode} {key m iv : Bytes} {pad : Padding} {c : Bytes}

/-! ## The overloads against those on buffers -/

theorem encryptString_eq {rnd : Nat → UInt8} {dst : Bytes}
    (hreserve : encryptLenReserve evp m.length mod key.length ≤ maxSize)
    (hc : c.length ≤ maxSize)
    (henc : ∀ buf : Bytes, buf.length = encryptLenReserve evp m.length mod key.length →
      ∃ r rest, encrypt evp rnd buf buf.length m (some key) mod pad (ivPtr mod iv) = some r ∧
        r.code = .ok ∧ r.dst = c ++ rest ∧ r.dstLen = c.length) :
    encryptString evp rnd dst m key mod pad iv = some (.ok, c) := by
  have hdst := resize_eq dst hreserve
  obtain ⟨r, rest, hr, hcode, hout, hlen⟩ := henc _ (length_resize hdst)
  have hcut := resize_prefix hout hc
  rw [← hlen] at hcut
  simp only [encryptString, hdst, Option.bind_eq_bind, Option.bind_some, hr, hcode, ne_eq,
    not_true_eq_false, if_false, hcut]

theorem decryptString_eq {dst : Bytes} (hc : c.length ≤ maxSize) (hm : m.length ≤ maxSize)
    (hdec : ∀ buf : Bytes, buf.length = c.length →
      ∃ r rest, decrypt evp buf buf.length c (some key) mod pad (ivPtr mod iv) = some r ∧
        r.code = .ok ∧ r.dst = m ++ rest ∧ r.dstLen = m.length) :
    decryptString evp dst c key mod pad iv = some (.ok, m) := by
  have hdst := resize_eq dst hc
  obtain ⟨r, rest, hr, hcode, hout, hlen⟩ := hdec _ (length_resize hdst)
  have hcut := resize_prefix hout hm
  rw [← hlen] at hcut
  simp only [decryptString, decryptLenReserve, hdst, Option.bind_eq_bind, Option.bind_some, hr,
    hcode, ne_eq, not_true_eq_false, if_false, hcut]

/-! ## Plain modes -/

/-- What a plain mode makes of a message. -/
def plainSealed (alg : Cipher → Algorithm) (rnd : Nat → UInt8) (mod : Mode) (key : Bytes)
    (pad : Padding) (iv : Option Bytes) (m : Bytes) : Bytes :=
  (alg ⟨mod, key.length⟩).enc key (iv.getD []) (m ++ fillerTo rnd 16 m.length pad)

theorem length_padded (rnd : Nat → UInt8) (hp : pad ≠ .noPadding) (m : Bytes) :
    (m ++ fillerTo rnd 16 m.length pad).length = m.length + (16 - m.length % 16) := by
  rw [List.length_append, length_fillerTo (by decide) rnd hp]

theorem dvd_padded (rnd : Nat → UInt8) (hp : pad ≠ .noPadding) (m : Bytes) :
    16 ∣ (m ++ fillerTo rnd 16 m.length pad).length := by
  rw [length_padded rnd hp]
  omega

theorem length_recovered_le (pad : Padding) (m : Bytes) : (recovered pad m).length ≤ m.length := by
  unfold recovered
  split
  · exact length_trim_le m
  · exact Nat.le_refl _

/-- A text keeps its end under every padding. -/
theorem recovered_text {m : Bytes} (h : 0 ∉ m) (pad : Padding) : recovered pad m = m := by
  unfold recovered
  split
  · obtain ⟨z, hz⟩ := exists_zeros m
    cases z with
    | zero => simpa using hz.symm
    | succ z =>
      rw [hz] at h
      simp at h
  · rfl

variable (hS : Serves alg evp Cipher.Covered At) (hA : IsAes alg)
include hS hA

omit hS in
theorem blockSize_dvd (hm : mod.Plain) {n : Nat} (h : 16 ∣ n) :
    (alg ⟨mod, key.length⟩).blockSize ∣ n := by
  obtain ⟨b, v, hspec, hb, -⟩ := hm.spec
  rw [(hA ⟨mod, key.length⟩ b v false hspec).1]
  exact Nat.dvd_trans hb h

theorem length_plainSealed (hm : mod.Plain) (hp : pad ≠ .noPadding) (rnd : Nat → UInt8)
    (iv : Option Bytes) (m : Bytes) :
    (plainSealed alg rnd mod key pad iv m).length = m.length + (16 - m.length % 16) := by
  rw [← length_padded rnd hp m]
  exact (hS.lawful _).length_of_dvd .enc key _ (blockSize_dvd hA hm (dvd_padded rnd hp m))

theorem encrypt_plain (hm : mod.Plain) (hp : pad ≠ .noPadding) (rnd : Nat → UInt8)
    (hkey : isKeyValid mod (some key) = true) {iv : Option Bytes} (hiv : isIvValid mod iv = true)
    (hlt : m.length < 2 ^ 31 - 16) {buf : Bytes} (n : Nat) (hbuf : m.length + 16 ≤ buf.length) :
    ∃ rest, encrypt evp rnd buf n m (some key) mod pad iv =
      some ⟨.ok, plainSealed alg rnd mod key pad iv m ++ rest,
        (plainSealed alg rnd mod key pad iv m).length,
        [m ++ fillerTo rnd 16 m.length pad]⟩ := by
  obtain ⟨ctx, hopen, hat⟩ := openCtx_plain hS hA .enc true hm hkey hiv
  have hw := session_opened hA .enc (.inl hm) key iv (iv.getD []).length
  have hlen := length_padded rnd hp m
  have hsize := hm.blockSize evp key.length
  have hplain : isPlainValid evp mod key.length pad m.length = some true := by
    rw [isPlainValid_iff, hsize]
    exact (isRagged_eq_false (by decide)).mpr fun h => absurd h hp
  have haead : (alg ⟨mod, key.length⟩).aead = false := hw.aead.trans hm.aead
  have hsealed : sealed alg (session .enc mod key iv (iv.getD []).length)
      (m ++ fillerTo rnd 16 m.length pad) = plainSealed alg rnd mod key pad iv m := by
    have hiv' : (session .enc mod key iv (iv.getD []).length).iv = iv.getD [] := List.take_length
    rw [sealed, show (alg (session .enc mod key iv (iv.getD []).length).cipher).aead = false from
      haead, hiv']
    exact List.append_nil _
  have hrun := encrypt_checks rnd buf n hplain hkey hiv
    (paddingBlock_fillerTo hsize (by decide) (by decide) rnd pad m) (le_maxSize (by omega))
  rw [hopen, Option.bind_some] at hrun
  dsimp only at hrun
  rw [encryptWith_eq hS n hat hw (blockSize_dvd hA hm (dvd_padded rnd hp m)) (by omega)
    (by rw [hsealed, length_plainSealed hS hA hm hp]; omega), hsealed] at hrun
  exact ⟨_, hrun⟩

theorem decrypt_plainSealed (hm : mod.Plain) (hp : pad ≠ .noPadding) (rnd : Nat → UInt8)
    (hkey : isKeyValid mod (some key) = true) {iv : Option Bytes} (hiv : isIvValid mod iv = true)
    (hlt : m.length < 2 ^ 31 - 16) {buf : Bytes} (n : Nat)
    (hbuf : (plainSealed alg rnd mod key pad iv m).length ≤ buf.length) :
    ∃ r rest, decrypt evp buf n (plainSealed alg rnd mod key pad iv m) (some key) mod pad iv =
      some r ∧ r.code = .ok ∧ r.dst = recovered pad m ++ rest ∧
      r.dstLen = (recovered pad m).length := by
  have hlen : (plainSealed alg rnd mod key pad iv m).length = m.length + (16 - m.length % 16) :=
    length_plainSealed hS hA hm hp rnd iv m
  have hdvd := dvd_padded rnd hp m
  have hdec : (alg ⟨mod, key.length⟩).dec key (iv.getD []) (plainSealed alg rnd mod key pad iv m) =
      m ++ fillerTo rnd 16 m.length pad :=
    (hS.lawful _).dec_enc _ _ _ (blockSize_dvd hA hm hdvd)
  obtain ⟨hrun, -⟩ := decrypt_plain (n := n) hS hA hm hkey hiv (fun h => absurd h hp)
    (by rw [hlen]; omega) hbuf
  have hrun := hrun (blockSize_dvd hA hm (by rw [hlen, ← length_padded rnd hp]; exact hdvd))
  rw [hdec] at hrun
  have hpad := length_padded rnd hp m
  obtain ⟨k, hk, hle, htake⟩ := unpaddingBlock_upTo (b := 16)
    (buf.drop (m ++ fillerTo rnd 16 m.length pad).length) hm.aead (by decide) (by omega) pad
    (not_exceeds_fillerTo (by decide) (by decide) rnd hp m)
  rw [unpadUpTo_fillerTo (by decide) (by decide) rnd hp] at htake
  rw [hk, Option.map_some] at hrun
  refine ⟨_, (m ++ fillerTo rnd 16 m.length pad).drop k ++
    buf.drop (m ++ fillerTo rnd 16 m.length pad).length, hrun, rfl, ?_, ?_⟩
  · rw [← htake, ← List.append_assoc, List.take_append_drop]
  · rw [← htake, List.length_take, Nat.min_eq_left hle]

/-! ## There and back -/

/-- The modes that give a message back: the plain ones, and GCM for a
message that is not empty, under an iv of the standard length. -/
def GivesBack (alg : Cipher → Algorithm) (mod : Mode) (key iv m : Bytes) : Prop :=
  mod.Plain ∨ (mod = .gcm ∧ m ≠ [] ∧ iv.length = 12 ∧
    (alg ⟨.gcm, key.length⟩).ivLenOk 12 = true)

theorem comes_back_plain (hm : mod.Plain) (hp : pad ≠ .noPadding)
    (hkey : isKeyValid mod (some key) = true) (hiv : isIvValid mod (ivPtr mod iv) = true)
    (hlt : m.length < 2 ^ 31 - 16) (rnd : Nat → UInt8) (dst dst' : Bytes) :
    ∃ c, m.length ≤ c.length ∧ c.length ≤ m.length + 16 ∧
      encryptString evp rnd dst m key mod pad iv = some (.ok, c) ∧
      decryptString evp dst' c key mod pad iv = some (.ok, recovered pad m) := by
  have hlen : (plainSealed alg rnd mod key pad (ivPtr mod iv) m).length =
      m.length + (16 - m.length % 16) :=
    length_plainSealed hS hA hm hp rnd (ivPtr mod iv) m
  have hmax : maxSize = 2 ^ 63 - 1 := rfl
  have hreserve : encryptLenReserve evp m.length mod key.length = (m.length / 16 + 2) * 16 := by
    simp [encryptLenReserve, hm.blockSize]
  refine ⟨plainSealed alg rnd mod key pad (ivPtr mod iv) m, by omega, by omega, ?_, ?_⟩
  · refine encryptString_eq (by omega) (by omega) fun buf hbuf => ?_
    obtain ⟨rest, hrun⟩ := encrypt_plain hS hA hm hp rnd hkey hiv hlt buf.length
      (show m.length + 16 ≤ buf.length by omega)
    exact ⟨_, rest, hrun, rfl, rfl, rfl⟩
  · have hrec : (recovered pad m).length ≤ maxSize := by
      have hle : (recovered pad m).length ≤ m.length := length_recovered_le pad m
      omega
    exact decryptString_eq (by omega) hrec fun buf hbuf =>
      decrypt_plainSealed hS hA hm hp rnd hkey hiv hlt buf.length (Nat.le_of_eq hbuf.symm)

theorem comes_back_gcm (hne : m ≠ []) (hlen : iv.length = 12)
    (hok : (alg ⟨.gcm, key.length⟩).ivLenOk 12 = true) (hkey : isKeyValid .gcm (some key) = true)
    (hlt : m.length < 2 ^ 31 - 16) (rnd : Nat → UInt8) (dst dst' : Bytes) :
    ∃ c, m.length ≤ c.length ∧ c.length ≤ m.length + 16 ∧
      encryptString evp rnd dst m key .gcm pad iv = some (.ok, c) ∧
      decryptString evp dst' c key .gcm pad iv = some (.ok, m) := by
  have hpos : 0 < iv.length := by omega
  have hmax : maxSize = 2 ^ 63 - 1 := rfl
  have hok' : (alg ⟨.gcm, key.length⟩).ivLenOk (toInt iv.length) = true := by
    rw [hlen]
    exact hok
  have hreserve : encryptLenReserve evp m.length .gcm key.length = m.length + 16 := by
    simp [encryptLenReserve, blockSize_gcm hS hA hkey]
  have hsealed : (gcmSealed alg key iv 12 m).length = m.length + 16 := length_gcmSealed hS hA 12
  have henc : ((alg ⟨.gcm, key.length⟩).enc key (iv.take 12) m).length = m.length :=
    length_gcm_apply hS hA .enc _ m
  refine ⟨gcmSealed alg key iv 12 m, by omega, Nat.le_of_eq hsealed, ?_, ?_⟩
  · refine encryptString_eq (by omega) (by omega) fun buf hbuf => ?_
    have hm : m.length < 2 ^ 31 := by omega
    have hroom : m.length + 16 ≤ buf.length := by omega
    obtain ⟨r, hr, hcode, hdst, -, hout⟩ :=
      (encrypt_gcm hS hA rnd buf.length pad hkey hpos hm hroom).2.2 hok' (Nat.le_of_eq hlen.symm)
    refine ⟨r, r.dst.drop r.dstLen, hr, hcode, ?_, by rw [hdst, hsealed]⟩
    rw [← hout, Result.out, List.take_append_drop]
  · refine decryptString_eq (by omega) (by omega) fun buf hbuf => ?_
    have hl := hS.lawful ⟨.gcm, key.length⟩
    have hiv : iv.take (toInt iv.length).toNat = iv.take 12 := by
      rw [hlen]
      rfl
    have hplain : (alg ⟨.gcm, key.length⟩).dec key (iv.take 12)
        ((alg ⟨.gcm, key.length⟩).enc key (iv.take 12) m) = m :=
      hl.dec_enc _ _ _ (gcm_dvd hA key m)
    have hct : ((alg ⟨.gcm, key.length⟩).enc key (iv.take 12) m).length < 2 ^ 31 := by omega
    have hroom : ((alg ⟨.gcm, key.length⟩).enc key (iv.take 12) m).length + 16 ≤ buf.length := by
      omega
    obtain ⟨r, hr, hiff, hgives⟩ := decrypt_gcm hS hA buf.length pad hkey hpos hok'
      (hl.length_tag key (iv.take 12) m) hct hroom
    rw [hiv, hplain] at hiff hgives
    have hcode : r.code = .ok := by
      refine hiff.mpr ⟨fun hnil => hne ?_, rfl⟩
      rw [← List.length_eq_zero_iff, ← henc, hnil, List.length_nil]
    obtain ⟨hdst, hout⟩ := hgives hcode
    refine ⟨r, r.dst.drop r.dstLen, hr, hcode, ?_, by rw [hdst, henc]⟩
    rw [← hout, Result.out, List.take_append_drop]

/-- **A string comes back**, whatever was in the two destinations. -/
theorem comes_back (hm : GivesBack alg mod key iv m) (hp : pad ≠ .noPadding)
    (hkey : isKeyValid mod (some key) = true) (hiv : isIvValid mod (ivPtr mod iv) = true)
    (hlt : m.length < 2 ^ 31 - 16) (rnd : Nat → UInt8) (dst dst' : Bytes) :
    ∃ c, m.length ≤ c.length ∧ c.length ≤ m.length + 16 ∧
      encryptString evp rnd dst m key mod pad iv = some (.ok, c) ∧
      decryptString evp dst' c key mod pad iv =
        some (.ok, if mod = .gcm then m else recovered pad m) := by
  rcases hm with hm | ⟨rfl, hne, hlen, hok⟩
  · rw [if_neg hm.ne_gcm]
    exact comes_back_plain hS hA hm hp hkey hiv hlt rnd dst dst'
  · rw [if_pos rfl]
    exact comes_back_gcm hS hA hne hlen hok hkey hlt rnd dst dst'

end RoundTrip

end HighJump.Crypto.Aes
