/-
HighJump.Crypto.DesTheorems — `decrypt` undoes `encrypt` on buffers.

The proof is three facts put together: encryption is the mode's run over
the padded blocks (`encrypt_eq`), decryption of whole blocks is the
inverse run followed by unpadding (`decrypt_eq`, `run_inverse`), and
unpadding undoes padding (`unpad_filler`). None of them looks at the
mode and the padding together.
-/
import HighJump.Crypto.DesBuffer
import HighJump.Crypto.DesPadding
import Mathlib.Logic.Equiv.Basic

namespace HighJump.Crypto.Des

open HighJump.Lib HighJump.Lib.BlockModes

/-! ## DES on a few blocks -/

/-- Eight bytes written out. -/
def block (b0 b1 b2 b3 b4 b5 b6 b7 : UInt8) : Block := ⟨[b0, b1, b2, b3, b4, b5, b6, b7], rfl⟩

/-- A permutation of the blocks that is DES under the key
`13 34 57 79 9B BC DF F1` at `01 23 .. EF`, at eight bytes 08 and at the
zero block. -/
def samplePerm : Equiv.Perm Block :=
  ((Equiv.swap (block 0x01 0x23 0x45 0x67 0x89 0xab 0xcd 0xef)
      (block 0x85 0xe8 0x13 0x54 0x0f 0x0a 0xb4 0x05)).trans
    (Equiv.swap (block 8 8 8 8 8 8 8 8) (block 0xfd 0xf2 0xe1 0x74 0x49 0x29 0x22 0xf8))).trans
    (Equiv.swap (block 0 0 0 0 0 0 0 0) (block 0x94 0x8a 0x43 0xf9 0x8a 0x83 0x4f 0x7e))

/-- `samplePerm` as the block primitive. -/
def sampleDes : DesApi where
  KeySchedule := Block
  setKeyUnchecked := id
  ecbEncrypt _ dir b := match dir with | .encrypt => samplePerm b | .decrypt => samplePerm.symm b

/-- The key of `samplePerm`. -/
def sampleKey : Bytes := [0x13, 0x34, 0x57, 0x79, 0x9b, 0xbc, 0xdf, 0xf1]

theorem sampleDes_inverse : sampleDes.Inverse where
  dec_enc _ b := samplePerm.symm_apply_apply b
  enc_dec _ b := samplePerm.apply_symm_apply b

/-! ## The round trip -/

variable {api : DesApi}

theorem length_paddedBlocks_le (rnd : Nat → UInt8) (bs : List Block) (tail : Bytes)
    (pad : Padding) : (paddedBlocks rnd bs tail pad).length ≤ bs.length + 1 := by
  unfold paddedBlocks
  split <;> simp

/-- A plaintext that is not empty gives at least one block. -/
theorem length_paddedBlocks_pos (rnd : Nat → UInt8) {src tail : Bytes} {bs : List Block}
    {pad : Padding} (hplain : isPlainValid (some src) pad = true) (hsrc : src = bytes bs ++ tail)
    (ht : TailOk tail pad) : 0 < (paddedBlocks rnd bs tail pad).length := by
  rcases need_cases ht with ⟨rfl, rfl⟩ | ⟨-, hneed⟩
  · have hlen := length_src hsrc
    have hne : src.length ≠ 0 := by
      intro h0
      simp [isPlainValid, h0] at hplain
    simp only [paddedBlocks, isNeedPadding, Bool.false_eq_true, if_false]
    simp only [List.length_nil] at hlen
    omega
  · simp [paddedBlocks, hneed]

/-- Unpadding what padding made of a message. -/
theorem unpad_paddedBlocks (rnd : Nat → UInt8) {src tail : Bytes} {bs : List Block}
    {pad : Padding} (hsrc : src = bytes bs ++ tail) (ht : TailOk tail pad) :
    unpad pad (bytes (paddedBlocks rnd bs tail pad)) = recovered pad src := by
  rcases need_cases ht with ⟨rfl, rfl⟩ | ⟨hp, hneed⟩
  · simp [paddedBlocks, isNeedPadding, unpad, recovered, hsrc]
  · simp only [paddedBlocks, hneed, if_true, bytes_append, bytes_cons, bytes_nil, List.append_nil]
    rw [paddingBlock_val rnd ht.1, ← List.append_assoc, ← hsrc]
    exact unpad_filler rnd src ht.1 hp

/-- What an overload left in the first `dst_len` bytes. -/
def Result.out (r : Result) : Bytes := r.dst.take r.dstLen

theorem encResult_out (step : Block → Block → Block × Block) (iv : Block) (dst : Bytes)
    (bs : List Block) : (encResult step iv dst bs).out = bytes (run step iv bs) := by
  rw [Result.out, encResult, wrote]
  exact List.take_left' (by simp)

/-- **The buffer round trip.** If the block primitive's two directions
undo each other, then for every mode, padding, valid key and iv and every
accepted plaintext below 2^31 - 8 bytes: `encrypt` is ok and stays within
its reserve, and `decrypt` of what it wrote is ok and gives the plaintext
back, under zero padding without its trailing zeros. -/
theorem decrypt_encrypt (h : api.Inverse) (rnd : Nat → UInt8) {dst src key : Bytes} (n : Nat)
    {mod : Mode} {pad : Padding} {iv : Option Bytes} (hkey : isKeyValid (some key) = true)
    (hiv : isIvValid mod iv = true) (hplain : isPlainValid (some src) pad = true)
    (hlen : src.length < 2 ^ 31 - 8) (hdst : encryptLenReserve src.length ≤ dst.length) :
    ∃ c, encrypt api rnd (some dst) n (some src) (some key) mod pad iv = some c ∧
      c.code = .ok ∧ c.dstLen ≤ encryptLenReserve src.length ∧ c.out.length = c.dstLen ∧
      ∀ (dst' : Bytes) (n' : Nat), decryptLenReserve c.dstLen ≤ dst'.length →
        ∃ p, decrypt api (some dst') n' c.out (some key) mod pad iv = some p ∧ p.code = .ok ∧
          p.dstLen = (recovered pad src).length ∧ p.out = recovered pad src := by
  obtain ⟨ks, hks⟩ := exists_multipleKey api key
  obtain ⟨bs, tail, hsrc, ht⟩ := exists_tailOk hplain
  have hslen := length_src hsrc
  have hple := length_paddedBlocks_le rnd bs tail pad
  have hpos := length_paddedBlocks_pos rnd hplain hsrc ht
  refine ⟨_, encrypt_eq rnd n hkey hks hiv hplain hsrc ht hdst, rfl, ?_, ?_, ?_⟩
  · simp only [encResult, encryptLenReserve]; omega
  · rw [encResult_out]; simp [encResult]
  intro dst' n' hdst'
  simp only [encResult, decryptLenReserve] at hdst'
  rw [encResult_out, decrypt_eq n' pad hkey hks hiv (by rw [length_run]; omega),
    run_inverse (step_undoes (edeDecrypt_edeEncrypt h ks) mod), length_run]
  -- the decrypted buffer is the padded message with the rest of dst' after it
  have h8 : 8 ≤ (bytes (paddedBlocks rnd bs tail pad)).length := by rw [length_bytes]; omega
  have hlt : (bytes (paddedBlocks rnd bs tail pad)).length < 2 ^ 31 := by rw [length_bytes]; omega
  obtain ⟨buf, len, hun, hle, htake⟩ := unpaddingBlock_eq
    (dst'.drop (8 * (paddedBlocks rnd bs tail pad).length)) h8 hlt pad
  rw [length_bytes] at hun
  rw [unpad_paddedBlocks rnd hsrc ht] at htake
  refine ⟨⟨.ok, buf, len⟩, by rw [wrote, hun]; rfl, rfl, ?_, htake⟩
  rw [← htake, List.length_take]
  simp only
  omega

/-- One block in electronic codebook mode: the padding block is the block
of eights, and the plaintext comes back. -/
theorem decrypt_encrypt_ecb_pkcs7 :
    ∃ c, encrypt sampleDes (fun _ => 0) (some (List.replicate 16 0)) 16
        (some [0x01, 0x23, 0x45, 0x67, 0x89, 0xab, 0xcd, 0xef]) (some sampleKey) .ecb .pkcs7 none
          = some c ∧
      c.code = .ok ∧ c.dstLen ≤ encryptLenReserve 8 ∧ c.out.length = c.dstLen ∧
      ∀ (dst' : Bytes) (n' : Nat), decryptLenReserve c.dstLen ≤ dst'.length →
        ∃ p, decrypt sampleDes (some dst') n' c.out (some sampleKey) .ecb .pkcs7 none = some p ∧
          p.code = .ok ∧ p.dstLen = 8 ∧
          p.out = [0x01, 0x23, 0x45, 0x67, 0x89, 0xab, 0xcd, 0xef] :=
  decrypt_encrypt sampleDes_inverse (fun _ => 0) 16 (by decide) (by decide) (by decide) (by decide)
    (by decide)

end HighJump.Crypto.Des
