/-
HighJump.Crypto.Des — `hj::des` of `hj/crypto/des.hpp`: the buffer and
stream overloads of `encrypt` and `decrypt`, the paddings and the key
cascade.

The block primitive is OpenSSL's and is a parameter (`DesApi`); all the
rest is embedded function by function. Each mode body of the source is a
body here, with its own loop, its own partial-block code and its own
padding tail: that the ten bodies and the two stream paths agree is what
the theorems are about, so nothing that differs in the source is shared.

Pointers that may be null are `Option`s of the buffer they point to; the
length argument of a buffer that is there is its size. Every read and
write of a caller's buffer is bounds-checked (`Lib/Memory`), and a
function returns `none` where the source would leave its buffers.

`size_t` values that cannot wrap (indices that only grow to a buffer's
size) are `Nat`; the subtractions in `_unpadding_block` that can wrap are
written with `subSz`.
-/
import HighJump.Lib.Loop
import HighJump.Lib.Memory
import HighJump.Lib.Streams
import Mathlib.Algebra.Ring.Int.Defs

namespace HighJump.Crypto.Des

open HighJump.Lib

/-! ## Types -/

/-- `des::error_code`. -/
inductive ErrorCode where
  | ok | invalidKey | invalidIv | invalidPlain | invalidPadding | invalidInput | invalidOutput
  | bufferTooSmall | encryptFailed | decryptFailed | fileIoFailed | unsupportedAlgorithm | unknown
  deriving DecidableEq, Repr

/-- `des::mode`. -/
inductive Mode where
  | ecb | cbc | cfb | ofb | ctr
  deriving DecidableEq, Repr

/-- `des::padding`. -/
inductive Padding where
  | pkcs5 | pkcs7 | zero | iso10126 | ansix923 | isoIec7816_4 | noPadding
  deriving DecidableEq, Repr

abbrev Bytes := List UInt8

/-- `DES_cblock`: eight bytes. -/
@[ext] structure Block where
  val : Bytes
  property : val.length = 8
  deriving DecidableEq

/-- `for(i) a[i] ^= b[i]`. -/
def Block.xor (a b : Block) : Block :=
  ⟨List.zipWith (· ^^^ ·) a.val b.val, by simp [a.property, b.property]⟩

/-- `DES_ENCRYPT`, `DES_DECRYPT`. -/
inductive Dir where
  | encrypt | decrypt
  deriving DecidableEq, Repr

/-- The two OpenSSL functions the class calls. -/
structure DesApi where
  KeySchedule : Type
  setKeyUnchecked : Block → KeySchedule
  ecbEncrypt : KeySchedule → Dir → Block → Block

/-- What the class relies on: under every key schedule the two
directions are mutually inverse on blocks. -/
structure DesApi.Inverse (api : DesApi) : Prop where
  dec_enc : ∀ k b, api.ecbEncrypt k .decrypt (api.ecbEncrypt k .encrypt b) = b
  enc_dec : ∀ k b, api.ecbEncrypt k .encrypt (api.ecbEncrypt k .decrypt b) = b

/-- What a buffer overload leaves behind: its code, the destination
buffer and `dst_len`. -/
structure Result where
  code : ErrorCode
  dst : Bytes
  dstLen : Nat
  deriving DecidableEq, Repr

/-! ## Validity and sizes -/

/-- `is_key_valid`. -/
def isKeyValid : Option Bytes → Bool
  | none => false
  | some key => !(key.length < 8 || key.length % 8 != 0)

/-- `is_iv_valid`. -/
def isIvValid (mod : Mode) (iv : Option Bytes) : Bool :=
  !(mod != .ecb && (match iv with | none => true | some iv => iv.length != 8))

/-- `is_plain_valid` on a buffer. -/
def isPlainValid (src : Option Bytes) (pad : Padding) : Bool :=
  match src with
  | none => false
  | some src => !(src.length == 0) && !(pad == .noPadding && src.length % 8 != 0)

/-- `encrypt_len_reserve`. -/
def encryptLenReserve (srcLen : Nat) : Nat := (srcLen / 8) * 8 + 8

/-- `decrypt_len_reserve`. -/
def decryptLenReserve (srcLen : Nat) : Nat := (srcLen / 8) * 8 + 8

/-- `memcpy(block, m + idx, 8)`. -/
def readBlock (m : Bytes) (idx : Nat) : Option Block :=
  if h : idx + 8 ≤ m.length then
    some ⟨(m.drop idx).take 8, by simp only [List.length_take, List.length_drop]; omega⟩
  else none

/-- `memcpy(m + idx, block, 8)`. -/
def writeBlock (m : Bytes) (idx : Nat) (b : Block) : Option Bytes := writeN m idx b.val

/-! ## Padding -/

/-- `_is_need_padding`. -/
def isNeedPadding : Padding → Bool
  | .noPadding => false
  | _ => true

/-- `_padding_block` with `dst_len = 8` and the `src_len` bytes `data`;
`rnd i` is what `std::random_device` answers for position `i`. -/
def paddingBlock (rnd : Nat → UInt8) (data : Bytes) (pad : Padding) : Block :=
  let srcLen := data.length
  -- memset, then memcpy of min(src_len, dst_len) bytes
  let base : Bytes := data.take 8 ++ List.replicate (8 - srcLen) 0
  let padVal := UInt8.ofNat (8 - srcLen)
  have hbase : base.length = 8 := by simp [base, srcLen]; omega
  match pad with
  | .pkcs5 | .pkcs7 => ⟨base.mapIdx fun i b => if srcLen ≤ i then padVal else b, by simpa⟩
  | .iso10126 =>
      ⟨(base.mapIdx fun i b => if srcLen ≤ i ∧ i < 7 then rnd i else b).set 7 padVal, by simpa⟩
  | .ansix923 => ⟨base.set 7 padVal, by simpa⟩
  | .isoIec7816_4 => ⟨if srcLen < 8 then base.set srcLen 0x80 else base, by split <;> simpa⟩
  | .zero | .noPadding => ⟨base, hbase⟩

/-- Unsigned subtraction on `size_t`. -/
def subSz (a b : Nat) : Nat := (a + 2 ^ 64 - b) % 2 ^ 64

/-- `static_cast<int>` of a `size_t`. -/
def toInt (a : Nat) : Int := (Int.ofNat a).bmod (2 ^ 32)

/-- `for(i = start; i < start + n; ++i) if(!p(buf[i])) return false`. -/
def allAt (buf : Bytes) (p : UInt8 → Bool) : Nat → Nat → Option Bool
  | _, 0 => some true
  | i, n + 1 => do
      let b ← buf[i]?
      if p b then allAt buf p (i + 1) n else some false

/-- `while(n > 0 && buf[n - 1] == 0) --n`. -/
def stripZeros (buf : Bytes) : Nat → Option Nat
  | 0 => some 0
  | n + 1 => do
      let b ← buf[n]?
      if b = 0 then stripZeros buf n else some (n + 1)

/-- `if(len < block_size) memset(buf + len, 0, block_size - len)`. -/
def clearBlock (buf : Bytes) (len : Nat) : Option Bytes :=
  if len < 8 then writeN buf len (List.replicate (8 - len) 0) else some buf

/-- `_unpadding_block`: the buffer and the new length. -/
def unpaddingBlock (buf : Bytes) (len : Nat) : Padding → Option (Bytes × Nat)
  | .pkcs5 | .pkcs7 =>
      if len = 0 then some (buf, len)
      else do
        let pad ← buf[subSz len 1]?
        if pad = 0 ∨ pad > 8 then some (buf, len)
        else do
          let start := subSz len pad.toNat
          let same ← allAt buf (· = pad) start (len - start)
          if same then do
            let buf ← writeN buf start (List.replicate pad.toNat 0)
            some (buf, start)
          else some (buf, len)
  | .zero => do
      let len ← stripZeros buf len
      let buf ← clearBlock buf len
      some (buf, len)
  | .iso10126 =>
      if len = 0 then some (buf, len)
      else do
        let pad ← buf[subSz len 1]?
        if pad = 0 ∨ pad > 8 then some (buf, len)
        else do
          let start := subSz len pad.toNat
          let buf ← writeN buf start (List.replicate pad.toNat 0)
          some (buf, start)
  | .ansix923 =>
      if len = 0 then some (buf, len)
      else do
        let pad ← buf[subSz len 1]?
        if pad = 0 ∨ pad > 8 then some (buf, len)
        else do
          let start := subSz len pad.toNat
          let zeros ← allAt buf (· = 0) start (subSz len 1 - start)
          if zeros then some (buf, start) else some (buf, len)
  | .isoIec7816_4 => do
      -- `i` runs down from `(int)(len - 1)`; `n` is `i + 1`
      let i := toInt (subSz len 1)
      let n ← if i < 0 then some 0 else stripZeros buf (i.toNat + 1)
      let len ←
        if n = 0 then some len
        else do
          let b ← buf[n - 1]?
          some (if b = 0x80 then n - 1 else len)
      let buf ← clearBlock buf len
      some (buf, len)
  | .noPadding => some (buf, len)

/-! ## The key cascade -/

section Cipher

variable (api : DesApi)

/-- `_multiple_key`. -/
def multipleKey (key : Bytes) : Option (List api.KeySchedule) :=
  (List.range (key.length / 8)).mapM fun i => (readBlock key (i * 8)).map api.setKeyUnchecked

/-- `_ede_encrypt`. -/
def edeEncrypt : List api.KeySchedule → Block → Block
  | [k0], b => api.ecbEncrypt k0 .encrypt b
  | [k0, k1], b =>
      api.ecbEncrypt k0 .encrypt (api.ecbEncrypt k1 .decrypt (api.ecbEncrypt k0 .encrypt b))
  | [k0, k1, k2], b =>
      api.ecbEncrypt k2 .encrypt (api.ecbEncrypt k1 .decrypt (api.ecbEncrypt k0 .encrypt b))
  | ks, b =>
      ks.zipIdx.foldl
        (fun b ki => api.ecbEncrypt ki.1 (if ki.2 % 2 = 0 then .encrypt else .decrypt) b) b

/-- `_ede_decrypt`. -/
def edeDecrypt : List api.KeySchedule → Block → Block
  | [k0], b => api.ecbEncrypt k0 .decrypt b
  | [k0, k1], b =>
      api.ecbEncrypt k0 .decrypt (api.ecbEncrypt k1 .encrypt (api.ecbEncrypt k0 .decrypt b))
  | [k0, k1, k2], b =>
      api.ecbEncrypt k0 .decrypt (api.ecbEncrypt k1 .encrypt (api.ecbEncrypt k2 .decrypt b))
  | ks, b =>
      ks.zipIdx.reverse.foldl
        (fun b ki => api.ecbEncrypt ki.1 (if ki.2 % 2 = 0 then .decrypt else .encrypt) b) b

/-- `for(i = 7; i >= 0; --i) if(++ctr_block[i] != 0) break;`, from `i`
down. -/
def incFrom (l : Bytes) : Nat → Bytes
  | 0 => l.modify 0 (· + 1)
  | i + 1 =>
      let l := l.modify (i + 1) (· + 1)
      if l[i + 1]? = some 0 then incFrom l i else l

theorem length_incFrom (l : Bytes) (i : Nat) : (incFrom l i).length = l.length := by
  induction i generalizing l with
  | zero => simp [incFrom]
  | succ i ih =>
    simp only [incFrom]
    split
    · rw [ih]; simp
    · simp

/-- The big-endian counter step. -/
def incCtr (b : Block) : Block := ⟨incFrom b.val 7, by rw [length_incFrom]; exact b.property⟩

/-! ## Buffer encryption, mode by mode -/

/-- A mode body's loop state: index, destination, chaining block. -/
structure Cursor where
  idx : Nat
  dst : Bytes
  iv : Block

variable (ks : List api.KeySchedule) (rnd : Nat → UInt8)

/-- The loop body of `case mode::ecb` of `encrypt`. -/
def ecbEncBody (src : Bytes) (s : Nat × Bytes) : Option (Nat × Bytes) := do
  let block ← readBlock src s.1
  let dst ← writeBlock s.2 s.1 (edeEncrypt api ks block)
  some (s.1 + 8, dst)

/-- `case mode::ecb` of `encrypt`. The `memset` before the early return
clears `dst_len = 0` bytes. -/
def encryptEcb (dst src : Bytes) (pad : Padding) : Option Result := do
  let s ← loop (fun s => decide (s.1 + 8 ≤ src.length)) (ecbEncBody api ks src)
    (src.length + 1) (0, dst)
  let remain := src.length - s.1
  if pad = .noPadding ∧ remain > 0 then some ⟨.invalidPadding, s.2, 0⟩
  else if remain > 0 ∨ isNeedPadding pad then do
    let data ← readN src s.1 remain
    let dst ← writeBlock s.2 s.1 (edeEncrypt api ks (paddingBlock rnd data pad))
    some ⟨.ok, dst, s.1 + 8⟩
  else some ⟨.ok, s.2, s.1⟩

/-- The loop body of `case mode::cbc` of `encrypt`. -/
def cbcEncBody (src : Bytes) (s : Cursor) : Option Cursor := do
  let block ← readBlock src s.idx
  let block := edeEncrypt api ks (block.xor s.iv)
  let dst ← writeBlock s.dst s.idx block
  some ⟨s.idx + 8, dst, block⟩

/-- `case mode::cbc` of `encrypt`. -/
def encryptCbc (dst src : Bytes) (pad : Padding) (iv : Bytes) : Option Result := do
  let ivBlock ← readBlock iv 0
  let s ← loop (fun s => decide (s.idx + 8 ≤ src.length)) (cbcEncBody api ks src)
    (src.length + 1) ⟨0, dst, ivBlock⟩
  let remain := src.length - s.idx
  if pad = .noPadding ∧ remain > 0 then some ⟨.invalidPadding, s.dst, 0⟩
  else if remain > 0 ∨ isNeedPadding pad then do
    let data ← readN src s.idx remain
    let lastBlock := (paddingBlock rnd data pad).xor s.iv
    let dst ← writeBlock s.dst s.idx (edeEncrypt api ks lastBlock)
    some ⟨.ok, dst, s.idx + 8⟩
  else some ⟨.ok, s.dst, s.idx⟩

/-- The last, partial block of the feedback modes without padding:
`for(k < remain) dst[idx + k] = src[idx + k] ^ block[k]`. -/
def xorTail (dst src : Bytes) (idx remain : Nat) (block : Block) : Option Bytes := do
  let data ← readN src idx remain
  writeN dst idx (List.zipWith (· ^^^ ·) data block.val)

/-- What `case mode::cfb` and `case mode::ofb` hand to `_padding_block`:
the bytes that remain, or `nullptr` and 0. -/
def remainBytes (src : Bytes) (idx remain : Nat) : Option Bytes :=
  if remain > 0 then readN src idx remain else some []

/-- The loop body of `case mode::cfb` of `encrypt`; `Cursor.idx` counts
blocks, and the next chaining block is read back from `dst`. -/
def cfbEncBody (src : Bytes) (s : Cursor) : Option Cursor := do
  let data ← readBlock src (s.idx * 8)
  let dst ← writeBlock s.dst (s.idx * 8) (data.xor (edeEncrypt api ks s.iv))
  let iv ← readBlock dst (s.idx * 8)
  some ⟨s.idx + 1, dst, iv⟩

/-- `case mode::cfb` of `encrypt`. -/
def encryptCfb (dst src : Bytes) (pad : Padding) (iv : Bytes) : Option Result := do
  let ivBlock ← readBlock iv 0
  let fullBlocks := src.length / 8
  let remain := src.length % 8
  let s ← loop (fun s => decide (s.idx < fullBlocks)) (cfbEncBody api ks src)
    (fullBlocks + 1) ⟨0, dst, ivBlock⟩
  let idx := fullBlocks * 8
  if isNeedPadding pad then do
    let data ← remainBytes src idx remain
    let dst ← writeBlock s.dst idx ((paddingBlock rnd data pad).xor (edeEncrypt api ks s.iv))
    some ⟨.ok, dst, idx + 8⟩
  else if remain > 0 then
    if pad = .noPadding then some ⟨.invalidPadding, s.dst, 0⟩
    else do
      let dst ← xorTail s.dst src idx remain (edeEncrypt api ks s.iv)
      some ⟨.ok, dst, idx + remain⟩
  else some ⟨.ok, s.dst, idx⟩

/-- The loop body of `case mode::ofb`, the same statements in `encrypt`
and in `decrypt`; `Cursor.idx` counts blocks. -/
def ofbBody (src : Bytes) (s : Cursor) : Option Cursor := do
  let block := edeEncrypt api ks s.iv
  let data ← readBlock src (s.idx * 8)
  let dst ← writeBlock s.dst (s.idx * 8) (data.xor block)
  some ⟨s.idx + 1, dst, block⟩

/-- `case mode::ofb` of `encrypt`. -/
def encryptOfb (dst src : Bytes) (pad : Padding) (iv : Bytes) : Option Result := do
  let ivBlock ← readBlock iv 0
  let fullBlocks := src.length / 8
  let remain := src.length % 8
  if pad = .noPadding ∧ remain > 0 then some ⟨.invalidPadding, dst, 0⟩
  else do
    let s ← loop (fun s => decide (s.idx < fullBlocks)) (ofbBody api ks src)
      (fullBlocks + 1) ⟨0, dst, ivBlock⟩
    let idx := fullBlocks * 8
    if isNeedPadding pad then do
      let data ← remainBytes src idx remain
      let dst ← writeBlock s.dst idx ((paddingBlock rnd data pad).xor (edeEncrypt api ks s.iv))
      some ⟨.ok, dst, idx + 8⟩
    else if remain > 0 then do
      let dst ← xorTail s.dst src idx remain (edeEncrypt api ks s.iv)
      some ⟨.ok, dst, idx + remain⟩
    else some ⟨.ok, s.dst, idx⟩

/-- The block `case mode::ctr` of `encrypt` takes at `idx`. -/
def ctrBlock (src : Bytes) (pad : Padding) (idx : Nat) : Option Block :=
  if idx + 8 ≤ src.length then readBlock src idx
  else if idx < src.length then
    (readN src idx (src.length - idx)).map fun data => paddingBlock rnd data pad
  else some (paddingBlock rnd [] pad)

/-- `padded_len` of `case mode::ctr`. -/
def ctrPaddedLen (srcLen : Nat) (pad : Padding) : Nat :=
  if isNeedPadding pad then
    let p := 8 - srcLen % 8
    srcLen + (if p = 0 then 8 else p)
  else srcLen

/-- The loop body of `case mode::ctr` of `encrypt`. -/
def ctrEncBody (src : Bytes) (pad : Padding) (s : Cursor) : Option Cursor := do
  let block ← ctrBlock rnd src pad s.idx
  let dst ← writeBlock s.dst s.idx (block.xor (edeEncrypt api ks s.iv))
  some ⟨s.idx + 8, dst, incCtr s.iv⟩

/-- `case mode::ctr` of `encrypt`. -/
def encryptCtr (dst src : Bytes) (pad : Padding) (iv : Bytes) : Option Result := do
  let ctr ← readBlock iv 0
  let paddedLen := ctrPaddedLen src.length pad
  let s ← loop (fun s => decide (s.idx < paddedLen)) (ctrEncBody api ks rnd src pad)
    (paddedLen + 1) ⟨0, dst, ctr⟩
  some ⟨.ok, s.dst, paddedLen⟩

end Cipher

variable (api : DesApi)

/-- `encrypt`, the buffer overload. `dstLen` is what `dst_len` holds on
entry; it is set to zero once the arguments have passed their checks. -/
def encrypt (rnd : Nat → UInt8) (dst : Option Bytes) (dstLen : Nat) (src key : Option Bytes)
    (mod : Mode) (pad : Padding) (iv : Option Bytes) : Option Result :=
  let fails (c : ErrorCode) : Option Result := some ⟨c, dst.getD [], dstLen⟩
  if !isKeyValid key then fails .invalidKey
  else if !isIvValid mod iv then fails .invalidIv
  else if !isPlainValid src pad then fails .invalidPlain
  else do
    match dst with
    | none => fails .bufferTooSmall
    | some dst =>
        let ks ← key.bind (multipleKey api)
        let src ← src
        match mod, iv with
        | .ecb, _ => encryptEcb api ks rnd dst src pad
        | _, none => some ⟨.invalidIv, dst, 0⟩
        | .cbc, some iv => encryptCbc api ks rnd dst src pad iv
        | .cfb, some iv => encryptCfb api ks rnd dst src pad iv
        | .ofb, some iv => encryptOfb api ks rnd dst src pad iv
        | .ctr, some iv => encryptCtr api ks rnd dst src pad iv

/-! ## Buffer decryption, mode by mode -/

section Decrypt

variable (ks : List api.KeySchedule)

/-- The loop body of `case mode::ecb` of `decrypt`. -/
def ecbDecBody (src : Bytes) (s : Nat × Bytes) : Option (Nat × Bytes) := do
  let block ← readBlock src s.1
  let dst ← writeBlock s.2 s.1 (edeDecrypt api ks block)
  some (s.1 + 8, dst)

/-- `case mode::ecb` of `decrypt`: the destination and `dst_len`. -/
def decryptEcb (dst src : Bytes) : Option (Bytes × Nat) := do
  let s ← loop (fun s => decide (s.1 < src.length)) (ecbDecBody api ks src)
    (src.length + 1) (0, dst)
  some (s.2, s.1)

/-- The loop body of `case mode::cbc` of `decrypt`. -/
def cbcDecBody (src : Bytes) (s : Cursor) : Option Cursor := do
  let block ← readBlock src s.idx
  let dst ← writeBlock s.dst s.idx ((edeDecrypt api ks block).xor s.iv)
  some ⟨s.idx + 8, dst, block⟩

/-- `case mode::cbc` of `decrypt`. -/
def decryptCbc (dst src iv : Bytes) : Option (Bytes × Nat) := do
  let ivBlock ← readBlock iv 0
  let s ← loop (fun s => decide (s.idx < src.length)) (cbcDecBody api ks src)
    (src.length + 1) ⟨0, dst, ivBlock⟩
  some (s.dst, s.idx)

/-- The loop body of `case mode::cfb` of `decrypt`; `Cursor.idx` counts
blocks, and the next chaining block is the ciphertext block. -/
def cfbDecBody (src : Bytes) (s : Cursor) : Option Cursor := do
  let data ← readBlock src (s.idx * 8)
  let dst ← writeBlock s.dst (s.idx * 8) (data.xor (edeEncrypt api ks s.iv))
  let iv ← readBlock src (s.idx * 8)
  some ⟨s.idx + 1, dst, iv⟩

/-- `case mode::cfb` of `decrypt`. -/
def decryptCfb (dst src iv : Bytes) : Option (Bytes × Nat) := do
  let ivBlock ← readBlock iv 0
  let fullBlocks := src.length / 8
  let remain := src.length % 8
  let s ← loop (fun s => decide (s.idx < fullBlocks)) (cfbDecBody api ks src)
    (fullBlocks + 1) ⟨0, dst, ivBlock⟩
  let idx := fullBlocks * 8
  if remain > 0 then do
    let dst ← xorTail s.dst src idx remain (edeEncrypt api ks s.iv)
    some (dst, idx + remain)
  else some (s.dst, idx)

/-- `case mode::ofb` of `decrypt`. -/
def decryptOfb (dst src iv : Bytes) : Option (Bytes × Nat) := do
  let ivBlock ← readBlock iv 0
  let fullBlocks := src.length / 8
  let remain := src.length % 8
  let s ← loop (fun s => decide (s.idx < fullBlocks)) (ofbBody api ks src)
    (fullBlocks + 1) ⟨0, dst, ivBlock⟩
  let idx := fullBlocks * 8
  if remain > 0 then do
    let dst ← xorTail s.dst src idx remain (edeEncrypt api ks s.iv)
    some (dst, idx + remain)
  else some (s.dst, idx)

/-- The loop body of `case mode::ctr` of `decrypt`. -/
def ctrDecBody (src : Bytes) (s : Cursor) : Option Cursor := do
  let keystream := edeEncrypt api ks s.iv
  let chunk := if src.length - s.idx ≥ 8 then 8 else src.length - s.idx
  let dst ← xorTail s.dst src s.idx chunk keystream
  some ⟨s.idx + chunk, dst, incCtr s.iv⟩

/-- `case mode::ctr` of `decrypt`. -/
def decryptCtr (dst src iv : Bytes) : Option (Bytes × Nat) := do
  let ctr ← readBlock iv 0
  let s ← loop (fun s => decide (s.idx < src.length)) (ctrDecBody api ks src)
    (src.length + 1) ⟨0, dst, ctr⟩
  some (s.dst, s.idx)

end Decrypt

/-- `decrypt`, the buffer overload. The source pointer is not checked:
`src` is the buffer itself. -/
def decrypt (dst : Option Bytes) (dstLen : Nat) (src : Bytes) (key : Option Bytes)
    (mod : Mode) (pad : Padding) (iv : Option Bytes) : Option Result :=
  let fails (c : ErrorCode) : Option Result := some ⟨c, dst.getD [], dstLen⟩
  if !isKeyValid key then fails .invalidKey
  else if !isIvValid mod iv then fails .invalidIv
  else do
    match dst with
    | none => fails .bufferTooSmall
    | some dst =>
        let ks ← key.bind (multipleKey api)
        let (dst, dstLen) ←
          match mod, iv with
          | .ecb, _ => decryptEcb api ks dst src
          | _, none => none
          | .cbc, some iv => decryptCbc api ks dst src iv
          | .cfb, some iv => decryptCfb api ks dst src iv
          | .ofb, some iv => decryptOfb api ks dst src iv
          | .ctr, some iv => decryptCtr api ks dst src iv
        let (dst, dstLen) ← unpaddingBlock dst dstLen pad
        some ⟨.ok, dst, dstLen⟩

/-! ## The stream overloads -/

section Stream

variable (ks : List api.KeySchedule)

/-- The chaining blocks a stream overload keeps: `iv_block` and
`ctr_block`. Each is read only in the modes that set it. -/
structure Chain where
  iv : Block
  ctr : Block

/-- `_stream_block_encrypt`: the chaining blocks after it and the block
it writes. -/
def streamBlockEncrypt (mod : Mode) (ch : Chain) (inbuf : Block) : Chain × Block :=
  match mod with
  | .ecb => (ch, edeEncrypt api ks inbuf)
  | .cbc =>
      let block := edeEncrypt api ks (inbuf.xor ch.iv)
      ({ ch with iv := block }, block)
  | .cfb =>
      let outbuf := inbuf.xor (edeEncrypt api ks ch.iv)
      ({ ch with iv := outbuf }, outbuf)
  | .ofb =>
      let block := edeEncrypt api ks ch.iv
      ({ ch with iv := block }, inbuf.xor block)
  | .ctr => ({ ch with ctr := incCtr ch.ctr }, inbuf.xor (edeEncrypt api ks ch.ctr))

/-- The `switch` of the stream overload of `decrypt`. -/
def streamBlockDecrypt (mod : Mode) (ch : Chain) (inbuf : Block) : Chain × Block :=
  match mod with
  | .ecb => (ch, edeDecrypt api ks inbuf)
  | .cbc => ({ ch with iv := inbuf }, (edeDecrypt api ks inbuf).xor ch.iv)
  | .cfb => ({ ch with iv := inbuf }, inbuf.xor (edeEncrypt api ks ch.iv))
  | .ofb =>
      let block := edeEncrypt api ks ch.iv
      ({ ch with iv := block }, inbuf.xor block)
  | .ctr => ({ ch with ctr := incCtr ch.ctr }, inbuf.xor (edeEncrypt api ks ch.ctr))

/-- The blocks `iv_block` and `ctr_block` start from. Without an iv of 8
bytes they are left unset; any value stands for that. -/
def chainOf (iv : Option Bytes) : Chain :=
  match iv.bind (readBlock · 0) with
  | some b => ⟨b, b⟩
  | none => ⟨⟨List.replicate 8 0, rfl⟩, ⟨List.replicate 8 0, rfl⟩⟩

/-- Whether the stream holds nothing after the block just read: one byte
is read and, if there was one, put back. -/
def atLastBlock (inp : IStream) : Bool × IStream :=
  let p := inp.read 1
  if !p.1.ok then (true, p.1) else (false, p.1.seekBack)

/-- The loop of the stream overload of `encrypt`. `none` means the fuel
ran out. -/
def encryptStreamLoop (rnd : Nat → UInt8) (mod : Mode) (pad : Padding) :
    Nat → IStream → OStream → Chain → Option (ErrorCode × OStream)
  | 0, _, _, _ => none
  | fuel + 1, inp, out, ch =>
      let (inp, got) := inp.read 8
      if got.length = 0 then some (.ok, out)
      else
        match readBlock got 0 with
        | none =>
            -- fewer than 8 bytes: the last block
            if pad = .noPadding then some (.invalidPadding, out)
            else
              let (_, c) := streamBlockEncrypt api ks mod ch (paddingBlock rnd got pad)
              some (.ok, out.write c.val)
        | some inbuf =>
            let (last, inp) := atLastBlock inp
            let (ch, c) := streamBlockEncrypt api ks mod ch inbuf
            let out := out.write c.val
            if !last then encryptStreamLoop rnd mod pad fuel inp out ch
            else if pad = .noPadding then some (.ok, out)
            else
              let (_, c) := streamBlockEncrypt api ks mod ch (paddingBlock rnd [] pad)
              some (.ok, out.write c.val)

/-- `if(has_previous_block) out.write(prev_outbuf, block_size)`. -/
def writePrev (out : OStream) : Option Block → OStream
  | some b => out.write b.val
  | none => out

/-- The loop of the stream overload of `decrypt`; `prev` is the block held
back, if there is one. -/
def decryptStreamLoop (mod : Mode) (pad : Padding) :
    Nat → IStream → OStream → Chain → Option Block → Option (ErrorCode × OStream)
  | 0, _, _, _, _ => none
  | fuel + 1, inp, out, ch, prev =>
      if !inp.ok then some (.ok, out)
      else
        let (inp, got) := inp.read 8
        if got.length = 0 then some (.ok, out)
        else
          match readBlock got 0 with
          | none => some (.invalidPadding, out)
          | some inbuf =>
              let (ch, outbuf) := streamBlockDecrypt api ks mod ch inbuf
              let (last, inp) := atLastBlock inp
              let out := writePrev out prev
              if last then
                if pad = .noPadding then some (.ok, out.write outbuf.val)
                else do
                  let (buf, len) ← unpaddingBlock outbuf.val 8 pad
                  some (.ok, out.write (buf.take len))
              else decryptStreamLoop mod pad fuel inp out ch (some outbuf)

end Stream

/-- `encrypt`, the stream overload. -/
def encryptStream (rnd : Nat → UInt8) (out : OStream) (inp : IStream) (key : Option Bytes)
    (mod : Mode) (pad : Padding) (iv : Option Bytes) : Option (ErrorCode × OStream) :=
  if !inp.ok || !out.ok then some (.fileIoFailed, out)
  else if !isKeyValid key then some (.invalidKey, out)
  else if !isIvValid mod iv then some (.invalidIv, out)
  else do
    let ks ← key.bind (multipleKey api)
    encryptStreamLoop api ks rnd mod pad (inp.data.length + 1) inp out (chainOf iv)

/-- `decrypt`, the stream overload. -/
def decryptStream (out : OStream) (inp : IStream) (key : Option Bytes) (mod : Mode)
    (pad : Padding) (iv : Option Bytes) : Option (ErrorCode × OStream) :=
  if !inp.ok then some (.invalidInput, out)
  else if !out.ok then some (.invalidOutput, out)
  else if !isKeyValid key then some (.invalidKey, out)
  else if !isIvValid mod iv then some (.invalidIv, out)
  else do
    let ks ← key.bind (multipleKey api)
    decryptStreamLoop api ks mod pad (inp.data.length + 1) inp out (chainOf iv) none

end HighJump.Crypto.Des
