/-
HighJump.Crypto.Aes — `hj::aes` of `hj/crypto/aes.hpp`: the buffer and
stream overloads of `encrypt` and `decrypt`, and the paddings.

The block cipher and its modes are OpenSSL's; `Lib/Evp` is the interface
and the four overloads are embedded over it call by call. What the class
itself decides is here: which checks come first, what is padded and when,
where the tag goes, how a stream is cut into 16384-byte reads and which
of them is the last.

Pointers that may be null are `Option`s of the buffer they point to; the
length argument of a buffer that is there is its size. A function returns
`none` where the source would leave a buffer (its own, or by a length it
hands to a call), and where a vector or a string is asked for more than
its `max_size()`. The two narrowing casts of the source are `toInt`: of
the length of an update and of the iv length.

`fed` in a result is ghost: what each `EVP_*Update` was given.
-/
import HighJump.Crypto.Des
import HighJump.Lib.Evp

namespace HighJump.Crypto.Aes

open HighJump.Lib
open HighJump.Lib.Evp (Call Dir)
open HighJump.Crypto.Des (subSz toInt stripZeros)

/-! ## Types -/

/-- `aes::error_code`. -/
inductive ErrorCode where
  | ok | keyInvalid | ivInvalid | plainInvalid | paddingStyleInvalid | inputStreamInvalid
  | outputStreamInvalid | ctxAllocFailed | cipherCtlFailed | getTagFailed | fileOpenFailed
  | fileReadFailed | fileWriteFailed | paramInvalid | passwdInvalid | pbkdf2DeriveFailed
  | encryptFailed | encryptInitFailed | encryptUpdateFailed | encryptFinalFailed
  | decryptFailed | decryptInitFailed | decryptUpdateFailed | decryptFinalFailed
  deriving DecidableEq, Repr

/-- `aes::mode` (`cfb` is another name of `cfb128`). -/
inductive Mode where
  | ecb | cbc | cfb1 | cfb8 | cfb128 | ofb | ctr | gcm | ccm | xts | wrap | wrapPad
  | cbcHmacSha1 | cbcHmacSha256 | ocb
  deriving DecidableEq, Repr

/-- `aes::padding`. -/
inductive Padding where
  | pkcs5 | pkcs7 | zero | iso10126 | ansix923 | isoIec7816_4 | noPadding
  deriving DecidableEq, Repr

abbrev Bytes := List UInt8

/-- `AES_BUF_SIZE`. -/
def aesBufSize : Nat := 16384

/-- `max_size()` of a vector or string of bytes. -/
def maxSize : Nat := 2 ^ 63 - 1

/-- `resize(n)` of a string. -/
def resize (s : Bytes) (n : Nat) : Option Bytes :=
  if n ≤ maxSize then some (s.take n ++ List.replicate (n - s.length) 0) else none

/-- The `EVP_CIPHER` that `EVP_aes_<bits>_<mode>()` names. -/
structure Cipher where
  mode : Mode
  keyLen : Nat
  deriving DecidableEq, Repr

/-- What a buffer overload leaves behind: its code, the destination
buffer, `dst_len`, and what went through the updates. -/
structure Result where
  code : ErrorCode
  dst : Bytes
  dstLen : Nat
  fed : List Bytes
  deriving DecidableEq, Repr

/-- What a stream overload leaves behind. -/
structure StreamResult where
  code : ErrorCode
  out : OStream
  fed : List Bytes
  deriving DecidableEq, Repr

/-! ## Validity and sizes -/

/-- `is_aead_mode`. -/
def isAeadMode : Mode → Bool
  | .gcm | .ccm => true
  | _ => false

/-- `is_key_valid`. -/
def isKeyValid (mod : Mode) : Option Bytes → Bool
  | none => false
  | some key =>
      match mod with
      | .xts | .cbcHmacSha1 | .cbcHmacSha256 => key.length == 16 || key.length == 32
      | _ => key.length == 16 || key.length == 24 || key.length == 32

/-- `is_iv_valid`. -/
def isIvValid (mod : Mode) (iv : Option Bytes) : Bool :=
  match mod, iv with
  | .ecb, iv | .wrap, iv | .wrapPad, iv => iv.isNone
  | _, none => false
  | .gcm, some iv => 1 ≤ iv.length
  | .ccm, some iv => 7 ≤ iv.length && iv.length ≤ 13
  | .cfb1, some iv | .cfb8, some iv => 0 < iv.length
  | .ocb, some iv => 1 ≤ iv.length && iv.length ≤ 15
  | _, some iv => iv.length == 16

/-- `_select_cipher`. -/
def selectCipher (mod : Mode) (keyLen : Nat) : Option Cipher :=
  match mod with
  | .xts | .cbcHmacSha1 | .cbcHmacSha256 =>
      if keyLen = 16 ∨ keyLen = 32 then some ⟨mod, keyLen⟩ else none
  | _ => if keyLen = 16 ∨ keyLen = 24 ∨ keyLen = 32 then some ⟨mod, keyLen⟩ else none

section Overloads

variable (evp : Evp.Api Cipher)

/-- `_get_block_size`; `EVP_CIPHER_block_size` of a null cipher is 0. -/
def getBlockSize (mod : Mode) (keyLen : Nat) : Nat :=
  match mod with
  | .ecb | .cbc | .cfb128 | .ofb | .ctr => 16
  | .cfb8 | .cfb1 => 1
  | _ => (selectCipher mod keyLen).elim 0 evp.blockSize

/-- `a % b`, which is not defined for `b = 0`. -/
def modulus (a b : Nat) : Option Nat := if b = 0 then none else some (a % b)

/-- `encrypt_len_reserve`. -/
def encryptLenReserve (srcLen : Nat) (mod : Mode) (keyLen : Nat) : Nat :=
  let blockSize := getBlockSize evp mod keyLen
  if blockSize ≥ 8 then (srcLen / blockSize + 2) * blockSize else srcLen + 16

/-- `decrypt_len_reserve`. -/
def decryptLenReserve (srcLen : Nat) : Nat := srcLen

/-- `pad_style == padding::no_padding && len % block_size != 0`. -/
def isRagged (blockSize : Nat) (pad : Padding) (len : Nat) : Option Bool :=
  if pad = .noPadding then (modulus len blockSize).map (· != 0) else some false

/-- `is_plain_valid` on a length. -/
def isPlainValid (mod : Mode) (keyLen : Nat) (pad : Padding) (plainLen : Nat) : Option Bool :=
  (isRagged (getBlockSize evp mod keyLen) pad plainLen).map (!·)

/-- `is_plain_valid` on a stream: the length is taken by seeking to the
end and back. -/
def isPlainValidStream (mod : Mode) (keyLen : Nat) (pad : Padding) (inp : IStream) :
    Option (Bool × IStream) :=
  if !inp.ok then some (false, inp)
  else if pad = .noPadding then do
    let (currentPos, inp) := inp.tellg
    let inp := inp.seekEnd
    let (endPos, inp) := inp.tellg
    let inp := inp.seekg currentPos
    let r ← modulus (endPos - currentPos).toNat (getBlockSize evp mod keyLen)
    some (r == 0, inp)
  else some (true, inp)

/-! ## Padding -/

/-- `_padding_block`; `rnd i` is what `rand()` gives for position `i`. -/
def paddingBlock (rnd : Nat → UInt8) (mod : Mode) (keyLen : Nat) (pad : Padding) (src : Bytes) :
    Option Bytes :=
  let blockSize := getBlockSize evp mod keyLen
  if pad ≠ .noPadding ∧ blockSize > 1 then do
    let r ← modulus src.length blockSize
    let padVal := UInt8.ofNat (blockSize - r)
    let padVal := if padVal = 0 then UInt8.ofNat blockSize else padVal
    let paddedLen := src.length + padVal.toNat
    -- resize with zeros, then memcpy of the source
    let base := src ++ List.replicate padVal.toNat 0
    match pad with
    | .pkcs5 | .pkcs7 => some (base.mapIdx fun i b => if src.length ≤ i then padVal else b)
    | .iso10126 =>
        some ((base.mapIdx fun i b => if src.length ≤ i ∧ i < paddedLen - 1 then rnd i else b).set
          (paddedLen - 1) padVal)
    | .ansix923 => some (base.set (paddedLen - 1) padVal)
    | .isoIec7816_4 => some (base.set src.length 0x80)
    | .zero | .noPadding => some base
  else some src

/-- `for(i = start; i < stop; ++i) if(!p(dst[i])) valid = false`. -/
def scan (dst : Bytes) (p : UInt8 → Bool) (start stop : Nat) : Option Bool :=
  if start < stop then (readN dst start (stop - start)).map (·.all p) else some true

/-- `_unpadding_block`: the new length. Nothing is written. -/
def unpaddingBlock (dst : Bytes) (dstLen : Nat) (mod : Mode) (pad : Padding) (blockSize : Nat) :
    Option Nat :=
  if !isAeadMode mod && pad != .noPadding && decide (blockSize > 1) then
    match pad with
    | .pkcs5 | .pkcs7 =>
        if dstLen = 0 then some dstLen
        else do
          let p ← dst[subSz dstLen 1]?
          if p = 0 ∨ p.toNat > blockSize then some dstLen
          else do
            let start := subSz dstLen p.toNat
            let valid ← scan dst (· == p) start dstLen
            some (if valid then start else dstLen)
    | .zero => stripZeros dst dstLen
    | .iso10126 =>
        if dstLen = 0 then some dstLen
        else do
          let p ← dst[subSz dstLen 1]?
          if p = 0 ∨ p.toNat > blockSize then some dstLen else some (subSz dstLen p.toNat)
    | .ansix923 =>
        if dstLen = 0 then some dstLen
        else do
          let p ← dst[subSz dstLen 1]?
          if p = 0 ∨ p.toNat > blockSize then some dstLen
          else do
            let start := subSz dstLen p.toNat
            let valid ← scan dst (· == 0) start (subSz dstLen 1)
            some (if valid then start else dstLen)
    | .isoIec7816_4 => do
        -- `i` runs down from `(int)(dst_len - 1)`; `n` is `i + 1`
        let i := toInt (subSz dstLen 1)
        let n ← if i < 0 then some 0 else stripZeros dst (i.toNat + 1)
        if n = 0 then some dstLen
        else do
          let b ← dst[n - 1]?
          some (if b = 0x80 then n - 1 else dstLen)
    | .noPadding => some dstLen
  else some dstLen

/-! ## Opening a context -/

/-- The code for a failed `EVP_*Init_ex`. -/
def initFailed : Dir → ErrorCode
  | .enc => .encryptInitFailed
  | .dec => .decryptInitFailed

/-- `if(is_aead && iv && iv_len > 0) EVP_CIPHER_CTX_ctrl(.., SET_IVLEN, (int)iv_len, ..)`. -/
def setIvLen (mod : Mode) (ctx : evp.Ctx) : Option Bytes → Call evp.Ctx
  | some iv =>
      if isAeadMode mod && decide (iv.length > 0) then evp.setIvLen ctx (toInt iv.length)
      else .ret ctx
  | none => .ret ctx

/-- From `EVP_CIPHER_CTX_new` to the padding switch, the same lines in all
four overloads but for one argument: three of them name the cipher again
in the second `EVP_*Init_ex` (`again`), the buffer overload of `decrypt`
passes `NULL`. -/
def openCtx (d : Dir) (again : Bool) (mod : Mode) (key : Bytes) (iv : Option Bytes) :
    Option (Except ErrorCode evp.Ctx) :=
  match evp.ctxNew with
  | none => some (.error .ctxAllocFailed)
  | some ctx =>
      match selectCipher mod key.length with
      | none => some (.error (initFailed d))
      | some cipher =>
          let initFails := some (.error (initFailed d))
          (evp.init d ctx (some cipher) none none).check initFails fun ctx =>
          (setIvLen evp mod ctx iv).check (some (.error .cipherCtlFailed)) fun ctx =>
          (evp.init d ctx (if again then some cipher else none) (some key) iv).check initFails
            fun ctx => some (.ok (if isAeadMode mod then ctx else evp.setPadding ctx false))

/-! ## The buffer overloads -/

/-- What an update is given of a buffer whose length is cast to `int`. -/
def handed (buf : Bytes) : Bytes := buf.take (toInt buf.length).toNat

/-- The buffer overload of `encrypt` from `EVP_EncryptUpdate` on. -/
def encryptWith (ctx : evp.Ctx) (dst : Bytes) (dstLen : Nat) (mod : Mode) (padded : Bytes) :
    Option Result :=
  let stops (c : ErrorCode) (dst : Bytes) (dstLen : Nat) : Option Result :=
    some ⟨c, dst, dstLen, [handed padded]⟩
  (evp.updateN .enc ctx padded (toInt padded.length)).check
    (stops .encryptUpdateFailed dst dstLen) fun (ctx, out1) => do
  let dst ← writeN dst 0 out1
  (evp.final .enc ctx).check (stops .encryptFinalFailed dst dstLen) fun (ctx, out2) => do
  let dst ← writeN dst out1.length out2
  let dstLen := out1.length + out2.length
  if isAeadMode mod then
    (evp.getTag ctx 16).check (stops .cipherCtlFailed dst dstLen) fun tag => do
    let dst ← writeN dst dstLen tag
    stops .ok dst (dstLen + 16)
  else stops .ok dst dstLen

/-- `encrypt`, the buffer overload. -/
def encrypt (rnd : Nat → UInt8) (dst : Bytes) (dstLen : Nat) (src : Bytes) (key : Option Bytes)
    (mod : Mode) (pad : Padding) (iv : Option Bytes) : Option Result := do
  let keyLen := (key.getD []).length
  let fails (c : ErrorCode) : Option Result := some ⟨c, dst, dstLen, []⟩
  let plainOk ← isPlainValid evp mod keyLen pad src.length
  if !plainOk then fails .plainInvalid
  else if !isKeyValid mod key then fails .keyInvalid
  else if !isIvValid mod iv then fails .ivInvalid
  else do
    let padded ← paddingBlock evp rnd mod keyLen pad src
    -- `padded_src` is a vector
    if padded.length > maxSize then none
    else
      match ← openCtx evp .enc true mod (key.getD []) iv with
      | .error c => fails c
      | .ok ctx => encryptWith evp ctx dst dstLen mod padded

/-- Where the buffer overload of `decrypt` finds ciphertext and tag: more
than 16 bytes of an authenticated mode end in the tag. -/
def splitTag (mod : Mode) (src : Bytes) : Bytes × Option Bytes :=
  if isAeadMode mod && decide (src.length > 16) then
    (src.take (src.length - 16), some (src.drop (src.length - 16)))
  else (src, none)

/-- `if(is_aead_mode(mod) && tag_ptr) EVP_CIPHER_CTX_ctrl(.., SET_TAG, ..)`: there is a tag only
in such a mode. -/
def setTag (ctx : evp.Ctx) : Option Bytes → Call evp.Ctx
  | some t => evp.setTag ctx t
  | none => .ret ctx

/-- The buffer overload of `decrypt` from the open context on. -/
def decryptWith (ctx : evp.Ctx) (dst : Bytes) (dstLen : Nat) (mod : Mode) (pad : Padding)
    (blockSize : Nat) (cipherText : Bytes) (tag : Option Bytes) : Option Result :=
  let stops (c : ErrorCode) (dst : Bytes) (dstLen : Nat) : Option Result :=
    some ⟨c, dst, dstLen, [handed cipherText]⟩
  (setTag evp ctx tag).check (some ⟨.cipherCtlFailed, dst, dstLen, []⟩) fun ctx =>
  (evp.updateN .dec ctx cipherText (toInt cipherText.length)).check
    (stops .decryptUpdateFailed dst dstLen) fun (ctx, out1) => do
  let dst ← writeN dst 0 out1
  (evp.final .dec ctx).check (stops .decryptFinalFailed dst dstLen) fun (_, out2) => do
  let dst ← writeN dst out1.length out2
  let dstLen ← unpaddingBlock dst (out1.length + out2.length) mod pad blockSize
  stops .ok dst dstLen

/-- `decrypt`, the buffer overload. -/
def decrypt (dst : Bytes) (dstLen : Nat) (src : Bytes) (key : Option Bytes) (mod : Mode)
    (pad : Padding) (iv : Option Bytes) : Option Result :=
  let fails (c : ErrorCode) : Option Result := some ⟨c, dst, dstLen, []⟩
  if !isKeyValid mod key then fails .keyInvalid
  else if !isIvValid mod iv then fails .ivInvalid
  else do
    let blockSize := getBlockSize evp mod (key.getD []).length
    let ragged ← isRagged blockSize pad src.length
    if ragged then fails .paddingStyleInvalid
    else do
      let (cipherText, tag) := splitTag mod src
      match ← openCtx evp .dec false mod (key.getD []) iv with
      | .error c => fails c
      | .ok ctx => decryptWith evp ctx dst dstLen mod pad blockSize cipherText tag

/-- The iv pointer of the string overloads. -/
def ivPtr (mod : Mode) (iv : Bytes) : Option Bytes := if mod = .ecb then none else some iv

/-- `decrypt`, the string overload: its code and what is in `dst` then. -/
def decryptString (dst src key : Bytes) (mod : Mode) (pad : Padding) (iv : Bytes) :
    Option (ErrorCode × Bytes) := do
  let dst ← resize dst (decryptLenReserve src.length)
  let r ← decrypt evp dst dst.length src (some key) mod pad (ivPtr mod iv)
  if r.code ≠ .ok then some (r.code, [])
  else do
    let dst ← resize r.dst r.dstLen
    some (.ok, dst)

/-! ## The stream overloads -/

/-- What a chunk loop holds: the two streams, the context and the chunks
already fed. -/
structure Pump where
  inp : IStream
  out : OStream
  ctx : evp.Ctx
  fed : List Bytes

/-- One `EVP_*Update` into `outbuf` (of `cap` bytes) and the write of what
it gave; on failure the code to return. -/
def feed (d : Dir) (cap : Nat) (code : ErrorCode) (p : Pump evp) (chunk : Bytes) :
    Option (Except StreamResult (Pump evp)) :=
  (evp.updateN d p.ctx chunk (toInt chunk.length)).check
    (some (.error ⟨code, p.out, p.fed ++ [chunk]⟩)) fun (ctx, o) =>
  if o.length ≤ cap then
    some (.ok { p with out := p.out.write o, ctx, fed := p.fed ++ [chunk] })
  else none

/-- The loop of the stream overload of `encrypt`: full reads are fed, the
short one is `last_plain`. -/
def encryptLoop (cap : Nat) : Nat → Pump evp → Option (Except StreamResult (Pump evp × Bytes))
  | 0, _ => none
  | fuel + 1, p =>
      let (inp, got) := p.inp.read aesBufSize
      if got.length < aesBufSize then some (.ok ({ p with inp }, got))
      else do
        match ← feed evp .enc cap .encryptUpdateFailed { p with inp } got with
        | .error r => some (.error r)
        | .ok p => encryptLoop cap fuel p

/-- The end of the stream overload of `encrypt`: the padded rest, the
final call and the tag. -/
def encryptTail (cap : Nat) (mod : Mode) (p : Pump evp) (padded : Bytes) :
    Option StreamResult := do
  match ← (if padded.length > 0 then feed evp .enc cap .encryptUpdateFailed p padded
      else some (.ok p)) with
  | .error r => some r
  | .ok p =>
      (evp.final .enc p.ctx).check (some ⟨.encryptFinalFailed, p.out, p.fed⟩) fun (ctx, out2) =>
      if out2.length ≤ cap then
        let out := if out2.length > 0 then p.out.write out2 else p.out
        if isAeadMode mod then
          (evp.getTag ctx 16).check (some ⟨.getTagFailed, out, p.fed⟩) fun tag =>
          some ⟨.ok, out.write tag, p.fed⟩
        else some ⟨.ok, out, p.fed⟩
      else none

/-- `encrypt`, the stream overload. -/
def encryptStream (rnd : Nat → UInt8) (out : OStream) (inp : IStream) (key : Option Bytes)
    (mod : Mode) (pad : Padding) (iv : Option Bytes) : Option StreamResult :=
  let fails (c : ErrorCode) : Option StreamResult := some ⟨c, out, []⟩
  if !inp.ok then fails .inputStreamInvalid
  else if !out.ok then fails .outputStreamInvalid
  else do
    let keyLen := (key.getD []).length
    let (plainOk, inp) ← isPlainValidStream evp mod keyLen pad inp
    if !plainOk then fails .plainInvalid
    else if !isKeyValid mod key then fails .keyInvalid
    else if !isIvValid mod iv then fails .ivInvalid
    else do
      let blockSize := getBlockSize evp mod keyLen
      let cap := aesBufSize + blockSize * 2
      match ← openCtx evp .enc true mod (key.getD []) iv with
      | .error c => fails c
      | .ok ctx =>
          match ← encryptLoop evp cap (inp.data.length + 1) ⟨inp, out, ctx, []⟩ with
          | .error r => some r
          | .ok (p, lastPlain) => do
              let padded ← paddingBlock evp rnd mod keyLen pad lastPlain
              encryptTail evp cap mod p padded

/-- The tag the stream overload of `decrypt` sets: zeros unless there are
more than 16 bytes. Also the ciphertext length, and the stream back at its
start. -/
def readTag (mod : Mode) (fileSize : Int) (inp : IStream) : Bytes × Int × IStream :=
  if isAeadMode mod && decide (fileSize > 16) then
    let cipherLen := fileSize - 16
    let (inp, got) := (inp.seekg cipherLen).read 16
    (got ++ List.replicate (16 - got.length) 0, cipherLen, inp.seekg 0)
  else (List.replicate 16 0, fileSize, inp)

/-- The loop of the stream overload of `decrypt`; `left` is
`cipher_len - total_read`. The chunk that reaches `cipher_len` is
`last_cipher`. -/
def decryptLoop (cap : Nat) :
    Nat → Int → Pump evp → Option (Except StreamResult (Pump evp × Bytes))
  | 0, _, _ => none
  | fuel + 1, left, p =>
      if left ≤ 0 then some (.ok (p, []))
      else
        let (inp, got) := p.inp.read (min aesBufSize left.toNat)
        let left := left - got.length
        if left = 0 then some (.ok ({ p with inp }, got))
        else do
          match ← feed evp .dec cap .decryptUpdateFailed { p with inp } got with
          | .error r => some (.error r)
          | .ok p => decryptLoop cap fuel left p

/-- The end of the stream overload of `decrypt`: the last chunk, the final
call, unpadding of what these two gave, and the write. What `outbuf` still
holds of earlier chunks is never looked at. -/
def decryptTail (cap : Nat) (mod : Mode) (pad : Padding) (blockSize : Nat) (p : Pump evp)
    (lastCipher : Bytes) : Option StreamResult := do
  let fed := if lastCipher.isEmpty then p.fed else p.fed ++ [lastCipher]
  (if lastCipher.isEmpty then .ret (p.ctx, [])
    else evp.updateN .dec p.ctx lastCipher (toInt lastCipher.length)).check
    (some ⟨.decryptUpdateFailed, p.out, fed⟩) fun (ctx, out1) => do
  let outbuf ← writeN (List.replicate cap 0) 0 out1
  (evp.final .dec ctx).check (some ⟨.decryptFinalFailed, p.out, fed⟩) fun (_, out2) => do
  let outbuf ← writeN outbuf out1.length out2
  let plainLen ← unpaddingBlock outbuf (out1.length + out2.length) mod pad blockSize
  let out ← if plainLen > 0 then p.out.writeSz outbuf plainLen else some p.out
  some ⟨.ok, out, fed⟩

/-- `decrypt`, the stream overload. The data is taken to be what stands
before the read position. -/
def decryptStream (out : OStream) (inp : IStream) (key : Option Bytes) (mod : Mode)
    (pad : Padding) (iv : Option Bytes) : Option StreamResult :=
  let fails (c : ErrorCode) : Option StreamResult := some ⟨c, out, []⟩
  if !inp.ok then fails .inputStreamInvalid
  else if !out.ok then fails .outputStreamInvalid
  else if !isKeyValid mod key then fails .keyInvalid
  else if !isIvValid mod iv then fails .ivInvalid
  else do
    let (fileSize, inp) := inp.tellg
    let inp := inp.seekg 0
    let blockSize := getBlockSize evp mod (key.getD []).length
    let (tag, cipherLen, inp) := readTag mod fileSize inp
    match ← openCtx evp .dec true mod (key.getD []) iv with
    | .error c => fails c
    | .ok ctx =>
        (if isAeadMode mod then evp.setTag ctx tag else .ret ctx).check (fails .cipherCtlFailed)
          fun ctx => do
        let cap := aesBufSize + blockSize * 2
        match ← decryptLoop evp cap (inp.data.length + 1) cipherLen ⟨inp, out, ctx, []⟩ with
        | .error r => some r
        | .ok (p, lastCipher) => decryptTail evp cap mod pad blockSize p lastCipher

end Overloads

end HighJump.Crypto.Aes
