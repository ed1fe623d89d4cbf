/-
HighJump.Apps.CryptoCore — the crypto core: `crypto_encrypt` and
`crypto_decrypt` over the encryptors and decryptors that `crypto_init`
registers.

A caller fills in the parameter block it required and reads the result in
the same block. With an empty `in`, and nothing in `out` when it calls, the
content goes from memory to memory; what the classes do with files is
`Files` here.

An encryptor checks its parameters against lists of its own before it does
anything. The lists of modes of `des_encryptor` and of paddings of
`rsa_encryptor` are empty, so nothing passes; what stands behind those
checks is never reached.
-/
import HighJump.Apps.DataMgr
import HighJump.Crypto.AesString
import HighJump.Crypto.Base64Stream
import HighJump.Crypto.Digest
import HighJump.Crypto.RsaKeygen
import HighJump.Util.CString

namespace HighJump.Apps.CryptoCore

open HighJump.Lib
open HighJump.Crypto HighJump.Encoding
open HighJump.Util (Bytes cstr strncpyS)

/-- The bytes of a literal. -/
def lit (s : String) : Bytes := s.toList.map fun c => UInt8.ofNat c.toNat

/-- The error codes of crypto_core.h, `OK` first. -/
inductive Code where
  | ok | fail
  | invalidFmt | invalidInput | invalidAlgo | invalidKey | invalidPadding | invalidIv | invalidMode
  | encryptAesFailed | encryptBase64Failed | encryptMd5Failed | encryptSha256Failed
  | decryptAesFailed | decryptBase64Failed
  | formatStyleNotFound | formatHexFailed | formatBase64Failed
  | unformatStyleNotFound | unformatHexFailed | unformatBase64Failed
  deriving DecidableEq, Repr

/-- The strings of one call. -/
structure Request where
  out : Bytes
  inp : Bytes
  content : Bytes
  algo : Bytes
  mode : Bytes
  key : Bytes
  passwd : Bytes
  padding : Bytes
  iv : Bytes
  fmt : Bytes

/-- What a class does with files. -/
structure Files where
  inputValid : Request → Option Bool
  run : Request → Option (Code × Bytes)

/-- The libraries, and the branches for files. -/
structure Env where
  evp : Evp.Api Aes.Cipher
  rnd : Nat → UInt8
  bio : Base64.Bio
  decoder : Base64Stream.Decoder
  md5 : Hash
  sha : Digest.Sha.Algorithm → Hash
  encrypting : Bytes → Files
  decrypting : Bytes → Files

section Core

variable (E : Env)

/-! ## `formator` -/

def isSupportedStyle (fmt : Bytes) : Bool :=
  fmt == lit "hex" || fmt == lit "base64" || fmt == lit "none" || fmt == lit ""

/-- `_format_memory`: the code and `out`. -/
def formatMemory (out inp fmt : Bytes) : Option (Code × Bytes) := do
  let (err, tmp) ←
    if fmt = lit "hex" then
      let tmp := Hex.encode inp true
      some (if tmp ≠ [] then Code.ok else .formatHexFailed, tmp)
    else if fmt = lit "base64" then
      (Base64Stream.encodeString E.bio inp).map fun (ec, tmp) =>
        (if ec = .ok then Code.ok else .formatBase64Failed, tmp)
    else if fmt = lit "none" ∨ fmt = lit "" then some (.ok, inp)
    else some (.formatStyleNotFound, inp)
  return (err, if err = .ok then tmp else out)

/-- `_unformat_memory`: `base64` decodes into `out`, not into the copy of
the input that then replaces it, and the error is not returned. -/
def unformatMemory (out inp fmt : Bytes) : Code × Bytes :=
  let (err, tmp, out) :=
    if fmt = lit "hex" then
      let tmp := Hex.decode inp
      (if tmp ≠ [] then Code.ok else .unformatHexFailed, tmp, out)
    else if fmt = lit "base64" then
      let (ec, out) := Base64Stream.decodeString E.decoder inp
      (if ec = .ok then Code.ok else .unformatBase64Failed, inp, out)
    else if fmt = lit "none" ∨ fmt = lit "" then (.ok, inp, out)
    else (.unformatStyleNotFound, inp, out)
  (.ok, if err = .ok then tmp else out)

/-! ## AES -/

/-- `str_to_aes_mode`, in the order of its tests; the default is `ecb`. -/
def aesModes : List (Bytes × Aes.Mode) :=
  [(lit "ecb", .ecb), (lit "cbc", .cbc), (lit "cfb1", .cfb1), (lit "cfb8", .cfb8),
    (lit "cfb128", .cfb128), (lit "cfb", .cfb128), (lit "ofb", .ofb), (lit "ctr", .ctr),
    (lit "gcm", .gcm), (lit "ccm", .ccm), (lit "xts", .xts), (lit "wrap", .wrap),
    (lit "wrap_pad", .wrapPad), (lit "cbc_hmac_sha1", .cbcHmacSha1),
    (lit "cbc_hmac_sha256", .cbcHmacSha256), (lit "ocb", .ocb)]

def strToAesMode (mode : Bytes) : Aes.Mode := (aesModes.lookup mode).getD .ecb

def aesPaddings : List (Bytes × Aes.Padding) :=
  [(lit "pkcs5", .pkcs5), (lit "pkcs7", .pkcs7), (lit "zero", .zero), (lit "iso10126", .iso10126),
    (lit "ansix923", .ansix923), (lit "iso_iec_7816_4", .isoIec7816_4),
    (lit "no_padding", .noPadding)]

def strToAesPadding (padding : Bytes) : Aes.Padding := (aesPaddings.lookup padding).getD .pkcs7

def supportedModes : List Bytes := aesModes.map Prod.fst

def supportedPaddings : List Bytes :=
  [lit "pkcs5", lit "pkcs7", lit "zero", lit "iso10126", lit "ansix923", lit "iso_iec_7816_4",
    lit "none"]

/-- The pointer `_is_iv_valid` passes on. -/
def ivArg (iv : Bytes) : Option Bytes := if iv = [] then none else some iv

/-- The checks that `aes_encryptor` and `aes_decryptor` share, in their
order. -/
def aesChecks (r : Request) : Option Code :=
  if r.mode ∉ supportedModes then some .invalidMode
  else if !Aes.isKeyValid (strToAesMode r.mode) (some r.key) then some .invalidKey
  else if r.padding ∉ supportedPaddings then some .invalidPadding
  else if !Aes.isIvValid (strToAesMode r.mode) (ivArg r.iv) then some .invalidIv
  else if !isSupportedStyle r.fmt then some .invalidFmt
  else none

/-- `aes_encryptor::_is_input_valid` -/
def aesInputValid (r : Request) : Option Bool :=
  if r.inp = [] ∧ r.content = [] then some false
  else if r.out = [] then
    Aes.isPlainValid E.evp (strToAesMode r.mode) r.key.length (strToAesPadding r.padding)
      r.content.length
  else (E.encrypting (lit "aes")).inputValid r

/-- `aes_encryptor::encrypt` -/
def aesEncrypt (r : Request) : Option (Code × Bytes) :=
  match aesChecks r with
  | some err => some (err, r.out)
  | none => do
    if !(← aesInputValid E r) then return (.invalidInput, r.out)
    if r.out = [] ∧ r.inp = [] then
      let (ec, tmp) ← Aes.encryptString E.evp E.rnd [] r.content r.key (strToAesMode r.mode)
        (strToAesPadding r.padding) r.iv
      if ec = .ok then formatMemory E r.out tmp r.fmt else return (.encryptAesFailed, r.out)
    else (E.encrypting (lit "aes")).run r

/-- `aes_decryptor::decrypt` -/
def aesDecrypt (r : Request) : Option (Code × Bytes) :=
  match aesChecks r with
  | some err => some (err, r.out)
  | none =>
      if r.out = [] ∧ r.inp = [] then
        let (err, tmp) := unformatMemory E [] r.content r.fmt
        if err = .ok then
          (Aes.decryptString E.evp r.out tmp r.key (strToAesMode r.mode)
            (strToAesPadding r.padding) r.iv).map fun (ec, out) =>
              (if ec = .ok then Code.ok else .decryptAesFailed, out)
        else some (err, r.out)
      else (E.decrypting (lit "aes")).run r

/-! ## The others -/

/-- `base64_encryptor::encrypt` -/
def base64Encrypt (r : Request) : Option (Code × Bytes) :=
  if !isSupportedStyle r.fmt then some (.invalidFmt, r.out)
  else if r.out = [] ∧ r.inp = [] then
    (Base64Stream.encodeString E.bio r.content).map fun (ec, out) =>
      (if ec = .ok then Code.ok else .encryptBase64Failed, out)
  else (E.encrypting (lit "base64")).run r

/-- `base64_decryptor::decrypt` -/
def base64Decrypt (r : Request) : Option (Code × Bytes) :=
  if r.out = [] ∧ r.inp = [] then
    let (ec, out) := Base64Stream.decodeString E.decoder r.content
    some (if ec = .ok then Code.ok else .decryptBase64Failed, out)
  else (E.decrypting (lit "base64")).run r

/-- `md5_encryptor::encrypt` -/
def md5Encrypt (r : Request) : Option (Code × Bytes) :=
  if !isSupportedStyle r.fmt then some (.invalidFmt, r.out)
  else if r.out = [] ∧ r.inp = [] then
    (Digest.Md5.encodeString E.md5 r.out r.content).map fun (ec, out) =>
      (if ec = .ok then Code.ok else .encryptMd5Failed, out)
  else (E.encrypting (lit "md5")).run r

/-- `sha256_encryptor::encrypt` -/
def sha256Encrypt (r : Request) : Option (Code × Bytes) :=
  if !isSupportedStyle r.fmt then some (.invalidFmt, r.out)
  else if r.out = [] ∧ r.inp = [] then
    (Digest.Sha.encodeString E.sha .sha256 r.out r.content).map fun (ec, out) =>
      (if ec = .ok then Code.ok else .encryptSha256Failed, out)
  else (E.encrypting (lit "sha256")).run r

/-- `des_encryptor::encrypt`, as far as the mode check. -/
def desEncrypt (r : Request) : Option (Code × Bytes) :=
  if r.mode ∉ ([] : List Bytes) then some (.invalidMode, r.out)
  else (E.encrypting (lit "des")).run r

/-- `rsa_encryptor::encrypt`, as far as the padding check. -/
def rsaEncrypt (r : Request) : Option (Code × Bytes) :=
  if !Rsa.isKeyPairBitsValid (r.key.length * 8) then some (.invalidKey, r.out)
  else if r.padding ∉ ([] : List Bytes) then some (.invalidPadding, r.out)
  else (E.encrypting (lit "rsa")).run r

/-! ## The managers -/

/-- An `encryptor` or a `decryptor`. -/
structure Cryptor where
  type : Bytes
  run : Request → Option (Code × Bytes)

/-- `add`: an algorithm is registered once. -/
def add (cs : List Cryptor) (c : Cryptor) : List Cryptor :=
  if cs.any fun e => e.type == c.type then cs else cs ++ [c]

/-- `encrypt` of `encryptor_mgr` and `decrypt` of `decryptor_mgr` -/
def call (cs : List Cryptor) (r : Request) : Option (Code × Bytes) :=
  match cs.find? fun e => e.type == r.algo with
  | some e => e.run r
  | none => some (.invalidAlgo, r.out)

/-- The encryptors that `crypto_init` adds. -/
def encryptors : List Cryptor :=
  [⟨lit "aes", aesEncrypt E⟩, ⟨lit "base64", base64Encrypt E⟩, ⟨lit "des", desEncrypt E⟩,
    ⟨lit "md5", md5Encrypt E⟩, ⟨lit "sha256", sha256Encrypt E⟩, ⟨lit "rsa", rsaEncrypt E⟩].foldl
    add []

/-- The decryptors that `crypto_init` adds; those of DES and RSA are not
looked into. -/
def decryptors : List Cryptor :=
  [⟨lit "aes", aesDecrypt E⟩, ⟨lit "base64", base64Decrypt E⟩,
    ⟨lit "des", (E.decrypting (lit "des")).run⟩,
    ⟨lit "rsa", (E.decrypting (lit "rsa")).run⟩].foldl add []

/-! ## Parameter blocks -/

/-- `CRYPTO_MAX_OUTPUT_SIZE` -/
def maxOutputSize : Nat := 16384

/-- `crypto_param_encrypt` and `crypto_param_decrypt`; the former has no
`passwd`. -/
structure Param where
  out : Option Bytes
  outLen : Option Int
  inp : Option Bytes
  content : Option Bytes
  algo : Option Bytes
  mode : Option Bytes
  key : Option Bytes
  passwd : Option Bytes
  padding : Option Bytes
  iv : Option Bytes
  fmt : Option Bytes
  result : Code

/-- `data_mgr::_init`; the new buffer holds `mem`. -/
def Param.init (mem : Nat → UInt8) : Param where
  out := some ((List.range maxOutputSize).map mem)
  outLen := some 0
  inp := none
  content := none
  algo := none
  mode := none
  key := none
  passwd := none
  padding := none
  iv := none
  fmt := none
  result := .fail

/-- `data_mgr::_reset`, which clears the buffer where there is one. -/
def Param.reset (p : Param) : Param where
  out := p.out.map fun _ => List.replicate maxOutputSize 0
  outLen := p.outLen.map fun _ => 0
  inp := none
  content := none
  algo := none
  mode := none
  key := none
  passwd := none
  padding := none
  iv := none
  fmt := none
  result := .fail

/-- `(p == NULL) ? std::string() : std::string(p)` -/
def str (p : Option Bytes) : Bytes := (p.map cstr).getD []

/-- `(ret->out == NULL) ? std::string() : std::string(ret->out, len)`;
`none` where there are not `len` bytes in `out`. -/
def outString (p : Param) : Option Bytes :=
  let len := p.outLen.getD 0
  match p.out with
  | none => some []
  | some buf => if len < 0 then none else readN buf 0 len.toNat

/-- What `crypto_encrypt` and `crypto_decrypt` take the block for. -/
def request (p : Param) : Option Request :=
  (outString p).map fun out =>
    { out, inp := str p.inp, content := str p.content, algo := str p.algo, mode := str p.mode,
      key := str p.key, passwd := str p.passwd, padding := str p.padding, iv := str p.iv,
      fmt := str p.fmt }

/-- The call, and the answer in the block; `none` is undefined. -/
def api (cs : List Cryptor) (p : Param) : Option Param := do
  let (result, out) ← call cs (← request p)
  let p := { p with result }
  match p.out with
  | none => return p
  | some buf =>
      if result = .ok then
        let buf ← strncpyS buf maxOutputSize out out.length
        return { p with outLen := p.outLen.map fun _ => Des.toInt out.length, out := some buf }
      else return p

/-- `crypto_encrypt`, behind the checks of the context. -/
def cryptoEncrypt (p : Param) : Option Param := api (encryptors E) p

/-- `crypto_decrypt`, likewise. -/
def cryptoDecrypt (p : Param) : Option Param := api (decryptors E) p

end Core

end HighJump.Apps.CryptoCore
