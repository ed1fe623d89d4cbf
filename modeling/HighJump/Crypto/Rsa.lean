/-
HighJump.Crypto.Rsa — `hj::rsa` of `hj/crypto/rsa.hpp`: the stream
overloads of `encrypt` and `decrypt`, the key loading they start with and
the validity check that moves the stream.

What OpenSSL does is a parameter (`Openssl`): reading a key from a PEM
text, and one RSA operation on one buffer. Encryption draws on a random
generator, whose state is passed along. The class's own part is how a
stream is cut into such buffers.

Pointers that may be null are `Option`s of the buffer they point to; the
length argument of a buffer that is there is its size. A function returns
`none` where the source would leave its buffers or not return.
-/
import HighJump.Lib.Loop
import HighJump.Lib.Streams
import Mathlib.Algebra.Ring.Int.Defs

namespace HighJump.Crypto.Rsa

open HighJump.Lib

abbrev Bytes := List UInt8

/-! ## Types -/

/-- `rsa::error_code`. -/
inductive ErrorCode where
  | ok | invalidInput | invalidOutput | invalidPubkeyPem | invalidPrikeyPem | invalidKeyBits
  | bufferTooSmall | keyGenerationFailed | keyLoadingFailed | encryptionFailed | decryptionFailed
  | signingFailed | verificationFailed | notSupportedPadding | noPaddingSpecified | writeFailed
  | readFailed | modeAndPasswordMismatch | unknown
  deriving DecidableEq, Repr

/-- `rsa::padding`. -/
inductive Padding where
  | pkcs1 | noPadding | pkcs1Oaep | x931 | pkcs1Pss
  deriving DecidableEq, Repr

/-- The OpenSSL functions that are called. A key is an `RSA *`, of either
kind; a call that answers -1 is `none`. -/
structure Openssl where
  Key : Type
  Rng : Type
  /-- `PEM_read_bio_RSA_PUBKEY` and `PEM_read_bio_RSAPublicKey`. -/
  readRsaPubkey : Bytes → Option Key
  readRsaPublicKey : Bytes → Option Key
  /-- `PEM_read_bio_RSAPrivateKey`, and `PEM_read_bio_PrivateKey` with
  `EVP_PKEY_get1_RSA`, without or with a password. -/
  readRsaPrivateKey : Bytes → Option Bytes → Option Key
  readPrivateKey : Bytes → Option Bytes → Option Key
  /-- `RSA_size`. -/
  size : Key → Nat
  publicEncrypt : Rng → Key → Padding → Bytes → Option Bytes × Rng
  privateDecrypt : Key → Padding → Bytes → Option Bytes

/-- `RSA_MAX_KEY_LENGTH`: the size of the buffers, in bytes. -/
def rsaMaxKeyLength : Nat := 4096

/-- `RSA_PKCS1_PADDING_SIZE`. -/
def rsaPkcs1PaddingSize : Nat := 11

/-! ## Keys -/

section Keys

variable (S : Openssl)

/-- `_load_public_key`: both styles are tried. -/
def loadPublicKey : Option Bytes → Option S.Key
  | none => none
  | some pem =>
      if pem.length = 0 then none
      else (S.readRsaPubkey pem).or (S.readRsaPublicKey pem)

/-- `_load_private_key`; an empty password is none. -/
def loadPrivateKey (password : Option Bytes) : Option Bytes → Option S.Key
  | none => none
  | some pem =>
      if pem.length = 0 then none
      else
        let password := password.filter fun w => 0 < w.length
        (S.readRsaPrivateKey pem password).or (S.readPrivateKey pem password)

end Keys

/-! ## Streams -/

/-- `_is_stream_valid`, with the stream it leaves. Positions are below
2^63, and the end is not before the position, so the conversion to
`size_t` keeps their difference. -/
def isStreamValid (inp : IStream) (padStyle : Padding) (keySize : Nat) : Bool × IStream :=
  let (currentPos, inp) := inp.tellg
  let (endPos, inp) := inp.seekEnd.tellg
  let inp := inp.seekg currentPos
  let totalLength := (endPos - currentPos).toNat
  match padStyle with
  | .noPadding => (decide (totalLength % keySize = 0), inp)
  | .pkcs1 | .pkcs1Oaep | .x931 | .pkcs1Pss => (decide (0 < totalLength), inp)

/-- `max_chunk`; a padding without one is not supported. -/
def maxChunk (keySize : Nat) : Padding → Option Nat
  | .pkcs1 | .x931 => some (keySize - rsaPkcs1PaddingSize)
  | .pkcs1Oaep => some (keySize - 2 * 20 - 2)
  | .noPadding => some keySize
  | .pkcs1Pss => none

section Encrypt

variable (S : Openssl) (key : S.Key) (padding : Padding) (keySize chunk : Nat)

/-- One turn of the loop of `encrypt`. -/
def encryptTurn (x : IStream × OStream × S.Rng) :
    Turn (IStream × OStream × S.Rng) (ErrorCode × OStream) :=
  let (inp, out, g) := x
  if !inp.ok then .exit (.ok, out)
  else
    let (inp, inbuf) := inp.read chunk
    if inbuf.length < 1 then .exit (.ok, out)
    else if padding = .noPadding ∧ inbuf.length ≠ keySize then .exit (.noPaddingSpecified, out)
    else
      match S.publicEncrypt g key padding inbuf with
      | (none, _) => .exit (.encryptionFailed, out)
      | (some outbuf, g) => .again (inp, out.write outbuf, g)

end Encrypt

/-- `encrypt`, the stream overload. -/
def encrypt (S : Openssl) (fuel : Nat) (g : S.Rng) (out : OStream) (inp : IStream)
    (pubkeyPem : Option Bytes) (padding : Padding) : Option (ErrorCode × OStream) :=
  if !inp.ok then some (.invalidInput, out)
  else if !out.ok then some (.invalidOutput, out)
  else
    match loadPublicKey S pubkeyPem with
    | none => some (.keyLoadingFailed, out)
    | some key =>
        let keySize := S.size key
        if (pubkeyPem.getD []).length < keySize then some (.verificationFailed, out)
        else
          match isStreamValid inp padding keySize with
          | (false, _) => some (.verificationFailed, out)
          | (true, inp) =>
              match maxChunk keySize padding with
              | none => some (.notSupportedPadding, out)
              | some chunk =>
                  if rsaMaxKeyLength < keySize then none
                  else
                    repeatUntil (fun _ x => some (encryptTurn S key padding keySize chunk x)) fuel
                      (inp, out, g)

section Decrypt

variable (S : Openssl) (key : S.Key) (padding : Padding) (keySize : Nat)

/-- One turn of the loop of `decrypt`. -/
def decryptTurn (x : IStream × OStream) : Turn (IStream × OStream) (ErrorCode × OStream) :=
  let (inp, out) := x
  if !inp.ok then .exit (.ok, out)
  else
    let (inp, inbuf) := inp.read keySize
    if inbuf.length < 1 then .exit (.ok, out)
    else
      match S.privateDecrypt key padding inbuf with
      | none => .exit (.writeFailed, out)
      | some outbuf => .again (inp, out.write outbuf)

end Decrypt

/-- `decrypt`, the stream overload. -/
def decrypt (S : Openssl) (fuel : Nat) (out : OStream) (inp : IStream) (prikeyPem : Option Bytes)
    (padding : Padding) (password : Option Bytes) : Option (ErrorCode × OStream) :=
  if !inp.ok then some (.invalidInput, out)
  else if !out.ok then some (.invalidOutput, out)
  else
    match loadPrivateKey S password prikeyPem with
    | none => some (.keyLoadingFailed, out)
    | some key =>
        let keySize := S.size key
        if (prikeyPem.getD []).length < keySize then some (.verificationFailed, out)
        else
          match isStreamValid inp padding keySize with
          | (false, _) => some (.verificationFailed, out)
          | (true, inp) =>
              if rsaMaxKeyLength < keySize then none
              else
                repeatUntil (fun _ x => some (decryptTurn S key padding keySize x)) fuel (inp, out)

end HighJump.Crypto.Rsa
