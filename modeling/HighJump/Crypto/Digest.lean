/-
HighJump.Crypto.Digest — `hj::sha` and `hj::md5`.

Both classes hash a buffer, a string, a string into an array, a stream into
a string, a stream into a stream and a file into a file; the hash functions
themselves are OpenSSL's. The members are near copies of each other, so
each is a definition with the hash function and the digest length for
parameters, and the classes say what they pass. What a caller relies on is
`Members.Agree`: whichever member hashes the bytes, the digest is the same,
and a buffer that is too small keeps its content.
-/
import HighJump.Encoding.HexTheorems
import HighJump.Lib.Digest

namespace HighJump.Crypto.Digest

open HighJump.Lib HighJump.Encoding

abbrev Bytes := List UInt8

inductive ErrorCode where
  | ok
  | invalidInput
  | invalidOutput
  | bufferTooSmall
  | notSupportedAlgo
  | unknown
  deriving DecidableEq, Repr

/-! ## The members -/

/-- `str.resize(n)` -/
def resize (str : Bytes) (n : Nat) : Bytes := str.take n ++ List.replicate (n - str.length) 0

/-- `in.good()` -/
def good (inp : IStream) : Bool := !inp.eof && !inp.fail

/-- `encode(dst, dst_len, src, src_len)`: the error, `dst` and `dst_len`;
`none` is a write behind `dst`. -/
def encodeBuffer (len : Nat) (hash : Bytes → Bytes) (dst : Bytes) (dstLen : Nat) (src : Bytes) :
    Option (ErrorCode × Bytes × Nat) :=
  if dstLen < len then some (.bufferTooSmall, dst, dstLen)
  else (writeN dst 0 (hash src)).map fun dst => (.ok, dst, len)

/-- `encode(hash_array<N> &dst, src)` -/
def encodeArray (len : Nat) (hash : Bytes → Bytes) (dst src : Bytes) :
    Option (ErrorCode × Bytes) :=
  (encodeBuffer len hash dst dst.length src).map fun (ec, dst, _) =>
    if ec ≠ .ok then (ec, List.replicate dst.length 0) else (ec, dst)

section

variable (H : Hash) (len bufSize : Nat)

/-- `encode(std::string &dst, std::istream &in)`; `bad` is the error for a
stream that is not good. -/
def encodeStream (bad : ErrorCode) (fuel : Nat) (dst : Bytes) (inp : IStream) :
    Option (ErrorCode × Bytes) :=
  if !good inp then some (bad, [])
  else do
    let ctx ← H.feed bufSize fuel inp
    let dst ← writeN (resize dst len) 0 (H.final ctx)
    return (.ok, dst)

/-- `encode(std::ostream &out, std::istream &in)` of `md5`, which has its own
loop. -/
def encodeInto (fuel : Nat) (out : OStream) (inp : IStream) : Option (ErrorCode × OStream) :=
  if !good inp then some (.invalidInput, out)
  else if !out.ok then some (.invalidOutput, out)
  else do
    let ctx ← H.feed bufSize fuel inp
    let md ← writeN (List.replicate len 0) 0 (H.final ctx)
    return (.ok, out.write md)

end

/-- `encode_file`: the contents of the file to read, if it opens, and the
file to write, if it opens. -/
def encodeFile (into : OStream → IStream → Option (ErrorCode × OStream)) (src : Option Bytes)
    (dst : Option OStream) : Option (ErrorCode × Option OStream) :=
  match src, dst with
  | none, dst => some (.invalidInput, dst)
  | some _, none => some (.invalidOutput, none)
  | some bs, some out => (into out (.ofBytes bs)).map fun (ec, out) => (ec, some out)

/-- The public members of one of the classes. -/
structure Members where
  encode : Bytes → Nat → Bytes → Option (ErrorCode × Bytes × Nat)
  encodeString : Bytes → Bytes → Option (ErrorCode × Bytes)
  encodeArray : Bytes → Bytes → Option (ErrorCode × Bytes)
  encodeStream : Nat → Bytes → IStream → Option (ErrorCode × Bytes)
  encodeInto : Nat → OStream → IStream → Option (ErrorCode × OStream)
  encodeFile : Nat → Option Bytes → Option OStream → Option (ErrorCode × Option OStream)

namespace Sha

/-- `algorithm` -/
inductive Algorithm where
  | sha1
  | sha224
  | sha256
  | sha384
  | sha512
  deriving DecidableEq, Repr

/-- `get_digest_length` -/
def getDigestLength : Algorithm → Nat
  | .sha1 => 20
  | .sha224 => 28
  | .sha256 => 32
  | .sha384 => 48
  | .sha512 => 64

/-- `SHA_BUF_SIZE` -/
def shaBufSize : Nat := 131072

variable (S : Algorithm → Hash) (algo : Algorithm)

/-- `encode(std::string &dst, const std::string &src, algo)`, which calls
the hash function directly. -/
def encodeString (dst src : Bytes) : Option (ErrorCode × Bytes) :=
  (writeN (resize dst (getDigestLength algo)) 0 ((S algo).oneShot src)).map (.ok, ·)

/-- `encode(std::string &dst, std::istream &in, algo)` -/
def encodeStream : Nat → Bytes → IStream → Option (ErrorCode × Bytes) :=
  Digest.encodeStream (S algo) (getDigestLength algo) shaBufSize .invalidOutput

/-- `encode(std::ostream &out, std::istream &in, algo)`, by way of a string. -/
def encodeInto (fuel : Nat) (out : OStream) (inp : IStream) : Option (ErrorCode × OStream) :=
  if !good inp then some (.invalidInput, out)
  else if !out.ok then some (.invalidOutput, out)
  else (encodeStream S algo fuel [] inp).map fun (ec, hashResult) =>
    if ec ≠ .ok then (ec, out) else (.ok, out.write hashResult)

def members : Members where
  encode := encodeBuffer (getDigestLength algo) (S algo).oneShot
  encodeString := encodeString S algo
  encodeArray := encodeArray (getDigestLength algo) (S algo).oneShot
  encodeStream := encodeStream S algo
  encodeInto := encodeInto S algo
  encodeFile fuel := encodeFile (encodeInto S algo fuel)

end Sha

namespace Md5

/-- `MD5_DIGEST_LENGTH` -/
def digestLength : Nat := 16

/-- `MD5_BUF_SZ` -/
def md5BufSz : Nat := 128 * 1024

variable (M : Hash)

/-- `encode(std::string &dst, const std::string &src)`, by way of the
buffer. -/
def encodeString (dst src : Bytes) : Option (ErrorCode × Bytes) :=
  (encodeBuffer digestLength M.digest (resize dst digestLength) digestLength src).map
    fun (ec, dst, len) => if ec ≠ .ok then (ec, []) else (ec, resize dst len)

def members : Members where
  encode := encodeBuffer digestLength M.digest
  encodeString := encodeString M
  encodeArray := encodeArray digestLength M.digest
  encodeStream := encodeStream M digestLength md5BufSz .invalidInput
  encodeInto := encodeInto M digestLength md5BufSz
  encodeFile fuel := encodeFile (encodeInto M digestLength md5BufSz fuel)

/-- `to_hex`; the manipulators are inserted anew for every byte. -/
def toHex (str : Bytes) (upperCase : Bool) : Bytes :=
  ((str.take digestLength).foldl
    (fun ss c => Hex.encodeByte ((ss.letters upperCase).hex) c) FStream.fresh).out.written

end Md5

/-! ## One digest -/

/-- Every member that hashes `x` comes to `digest`. -/
structure Members.Agree (m : Members) (len : Nat) (x digest : Bytes) : Prop where
  length : digest.length = len
  encode : ∀ dst dstLen, dstLen ≤ dst.length → m.encode dst dstLen x =
    some (if dstLen < len then (.bufferTooSmall, dst, dstLen)
      else (.ok, digest ++ dst.drop len, len))
  encodeString : ∀ dst, m.encodeString dst x = some (.ok, digest)
  encodeArray : ∀ dst, m.encodeArray dst x =
    some (if dst.length < len then (.bufferTooSmall, List.replicate dst.length 0)
      else (.ok, digest ++ dst.drop len))
  encodeStream : ∀ dst inp, inp.Good → inp.rest = x →
    Returns (fun fuel => m.encodeStream fuel dst inp) (.ok, digest)
  encodeInto : ∀ out inp, out.ok = true → inp.Good → inp.rest = x →
    Returns (fun fuel => m.encodeInto fuel out inp) (.ok, out.write digest)
  encodeFile : ∀ out, out.ok = true →
    Returns (fun fuel => m.encodeFile fuel (some x) (some out)) (.ok, some (out.write digest))

section Agree

variable {H : Hash} {len bufSize : Nat} {x : Bytes}

theorem length_resize (str : Bytes) (n : Nat) : (resize str n).length = n := by
  simp only [resize, List.length_append, List.length_take, List.length_replicate]
  omega

theorem resize_self {str : Bytes} {n : Nat} (h : str.length = n) : resize str n = str := by
  simp [resize, ← h]

/-- A digest written over a buffer of its length. -/
theorem writeN_exact {dst md : Bytes} (h : md.length = dst.length) : writeN dst 0 md = some md := by
  rw [writeN_zero (Nat.le_of_eq h), h, List.drop_length, List.append_nil]

theorem good_of_good {inp : IStream} (h : inp.Good) : good inp = true := by
  simp [good, h.eof, h.fail]

theorem encodeBuffer_eq {hash : Bytes → Bytes} (hlen : (hash x).length = len) {dst : Bytes}
    {dstLen : Nat} (hdst : dstLen ≤ dst.length) :
    encodeBuffer len hash dst dstLen x =
      some (if dstLen < len then (.bufferTooSmall, dst, dstLen)
        else (.ok, hash x ++ dst.drop len, len)) := by
  unfold encodeBuffer
  by_cases hlt : dstLen < len
  · rw [if_pos hlt, if_pos hlt]
  · rw [if_neg hlt, if_neg hlt, writeN_zero (by omega), hlen, Option.map_some]

theorem encodeArray_eq {hash : Bytes → Bytes} (hlen : (hash x).length = len) (dst : Bytes) :
    encodeArray len hash dst x =
      some (if dst.length < len then (.bufferTooSmall, List.replicate dst.length 0)
        else (.ok, hash x ++ dst.drop len)) := by
  rw [encodeArray, encodeBuffer_eq hlen (Nat.le_refl _)]
  by_cases hlt : dst.length < len <;> simp [hlt]

variable (hH : H.Documented len) (hbuf : 0 < bufSize)
include hH hbuf

theorem encodeStream_returns (bad : ErrorCode) (dst : Bytes) {inp : IStream} (hinp : inp.Good)
    (hrest : inp.rest = x) :
    Returns (fun fuel => encodeStream H len bufSize bad fuel dst inp) (.ok, H.digest x) := by
  obtain ⟨N, hN⟩ := Hash.feed_returns hH hbuf (.inl ⟨hinp, hrest⟩)
  refine ⟨N, fun fuel hle => ?_⟩
  have hwrite : writeN (resize dst len) 0 (H.final (H.update H.init x)) = some (H.digest x) :=
    writeN_exact (by rw [hH.length_final, length_resize])
  simp [encodeStream, good_of_good hinp, hN fuel hle, hwrite]

theorem encodeInto_returns {out : OStream} (hout : out.ok = true) {inp : IStream}
    (hinp : inp.Good) (hrest : inp.rest = x) :
    Returns (fun fuel => encodeInto H len bufSize fuel out inp) (.ok, out.write (H.digest x)) := by
  obtain ⟨N, hN⟩ := Hash.feed_returns hH hbuf (.inl ⟨hinp, hrest⟩)
  refine ⟨N, fun fuel hle => ?_⟩
  have hwrite : writeN (List.replicate len 0) 0 (H.final (H.update H.init x)) =
      some (H.digest x) := writeN_exact (by rw [hH.length_final, List.length_replicate])
  simp [encodeInto, good_of_good hinp, hout, hN fuel hle, hwrite]

end Agree

/-- A file is what the stream of its bytes is. -/
theorem encodeFile_returns {into : Nat → OStream → IStream → Option (ErrorCode × OStream)}
    {x : Bytes} {out out' : OStream}
    (hinto : Returns (fun fuel => into fuel out (.ofBytes x)) (.ok, out')) :
    Returns (fun fuel => encodeFile (into fuel) (some x) (some out)) (.ok, some out') := by
  obtain ⟨N, hN⟩ := hinto
  exact ⟨N, fun fuel hle => by simp [encodeFile, hN fuel hle]⟩

/-- For SHA, the stream of a string is what the stream into a string is. -/
theorem Sha.encodeInto_returns {S : Sha.Algorithm → Hash} {algo : Sha.Algorithm}
    (hS : (S algo).Documented (Sha.getDigestLength algo)) {x : Bytes} {out : OStream}
    (hout : out.ok = true) {inp : IStream} (hinp : inp.Good) (hrest : inp.rest = x) :
    Returns (fun fuel => Sha.encodeInto S algo fuel out inp)
      (.ok, out.write ((S algo).digest x)) := by
  obtain ⟨N, hN⟩ := encodeStream_returns hS (by decide : 0 < Sha.shaBufSize) .invalidOutput []
    hinp hrest
  refine ⟨N, fun fuel hle => ?_⟩
  have hstream : Sha.encodeStream S algo fuel [] inp = some (.ok, (S algo).digest x) := hN fuel hle
  simp [Sha.encodeInto, good_of_good hinp, hout, hstream]

theorem Sha.members_agree {S : Sha.Algorithm → Hash} {algo : Sha.Algorithm}
    (hS : (S algo).Documented (Sha.getDigestLength algo)) (x : Bytes) :
    (Sha.members S algo).Agree (Sha.getDigestLength algo) x ((S algo).digest x) := by
  have hbuf : 0 < Sha.shaBufSize := by decide
  have hone : ((S algo).oneShot x).length = Sha.getDigestLength algo := by
    rw [hS.oneShot, hS.length_digest]
  refine ⟨hS.length_digest x, fun dst dstLen hdst => ?_, fun dst => ?_, fun dst => ?_,
    fun dst inp hinp hrest => encodeStream_returns hS hbuf _ dst hinp hrest,
    fun out inp hout hinp hrest => Sha.encodeInto_returns hS hout hinp hrest,
    fun out hout => encodeFile_returns
      (Sha.encodeInto_returns hS hout (IStream.good_ofBytes x) rfl)⟩
  · rw [← hS.oneShot]
    exact encodeBuffer_eq hone hdst
  · have hwrite : writeN (resize dst (Sha.getDigestLength algo)) 0 ((S algo).digest x) =
        some ((S algo).digest x) :=
      writeN_exact ((hS.length_digest x).trans (length_resize dst _).symm)
    simp [Sha.members, Sha.encodeString, hwrite, hS.oneShot]
  · rw [← hS.oneShot]
    exact encodeArray_eq hone dst

theorem Md5.members_agree {M : Hash} (hM : M.Documented Md5.digestLength) (x : Bytes) :
    (Md5.members M).Agree Md5.digestLength x (M.digest x) := by
  have hbuf : 0 < Md5.md5BufSz := by decide
  refine ⟨hM.length_digest x, fun dst dstLen hdst => encodeBuffer_eq (hM.length_digest x) hdst,
    fun dst => ?_, fun dst => encodeArray_eq (hM.length_digest x) dst,
    fun dst inp hinp hrest => encodeStream_returns hM hbuf _ dst hinp hrest,
    fun out inp hout hinp hrest => encodeInto_returns hM hbuf hout hinp hrest,
    fun out hout => encodeFile_returns
      (encodeInto_returns hM hbuf hout (IStream.good_ofBytes x) rfl)⟩
  have hdigest := hM.length_digest x
  have hencode : encodeBuffer Md5.digestLength M.digest (resize dst Md5.digestLength)
      Md5.digestLength x = some (.ok, M.digest x, Md5.digestLength) := by
    have hwrite := writeN_exact (hdigest.trans (length_resize dst _).symm)
    simp [encodeBuffer, hwrite]
  simp [Md5.members, Md5.encodeString, hencode, resize_self hdigest]

/-! ## Digests in hexadecimal -/

theorem hexing_again {upper : Bool} {s : FStream} (h : Hex.Hexing upper s) :
    Hex.Hexing upper ((s.letters upper).hex) :=
  ⟨h.isOpen, h.showbase, h.adjust, rfl, rfl⟩

theorem toHex_loop {upper : Bool} (str : Bytes) :
    ∀ {s : FStream}, Hex.Hexing upper ((s.letters upper).hex) →
      (str.foldl (fun ss c => Hex.encodeByte ((ss.letters upper).hex) c) s).out.written =
        s.out.written ++ str.flatMap (Hex.hexPair upper) := by
  induction str with
  | nil => simp
  | cons c str ih =>
    intro s hs
    obtain ⟨hnext, hwritten⟩ := Hex.encodeByte_hexing hs c
    rw [List.foldl_cons, ih (hexing_again hnext), hwritten, List.flatMap_cons, List.append_assoc]
    rfl

/-- **`to_hex` is the hex codec** on a digest. -/
theorem toHex_eq (str : Bytes) (upper : Bool) (h : str.length ≤ Md5.digestLength) :
    Md5.toHex str upper = Hex.encode str upper := by
  rw [Md5.toHex, List.take_of_length_le h, Hex.encode_eq,
    toHex_loop str (Hex.hexing_of_plain FStream.plain_fresh upper)]
  rfl

/-- **Whichever member hashes the bytes, the digest is the same**: from a
buffer, a string, a stream in any number of chunks or a file, into any
destination large enough; and printing it is the hex codec. -/
theorem hash_members {S : Sha.Algorithm → Hash} {M : Hash}
    (hS : ∀ algo, (S algo).Documented (Sha.getDigestLength algo))
    (hM : M.Documented Md5.digestLength) (x : Bytes) :
    (∀ algo, (Sha.members S algo).Agree (Sha.getDigestLength algo) x ((S algo).digest x)) ∧
      (Md5.members M).Agree Md5.digestLength x (M.digest x) ∧
      ∀ upper, Md5.toHex (M.digest x) upper = Hex.encode (M.digest x) upper :=
  ⟨fun algo => Sha.members_agree (hS algo) x, Md5.members_agree hM x,
    fun upper => toHex_eq _ upper (Nat.le_of_eq (hM.length_digest x))⟩

/-- The big-endian bytes of a number. -/
def bigEndian (n d : Nat) : Bytes :=
  (List.range n).map fun i => UInt8.ofNat (d / 256 ^ (n - 1 - i))

/-- A hash function on the one input `known`. -/
def hashOf (known md : Bytes) : Hash where
  Ctx := Bytes
  init := []
  update := fun c xs => c ++ xs
  final := fun c => if c = known then md else List.replicate md.length 0
  oneShot := fun x => if x = known then md else List.replicate md.length 0

theorem hashOf_documented (known : Bytes) {md : Bytes} {len : Nat} (h : md.length = len) :
    (hashOf known md).Documented len where
  update_nil := List.append_nil
  update_append := List.append_assoc
  oneShot := fun x => rfl
  length_final := fun (c : Bytes) => by
    by_cases hc : c = known
    · simp [hashOf, hc, h]
    · simp only [hashOf, if_neg hc, List.length_replicate, h]

def abc : Bytes := [0x61, 0x62, 0x63]

def shaOfAbc : Sha.Algorithm → Nat
  | .sha1 => 0xa9993e364706816aba3e25717850c26c9cd0d89d
  | .sha224 => 0x23097d223405d8228642a477bda255b32aadbce4bda0b3f7e36c9da7
  | .sha256 => 0xba7816bf8f01cfea414140de5dae2223b00361a396177a9cb410ff61f20015ad
  | .sha384 =>
      0xcb00753f45a35e8bb5a03d699ac65007272c32ab0eded163 * 2 ^ 192 +
        0x1a8b605a43ff5bed8086072ba1e7cc2358baeca134c825a7
  | .sha512 =>
      0xddaf35a193617abacc417349ae20413112e6fa4e89a97ea20a9eeee64b55d39a * 2 ^ 256 +
        0x2192992a274fc1a836ba3c23a3feebbd454d4423643ce80e2a9ac94fa54ca49f

theorem hash_members_abc :
    (Sha.members (fun algo => hashOf abc (bigEndian (Sha.getDigestLength algo) (shaOfAbc algo)))
      .sha1).Agree 20 abc (bigEndian 20 (shaOfAbc .sha1)) ∧
    Md5.toHex (bigEndian 16 0x900150983cd24fb0d6963f7d28e17f72) false =
      "900150983cd24fb0d6963f7d28e17f72".toList.map fun c => UInt8.ofNat c.toNat := by
  have hM : (hashOf abc (bigEndian 16 0x900150983cd24fb0d6963f7d28e17f72)).Documented 16 :=
    hashOf_documented abc (by simp [bigEndian])
  have hS : ∀ algo, (hashOf abc (bigEndian (Sha.getDigestLength algo) (shaOfAbc algo))).Documented
      (Sha.getDigestLength algo) := fun algo => hashOf_documented abc (by simp [bigEndian])
  have h := hash_members hS hM abc
  exact ⟨h.1 .sha1, (h.2.2 false).trans ((Hex.encode_eq _ false).trans (by decide))⟩

end HighJump.Crypto.Digest
