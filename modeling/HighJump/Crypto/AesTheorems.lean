/-
HighJump.Crypto.AesTheorems — encryption of `hj::aes` by buffer and by
stream, and the GCM round trip.

Encryption first. Both overloads open the same context, and padding
depends on the length modulo 16 while the stream cuts at multiples of
16384, so both feed the same bytes (`encryptWith_eq`,
`encryptStream_open`). They part in one place: the buffer overload hands
the whole padded message to one call whose length is an `int`, and a
message within 16 bytes of 2^31 pads to a length that is none.

The GCM round trip fails in two places that have nothing to do with each
other: sixteen bytes are all tag, but the decrypting side looks for a tag
only in more than sixteen; and the encrypting side names the cipher a
second time, which puts the iv length back to 12, while the decrypting
side does not.
-/
import HighJump.Crypto.AesPadding

namespace HighJump.Crypto.Aes

open HighJump.Lib
open HighJump.Lib.Evp (Call Dir Algorithm Work Phase Serves)
open HighJump.Crypto.Des (subSz toInt toInt_eq)

/-- The modes the theorems are about. -/
def Mode.Covered (mod : Mode) : Prop := mod.Plain ∨ mod = .gcm

/-- A valid iv of GCM mode is one that is there. -/
theorem gcm_iv {iv : Option Bytes} (h : isIvValid .gcm iv = true) :
    ∃ v, iv = some v ∧ 0 < v.length := by
  cases iv with
  | none => cases h
  | some v => exact ⟨v, rfl, of_decide_eq_true h⟩

/-- The bytes a buffer overload wrote. -/
def Result.out (r : Result) : Bytes := r.dst.take r.dstLen

section Encrypt

variable {alg : Cipher → Algorithm} {evp : Evp.Api Cipher} {At : evp.Ctx → Phase Cipher → Prop}
variable (hS : Serves alg evp Cipher.Covered At) (hA : IsAes alg)

/-! ## What is fed -/

/-- What is appended to `n` bytes. -/
def fill (mod : Mode) (n : Nat) (pad : Padding) : Bytes := if mod = .gcm then [] else filler n pad

include hS hA in
theorem blockSize_gcm {key : Bytes} (hkey : isKeyValid .gcm (some key) = true) :
    getBlockSize evp .gcm key.length = 1 := by
  have hsel := selectCipher_eq rfl hkey
  have hb := (hA ⟨.gcm, key.length⟩ 1 12 true rfl).1
  simp [getBlockSize, hsel, hS.blockSize, hb]

include hS hA in
theorem paddingBlock_fill {mod : Mode} (hm : mod.Covered) (rnd : Nat → UInt8) {key : Bytes}
    (hkey : isKeyValid mod (some key) = true) {pad : Padding}
    (hp : mod = .gcm ∨ pad ≠ .iso10126) (src : Bytes) :
    paddingBlock evp rnd mod key.length pad src = some (src ++ fill mod src.length pad) := by
  rcases hm with hm | rfl
  · have hne := hm.ne_gcm
    rw [paddingBlock_eq hm evp rnd key.length (hp.resolve_left hne) src, fill, if_neg hne]
  · rw [paddingBlock_gcm (blockSize_gcm hS hA hkey) rnd pad src]
    simp [fill]

theorem fill_append (mod : Mode) {head last : Bytes} (h : 16 ∣ head.length) (pad : Padding) :
    fill mod (head ++ last).length pad = fill mod last.length pad := by
  unfold fill
  split
  · rfl
  · exact filler_append h pad

include hA in
/-- What is fed in all is whole blocks of the cipher. -/
theorem dvd_length_fill {mod : Mode} (hm : mod.Covered) {key : Bytes} {pad : Padding} {src : Bytes}
    (hp : mod = .gcm ∨ pad ≠ .iso10126)
    (hplain : isPlainValid evp mod key.length pad src.length = some true) :
    (alg ⟨mod, key.length⟩).blockSize ∣ (src ++ fill mod src.length pad).length := by
  rcases hm with hm | rfl
  · have hne := hm.ne_gcm
    obtain ⟨b, v, hspec, hb, -⟩ := hm.spec
    rw [(hA ⟨mod, key.length⟩ b v false hspec).1, fill, if_neg hne]
    refine Nat.dvd_trans hb (dvd_length_filler (hp.resolve_left hne) ?_)
    rw [isPlainValid_iff, hm.blockSize] at hplain
    exact (isRagged_eq_false (by decide)).mp hplain
  · rw [(hA ⟨.gcm, key.length⟩ 1 12 true rfl).1]
    exact Nat.one_dvd _

/-! ## The overloads on an open context -/

/-- The whole output of an encryption: ciphertext, and the tag if the mode
has one. -/
def sealed (alg : Cipher → Algorithm) (w : Work Cipher) (data : Bytes) : Bytes :=
  (alg w.cipher).enc w.key w.iv data
    ++ if (alg w.cipher).aead then (alg w.cipher).tag w.key w.iv data else []

/-- What `openCtx` leaves for encryption. -/
structure Opened (alg : Cipher → Algorithm) (mod : Mode) (key : Bytes) (d : Dir)
    (w : Work Cipher) : Prop where
  dir : w.dir = d
  cipher : w.cipher = ⟨mod, key.length⟩
  key : w.key = key
  fed : w.fed = []
  tag : w.tag = none
  direct : ∀ fed t, ({ w with fed, tag := t } : Work Cipher).Direct alg
  aead : (alg w.cipher).aead = isAeadMode mod

include hA in
theorem session_opened (d : Dir) {mod : Mode} (hm : mod.Covered) (key : Bytes) (iv : Option Bytes)
    (n : Nat) : Opened alg mod key d (session d mod key iv n) := by
  refine ⟨rfl, rfl, rfl, rfl, rfl, fun fed t => session_direct hA d key iv n fed hm t, ?_⟩
  rcases hm with hm | rfl
  · obtain ⟨b, v, hspec, -⟩ := hm.spec
    rw [hm.aead]
    exact (hA ⟨mod, key.length⟩ b v false hspec).2.2.1
  · exact (hA ⟨.gcm, key.length⟩ 1 12 true rfl).2.2.1

variable {mod : Mode} {key : Bytes} {pad : Padding} {iv : Option Bytes} {ctx : evp.Ctx}
  {w : Work Cipher}

include hS in
/-- The padded message goes in in one call, and all that comes of it is
written. -/
theorem encryptWith_eq {dst padded : Bytes} (n : Nat) (hat : At ctx (.working w))
    (hw : Opened alg mod key .enc w) (hdvd : (alg w.cipher).blockSize ∣ padded.length)
    (hlt : padded.length < 2 ^ 31) (hdst : (sealed alg w padded).length ≤ dst.length) :
    encryptWith evp ctx dst n mod padded
      = some ⟨.ok, sealed alg w padded ++ dst.drop (sealed alg w padded).length,
          (sealed alg w padded).length, [padded]⟩ := by
  have hl := hS.lawful w.cipher
  obtain ⟨ctx1, o, hup, hat1, ho⟩ := hS.update ctx w padded hat (hw.direct w.fed w.tag) hlt
  rw [hw.dir] at hup
  have hout : o = (alg w.cipher).enc w.key w.iv padded := by
    simp only [Work.out, hw.fed, hw.dir, List.nil_append, hl.apply_nil] at ho
    exact ho.symm
  obtain ⟨ctx2, hfin, hat2⟩ := hS.final_ok ctx1 { w with fed := w.fed ++ padded } hat1
    (hw.direct _ w.tag) ⟨by simpa [hw.fed] using hdvd, fun h => by simp [hw.dir] at h⟩
  simp only [hw.dir] at hfin
  have hsealed := hdst
  simp only [sealed, List.length_append, ← hout] at hsealed
  have hw1 : writeN dst 0 o = some (o ++ dst.drop o.length) := writeN_zero (by omega)
  have hw2 : writeN (o ++ dst.drop o.length) o.length [] = some (o ++ dst.drop o.length) :=
    writeN_nil (by simp)
  unfold encryptWith
  rw [updateN_eq .enc ctx hlt, hup, handed_eq hlt]
  simp only [Call.check_ret, hw1, Option.bind_eq_bind, Option.bind_some, hfin, hw2]
  cases haead : isAeadMode mod with
  | false =>
    have ha : (alg w.cipher).aead = false := hw.aead.trans haead
    simp [sealed, ha, ← hout]
  | true =>
    have ha : (alg w.cipher).aead = true := hw.aead.trans haead
    have htag := hS.getTag ctx2 _ hat2 hw.dir ha
    simp only [hw.fed, List.nil_append] at htag
    have htlen := hl.length_tag w.key w.iv padded
    rw [ha, if_pos rfl] at hsealed
    have hw3 := writeN_append o ((alg w.cipher).tag w.key w.iv padded) (dst.drop o.length)
      (by rw [List.length_drop]; omega)
    simp only [if_true, htag, Call.check_ret, List.length_nil, Nat.add_zero, hw3,
      Option.bind_some, sealed, ha, ← hout, List.length_append, htlen, List.drop_drop]

/-- A message too long for the cast is not encrypted at all. -/
theorem encryptWith_ub (ctx : evp.Ctx) (dst : Bytes) (n : Nat) (mod : Mode) {padded : Bytes}
    (h : 2 ^ 31 ≤ padded.length) (h' : padded.length < 2 ^ 32) :
    encryptWith evp ctx dst n mod padded = none := by
  unfold encryptWith
  rw [updateN_negative .enc ctx (by omega), Call.check_ub]

theorem le_maxSize {n : Nat} (h : n < 2 ^ 32) : n ≤ maxSize := by
  unfold maxSize
  omega

/-- `encrypt` by buffer, up to the open context. -/
theorem encrypt_checks (rnd : Nat → UInt8) (dst : Bytes) {src padded : Bytes} (n : Nat)
    (hplain : isPlainValid evp mod key.length pad src.length = some true)
    (hkey : isKeyValid mod (some key) = true) (hiv : isIvValid mod iv = true)
    (hpad : paddingBlock evp rnd mod key.length pad src = some padded)
    (hmax : padded.length ≤ maxSize) :
    encrypt evp rnd dst n src (some key) mod pad iv
      = (openCtx evp .enc true mod key iv).bind fun
          | .error c => some ⟨c, dst, n, []⟩
          | .ok ctx => encryptWith evp ctx dst n mod padded := by
  have hrun := Eq.refl (encrypt evp rnd dst n src (some key) mod pad iv)
  conv_rhs at hrun =>
    simp only [encrypt, Option.getD_some, hplain, hkey, hiv, hpad, Option.bind_eq_bind,
      Option.bind_some, Bool.not_true, Bool.false_eq_true, if_false, gt_iff_lt, Nat.not_lt.mpr hmax]
  exact hrun

include hS in
/-- The rest goes in padded, and the session is finished. -/
theorem encryptTail_spec (cap : Nat) {sent : Bytes} {p : Pump evp} (padded : Bytes)
    (hp : Pumping alg At sent p w) (hdir : w.dir = .enc)
    (hd : ∀ fed, ({ w with fed } : Work Cipher).Direct alg)
    (haead : (alg w.cipher).aead = isAeadMode mod)
    (hdvd : (alg w.cipher).blockSize ∣ (w.fed ++ padded).length)
    (hcap : padded.length + (alg w.cipher).blockSize ≤ cap) (hlt : padded.length < 2 ^ 31) :
    ∃ r, encryptTail evp cap mod p padded = some r ∧ r.code = .ok ∧
      r.fed.flatten = w.fed ++ padded ∧
      r.out.written = sent ++ sealed alg w (w.fed ++ padded) := by
  -- with nothing to feed the pump stays as it is
  obtain ⟨p1, hfeed, hp1⟩ : ∃ p1, (if padded.length > 0 then
      feed evp .enc cap .encryptUpdateFailed p padded else some (.ok p)) = some (.ok p1) ∧
      Pumping alg At sent p1 { w with fed := w.fed ++ padded } := by
    by_cases hpos : padded.length > 0
    · obtain ⟨p1, hfeed, -, hp1⟩ := feed_spec hS hp (hd w.fed) cap .encryptUpdateFailed hcap hlt
      rw [hdir] at hfeed
      exact ⟨p1, by rw [if_pos hpos, hfeed], hp1⟩
    · have hnil : padded = [] := List.length_eq_zero_iff.mp (by omega)
      exact ⟨p, if_neg hpos, by rw [hnil, List.append_nil]; exact hp⟩
  obtain ⟨ctx2, hfin, hat2⟩ := hS.final_ok p1.ctx _ hp1.ctx (hd _)
    ⟨hdvd, fun h => by simp [hdir] at h⟩
  simp only [hdir] at hfin
  have hwritten := hp1.written
  simp only [Work.out, hdir] at hwritten
  simp only [encryptTail, hfeed, Option.bind_eq_bind, Option.bind_some, hfin, Call.check_ret,
    List.length_nil, Nat.zero_le, if_true]
  cases ha : isAeadMode mod with
  | false =>
    refine ⟨_, rfl, rfl, hp1.fed, ?_⟩
    simp only [sealed, haead, ha]
    simpa [Algorithm.apply] using hwritten
  | true =>
    have htag := hS.getTag ctx2 _ hat2 hdir (haead.trans ha)
    obtain ⟨-, hwrite⟩ := OStream.write_open hp1.isOpen
      ((alg w.cipher).tag w.key w.iv (w.fed ++ padded))
    simp only [if_true, htag, Call.check_ret]
    refine ⟨_, rfl, rfl, hp1.fed, ?_⟩
    simp only [sealed, haead, ha, if_true]
    simp [hwrite, hwritten, Algorithm.apply]

/-- A good stream passes the check its length passes, and is left where
it was. -/
theorem isPlainValidStream_eq {inp : IStream} (hg : inp.Good)
    (hplain : isPlainValid evp mod key.length pad inp.rest.length = some true) :
    isPlainValidStream evp mod key.length pad inp = some (true, inp) := by
  by_cases hp : pad = .noPadding
  · subst hp
    have hend : ({ inp with pos := inp.data.length } : IStream).Good :=
      ⟨hg.eof, hg.fail, Nat.le_refl _⟩
    have hdiff : ((inp.data.length : Int) - inp.pos).toNat = inp.rest.length := by
      have := hg.pos
      simp only [IStream.rest, List.length_drop]
      omega
    have hmod : modulus inp.rest.length (getBlockSize evp mod key.length) = some 0 := by
      rw [isPlainValid_iff, isRagged, if_pos rfl] at hplain
      obtain ⟨r, hr, hzero⟩ := Option.map_eq_some_iff.mp hplain
      rw [hr, show r = 0 by simpa using hzero]
    have hok : inp.ok = true := by simp [IStream.ok, hg.fail]
    simp only [isPlainValidStream, hok, Bool.not_true, Bool.false_eq_true, if_false, if_true,
      IStream.tellg_good hg, IStream.seekEnd_good hg, IStream.tellg_good hend,
      IStream.seekg_good hend hg.pos, Option.bind_eq_bind, Option.bind_some, hdiff, hmod]
    rfl
  · simp [isPlainValidStream, IStream.ok, hg.fail, hp]

/-- `encrypt` by stream, up to the open context. -/
theorem encryptStream_checks (rnd : Nat → UInt8) {out : OStream} {inp : IStream} {b : Nat}
    (hg : inp.Good) (ho : out.Open)
    (hplain : isPlainValid evp mod key.length pad inp.rest.length = some true)
    (hkey : isKeyValid mod (some key) = true) (hiv : isIvValid mod iv = true)
    (hb : getBlockSize evp mod key.length = b) :
    encryptStream evp rnd out inp (some key) mod pad iv
      = (openCtx evp .enc true mod key iv).bind fun
          | .error c => some ⟨c, out, []⟩
          | .ok ctx =>
              (encryptLoop evp (aesBufSize + b * 2) (inp.data.length + 1)
                ⟨inp, out, ctx, []⟩).bind fun
              | .error r => some r
              | .ok (p, last) => (paddingBlock evp rnd mod key.length pad last).bind
                  (encryptTail evp (aesBufSize + b * 2) mod p) := by
  have hok : inp.ok = true := by simp [IStream.ok, hg.fail]
  have hok' : out.ok = true := by simp [OStream.ok, ho.fail]
  have hrun := Eq.refl (encryptStream evp rnd out inp (some key) mod pad iv)
  conv_rhs at hrun =>
    simp only [encryptStream, hok, hok', Option.getD_some, isPlainValidStream_eq hg hplain, hkey,
      hiv, hb, Option.bind_eq_bind, Option.bind_some, Bool.not_true, Bool.false_eq_true, if_false]
  exact hrun

include hS hA in
/-- **The stream overload of `encrypt`** on an open context: whole chunks,
then the padded rest, then the tag. -/
theorem encryptStream_open (hm : mod.Covered) (rnd : Nat → UInt8) {out : OStream} {inp : IStream}
    (hg : inp.Good) (ho : out.Open)
    (hplain : isPlainValid evp mod key.length pad inp.rest.length = some true)
    (hkey : isKeyValid mod (some key) = true) (hiv : isIvValid mod iv = true)
    (hp : mod = .gcm ∨ pad ≠ .iso10126)
    (hopen : openCtx evp .enc true mod key iv = some (.ok ctx))
    (hat : At ctx (.working w)) (hw : Opened alg mod key .enc w) :
    ∃ r, encryptStream evp rnd out inp (some key) mod pad iv = some r ∧ r.code = .ok ∧
      r.fed.flatten = inp.rest ++ fill mod inp.rest.length pad ∧
      r.out.written = out.written ++ sealed alg w (inp.rest ++ fill mod inp.rest.length pad) := by
  obtain ⟨b, hb, hb16, hle⟩ : ∃ b, getBlockSize evp mod key.length = b ∧ b ≤ 16 ∧
      (alg w.cipher).blockSize ≤ b ∧ (fill mod (inp.rest.length % aesBufSize) pad).length ≤ b := by
    rcases hm with hm | rfl
    · obtain ⟨b, v, hspec, hdvd, -⟩ := hm.spec
      refine ⟨16, hm.blockSize evp _, Nat.le_refl _, ?_, ?_⟩
      · rw [hw.cipher, (hA ⟨mod, key.length⟩ b v false hspec).1]
        exact Nat.le_of_dvd (by decide) hdvd
      · unfold fill
        split
        · simp
        · exact Nat.le_trans (length_filler_le _ _) (Nat.sub_le _ _)
    · refine ⟨1, blockSize_gcm hS hA hkey, by decide, ?_, by simp [fill]⟩
      rw [hw.cipher, (hA ⟨.gcm, key.length⟩ 1 12 true rfl).1]
  have hl := hS.lawful w.cipher
  have hstart : Pumping alg At out.written (⟨inp, out, ctx, []⟩ : Pump evp) w := by
    refine ⟨hat, ho, ?_, by simp [hw.fed]⟩
    rw [Work.out, hw.fed, hl.apply_nil, List.append_nil]
  have hrest : inp.rest.length ≤ inp.data.length := by simp [IStream.rest]
  obtain ⟨p1, last, head, hloop, hcut, hdvd, hlast, hp1⟩ := encryptLoop_spec hS
    (inp.data.length + 1) hstart (fun fed => hw.direct fed w.tag) hw.dir
    (show aesBufSize + (alg w.cipher).blockSize ≤ aesBufSize + b * 2 by omega) hg
    (show inp.rest.length < inp.data.length + 1 by omega)
  have hcut' : inp.rest = head ++ last := hcut
  have h16 : 16 ∣ head.length := Nat.dvd_trans (by decide) hdvd
  -- padding the rest is padding the whole
  have hfill : fill mod inp.rest.length pad = fill mod last.length pad := by
    rw [hcut', fill_append mod h16 pad]
  have hwhole : head ++ (last ++ fill mod last.length pad)
      = inp.rest ++ fill mod inp.rest.length pad := by
    rw [hfill, hcut', List.append_assoc]
  have hmod : inp.rest.length % aesBufSize = last.length := by
    obtain ⟨k, hk⟩ := hdvd
    rw [hcut', List.length_append, hk, Nat.mul_add_mod, Nat.mod_eq_of_lt hlast]
  have hbuf : aesBufSize = 16384 := rfl
  rw [hmod] at hle
  have hpadded : (last ++ fill mod last.length pad).length ≤ aesBufSize + b := by
    rw [List.length_append]; omega
  obtain ⟨r, htail, hcode, hfed, hout⟩ := encryptTail_spec hS (aesBufSize + b * 2)
    (last ++ fill mod last.length pad) hp1 hw.dir (fun fed => hw.direct fed w.tag) hw.aead
    (by
      simp only [hw.fed, List.nil_append, hwhole, hw.cipher]
      exact dvd_length_fill hA hm hp hplain)
    (by simp only; omega) (by omega)
  refine ⟨r, ?_, hcode, ?_, ?_⟩
  · rw [encryptStream_checks rnd hg ho hplain hkey hiv hb, hopen]
    simp only [Option.bind_some, hloop, paddingBlock_fill hS hA hm rnd hkey hp]
    exact htail
  · simpa [hw.fed, hwhole] using hfed
  · simpa [hw.fed, hwhole, sealed] using hout

end Encrypt

/-! ## Sample ciphers -/

/-- The key 00 01 … 0f. -/
def sampleKey : Bytes := [0, 1, 2, 3, 4, 5, 6, 7, 8, 9, 10, 11, 12, 13, 14, 15]

/-- The block 00 11 … ff and its encryption under `sampleKey`. -/
def samplePlain : Bytes := [0x00, 0x11, 0x22, 0x33, 0x44, 0x55, 0x66, 0x77, 0x88, 0x99, 0xaa, 0xbb,
  0xcc, 0xdd, 0xee, 0xff]

def sampleCipher : Bytes := [0x69, 0xc4, 0xe0, 0xd8, 0x6a, 0x7b, 0x04, 0x30, 0xd8, 0xcd, 0xb7, 0x80,
  0x70, 0xb4, 0xc5, 0x5a]

/-- A whole block of PKCS#7 padding, encrypted under `sampleKey`. -/
def padCipher : Bytes := [0x95, 0x4f, 0x64, 0xf2, 0xe4, 0xe8, 0x6e, 0x9e, 0xee, 0x82, 0xd2, 0x02,
  0x16, 0x68, 0x48, 0x99]

/-- AES under `sampleKey` on the four blocks above; other blocks stay. -/
def sampleBlock (key b : Bytes) : Bytes :=
  if key ≠ sampleKey then b
  else if b = samplePlain then sampleCipher
  else if b = sampleCipher then samplePlain
  else if b = List.replicate 16 16 then padCipher
  else if b = padCipher then List.replicate 16 16
  else b

theorem length_sampleBlock (key : Bytes) {b : Bytes} (h : b.length = 16) :
    (sampleBlock key b).length = 16 := by
  unfold sampleBlock
  repeat' split
  all_goals first | exact h | rfl

theorem sampleBlock_sampleBlock (key b : Bytes) : sampleBlock key (sampleBlock key b) = b := by
  by_cases hk : key = sampleKey
  · subst hk
    have h1 : sampleBlock sampleKey samplePlain = sampleCipher := by decide
    have h2 : sampleBlock sampleKey sampleCipher = samplePlain := by decide
    have h3 : sampleBlock sampleKey (List.replicate 16 16) = padCipher := by decide
    have h4 : sampleBlock sampleKey padCipher = List.replicate 16 16 := by decide
    by_cases e1 : b = samplePlain
    · rw [e1, h1, h2]
    by_cases e2 : b = sampleCipher
    · rw [e2, h2, h1]
    by_cases e3 : b = List.replicate 16 16
    · rw [e3, h3, h4]
    by_cases e4 : b = padCipher
    · rw [e4, h4, h3]
    have h5 : sampleBlock sampleKey b = b := by
      rw [sampleBlock, if_neg (fun h => h rfl), if_neg e1, if_neg e2, if_neg e3, if_neg e4]
    rw [h5, h5]
  · simp [sampleBlock, hk]

/-- Keystreams: counter mode under `sampleKey` from a zero iv, and GCM
under a zero key and 12 zero bytes of iv, 16 bytes of each. -/
def sampleStream (key iv : Bytes) (i : Nat) : UInt8 :=
  if key = sampleKey ∧ iv = List.replicate 16 0 then
    [0xc6, 0xa1, 0x3b, 0x37, 0x87, 0x8f, 0x5b, 0x82, 0x6f, 0x4f, 0x81, 0x62, 0xa1, 0xc8, 0xd8,
      0x79].getD i 0
  else if key = List.replicate 16 0 ∧ iv = List.replicate 12 0 then
    [0x03, 0x88, 0xda, 0xce, 0x60, 0xb6, 0xa3, 0x92, 0xf3, 0x28, 0xc2, 0xb9, 0x71, 0xb2, 0xfe,
      0x78].getD i 0
  else 0

/-- GCM tags under a zero key and 12 zero bytes of iv: of nothing, and of
16 zero bytes. -/
def sampleTag (_ _ x : Bytes) : Bytes :=
  if x = [] then
    [0x58, 0xe2, 0xfc, 0xce, 0xfa, 0x7e, 0x30, 0x61, 0x36, 0x7f, 0x1d, 0x57, 0xa4, 0xe7, 0x45, 0x5a]
  else if x = List.replicate 16 0 then
    [0xab, 0x6e, 0x47, 0xd4, 0x2c, 0xec, 0x13, 0xbd, 0xf5, 0x3a, 0x67, 0xb2, 0x12, 0x57, 0xbd, 0xdf]
  else List.replicate 16 0

/-- Ciphers that are the real ones on the samples. GCM takes iv lengths
from 1 to 128. -/
def sampleAlg (c : Cipher) : Algorithm :=
  match c.mode with
  | .ecb => Evp.ofBlocks 16 c.keyLen 0 sampleBlock sampleBlock
  | .cbc => Evp.ofBlocks 16 c.keyLen 16 sampleBlock sampleBlock
  | .gcm => Evp.ofKeystream c.keyLen 12 true (fun n => decide (1 ≤ n ∧ n ≤ 128)) sampleStream
      sampleTag
  | _ => Evp.ofKeystream c.keyLen 16 false (fun _ => false) sampleStream
      (fun _ _ _ => List.replicate 16 0)

theorem sampleAlg_lawful (c : Cipher) : (sampleAlg c).Lawful := by
  have hblocks (v : Nat) : (Evp.ofBlocks 16 c.keyLen v sampleBlock sampleBlock).Lawful :=
    Evp.ofBlocks_lawful (by decide) _ _ (fun k _ h => length_sampleBlock k h)
      (fun k _ h => length_sampleBlock k h) (fun k x _ => sampleBlock_sampleBlock k x)
      (fun k x _ => sampleBlock_sampleBlock k x)
  have htag (k v x : Bytes) : (sampleTag k v x).length = 16 := by
    unfold sampleTag
    repeat' split
    all_goals rfl
  unfold sampleAlg
  split
  · exact hblocks 0
  · exact hblocks 16
  · refine Evp.ofKeystream_lawful _ _ _ _ htag fun n h => ?_
    have := (of_decide_eq_true h).1
    omega
  · exact Evp.ofKeystream_lawful _ _ _ _ (fun _ _ _ => rfl) fun _ h => by cases h

theorem sampleAlg_isAes : IsAes sampleAlg := by
  rintro ⟨mode, k⟩ b v a h
  cases mode <;> cases h <;> exact ⟨rfl, rfl, rfl, rfl⟩

/-- The reference context over the samples. -/
abbrev sampleEvp : Evp.Api Cipher := Evp.reference sampleAlg

theorem sampleEvp_serves : Serves sampleAlg sampleEvp Cipher.Covered Eq :=
  Evp.reference_serves sampleAlg sampleAlg_lawful Cipher.Covered

/-! ## Stream and buffer encryption compared -/

section Alike

variable {alg : Cipher → Algorithm} {evp : Evp.Api Cipher} {At : evp.Ctx → Phase Cipher → Prop}

/-- The two overloads of `encrypt` give the same code, pass the same bytes
through their updates and, if they are ok, produce the same bytes. -/
def EncryptsAlike (evp : Evp.Api Cipher) (rnd rnd' : Nat → UInt8) (dst : Bytes) (n : Nat)
    (out : OStream) (inp : IStream) (key : Bytes) (mod : Mode) (pad : Padding)
    (iv : Option Bytes) : Prop :=
  ∃ r s, encrypt evp rnd dst n inp.rest (some key) mod pad iv = some r ∧
    encryptStream evp rnd' out inp (some key) mod pad iv = some s ∧
    s.code = r.code ∧ s.fed.flatten = r.fed.flatten ∧
    (r.code = .ok → r.dstLen ≤ r.dst.length ∧ s.out.written = out.written ++ r.out)

variable (hS : Serves alg evp Cipher.Covered At) (hA : IsAes alg) (rnd rnd' : Nat → UInt8)
variable {dst key : Bytes} (n : Nat) {mod : Mode} {pad : Padding} {iv : Option Bytes}
  {inp : IStream} {out : OStream} {w : Work Cipher} {ctx : evp.Ctx} {m : Nat}

include hS in
theorem length_sealed {data : Bytes} (hdvd : (alg w.cipher).blockSize ∣ data.length) :
    (sealed alg w data).length = data.length + if (alg w.cipher).aead then 16 else 0 := by
  have hl := hS.lawful w.cipher
  have henc : ((alg w.cipher).enc w.key w.iv data).length = data.length :=
    hl.length_of_dvd .enc w.key w.iv hdvd
  rw [sealed, List.length_append, henc]
  split
  · rw [hl.length_tag]
  · rfl

include hS hA in
/-- On an open context, below 2^31 bytes, the overloads agree. -/
theorem alike_of_open (hm : mod.Covered) (hp : pad ≠ .iso10126)
    (hkey : isKeyValid mod (some key) = true) (hiv : isIvValid mod iv = true)
    (hplain : isPlainValid evp mod key.length pad inp.rest.length = some true)
    (hg : inp.Good) (ho : out.Open)
    (hopen : openCtx evp .enc true mod key iv = some (.ok ctx)) (hat : At ctx (.working w))
    (hw : Opened alg mod key .enc w)
    (hlt : (inp.rest ++ fill mod inp.rest.length pad).length < 2 ^ 31)
    (hres : encryptLenReserve evp inp.rest.length mod key.length = m)
    (hdst : m ≤ dst.length) :
    EncryptsAlike evp rnd rnd' dst n out inp key mod pad iv := by
  have hdvd := dvd_length_fill hA hm (.inr hp) hplain
  rw [← hw.cipher] at hdvd
  have hsealed := length_sealed hS hdvd
  have hroom : (sealed alg w (inp.rest ++ fill mod inp.rest.length pad)).length ≤ dst.length := by
    rw [hsealed, hw.aead]
    rcases hm with hm | rfl
    · simp only [encryptLenReserve, hm.blockSize] at hres
      have hfill : (fill mod inp.rest.length pad).length ≤ 16 - inp.rest.length % 16 := by
        unfold fill
        split
        · simp
        · exact length_filler_le _ _
      simp only [hm.aead, List.length_append]
      simp at hres
      simp
      omega
    · simp only [encryptLenReserve, blockSize_gcm hS hA hkey] at hres
      simp at hres
      simp [isAeadMode, fill]
      omega
  obtain ⟨s, hstream, hcode, hfed, hout⟩ := encryptStream_open hS hA hm rnd' hg ho hplain hkey hiv
    (.inr hp) hopen hat hw
  have hbuf := encrypt_checks rnd dst n hplain hkey hiv
    (paddingBlock_fill hS hA hm rnd hkey (.inr hp) inp.rest) (le_maxSize (by omega))
  rw [hopen, Option.bind_some] at hbuf
  dsimp only at hbuf
  rw [encryptWith_eq hS n hat hw hdvd hlt hroom] at hbuf
  refine ⟨_, s, hbuf, hstream, hcode, ?_, fun _ => ⟨by simp, ?_⟩⟩
  · simp [hfed]
  · simp [Result.out, hout]

/-- Past the last length whose padded form is an `int`, the buffer
overload hands over a negative length. -/
theorem encrypt_overflow (hS : Serves alg evp Cipher.Covered At) (hA : IsAes alg) (hm : mod.Plain)
    (hp : pad ≠ .iso10126) (hp' : pad ≠ .noPadding) (hkey : isKeyValid mod (some key) = true)
    (hiv : isIvValid mod iv = true) {src : Bytes}
    (hplain : isPlainValid evp mod key.length pad src.length = some true)
    (hlt : src.length < 2 ^ 31) (hbig : 2 ^ 31 - 16 ≤ src.length) :
    encrypt evp rnd dst n src (some key) mod pad iv = none := by
  have hne := hm.ne_gcm
  obtain ⟨ctx, hopen, -⟩ := openCtx_plain hS hA .enc true hm hkey hiv
  have hlen : (src ++ fill mod src.length pad).length = src.length + (16 - src.length % 16) := by
    rw [List.length_append, fill, if_neg hne]
    cases pad with
    | noPadding => exact absurd rfl hp'
    | iso10126 => exact absurd rfl hp
    | pkcs5 | pkcs7 | zero | ansix923 | isoIec7816_4 => simp [filler] <;> omega
  rw [encrypt_checks rnd dst n hplain hkey hiv
    (paddingBlock_fill hS hA (.inl hm) rnd hkey (.inr hp) src) (le_maxSize (by omega)), hopen,
    Option.bind_some]
  exact encryptWith_ub ctx dst n mod (by omega) (by omega)

/-- **Stream and buffer encryption.** For every mode, padding without
random bytes, valid key and iv and accepted input below 2^31 bytes, the
overloads feed the same bytes and produce the same bytes exactly when the
padded length is an `int` and, in GCM mode, an iv that is not refused has
the 12 bytes the second `EVP_EncryptInit_ex` reads. -/
theorem encryptsAlike_iff (hS : Serves alg evp Cipher.Covered At) (hA : IsAes alg)
    (hm : mod.Covered) (hp : pad ≠ .iso10126) (hkey : isKeyValid mod (some key) = true)
    (hiv : isIvValid mod iv = true)
    (hplain : isPlainValid evp mod key.length pad inp.rest.length = some true)
    (hlt : inp.rest.length < 2 ^ 31) (hg : inp.Good) (ho : out.Open)
    (hres : encryptLenReserve evp inp.rest.length mod key.length = m)
    (hdst : m ≤ dst.length) :
    EncryptsAlike evp rnd rnd' dst n out inp key mod pad iv ↔
      (mod ≠ .gcm → pad ≠ .noPadding → inp.rest.length < 2 ^ 31 - 16) ∧
      (mod = .gcm → (alg ⟨.gcm, key.length⟩).ivLenOk (toInt (iv.getD []).length) = true →
        12 ≤ (iv.getD []).length) := by
  rcases hm with hm | rfl
  · have hne := hm.ne_gcm
    constructor
    · rintro ⟨r, s, hr, -⟩
      refine ⟨fun _ hp' => ?_, fun h => absurd h hne⟩
      by_contra hbig
      rw [encrypt_overflow rnd n hS hA hm hp hp' hkey hiv hplain hlt (by omega)] at hr
      cases hr
    · rintro ⟨hfit, -⟩
      obtain ⟨ctx, hopen, hat⟩ := openCtx_plain hS hA .enc true hm hkey hiv
      refine alike_of_open hS hA rnd rnd' n (.inl hm) hp hkey hiv hplain hg ho hopen hat
        (session_opened hA .enc (.inl hm) key iv _) ?_ hres hdst
      have hfill := length_filler_le inp.rest.length pad
      rw [List.length_append, fill, if_neg hne]
      by_cases hp' : pad = .noPadding
      · rw [hp'] at hfill ⊢
        simpa [filler] using hlt
      · have := hfit hne hp'
        omega
  · obtain ⟨v, rfl, hpos⟩ := gcm_iv hiv
    obtain ⟨hno, hshort, hok⟩ := openCtx_gcm hS hA .enc hkey hpos
    have hpadded : paddingBlock evp rnd .gcm key.length pad inp.rest = _ :=
      paddingBlock_fill hS hA (.inr rfl) rnd hkey (.inl rfl) inp.rest
    have hbuf := encrypt_checks rnd dst n hplain hkey hiv hpadded
      (le_maxSize (by rw [fill, if_pos rfl, List.append_nil]; omega))
    constructor
    · rintro ⟨r, s, hr, -⟩
      refine ⟨fun h => absurd rfl h, fun _ haccept => ?_⟩
      by_contra hlt12
      rw [hbuf, hshort haccept (by simpa using hlt12)] at hr
      cases hr
    · rintro ⟨-, hlong⟩
      cases haccept : (alg ⟨.gcm, key.length⟩).ivLenOk (toInt v.length) with
      | true =>
        obtain ⟨ctx, hopen, hat⟩ := hok haccept (hlong rfl haccept)
        exact alike_of_open hS hA rnd rnd' n (.inr rfl) hp hkey hiv hplain hg ho hopen hat
          (session_opened hA .enc (.inr rfl) key (some v) 12) (by simpa [fill] using hlt) hres hdst
      | false =>
        -- a refused iv length ends both overloads at the same call
        have hstream := encryptStream_checks rnd' hg ho hplain hkey hiv (blockSize_gcm hS hA hkey)
        rw [hno haccept, Option.bind_some] at hbuf hstream
        exact ⟨_, _, hbuf, hstream, rfl, rfl, fun h => by cases h⟩

end Alike

/-- 2^31 - 1 bytes, one short of what would be refused anyway, under
PKCS#7 padding: the padded length is 2^31, and `(int)` of it is
-2^31. -/
theorem not_encryptsAlike_long :
    isKeyValid .ecb (some sampleKey) = true ∧ isIvValid .ecb none = true ∧
      isPlainValid sampleEvp .ecb 16 .pkcs7 (2 ^ 31 - 1) = some true ∧
      encryptLenReserve sampleEvp (2 ^ 31 - 1) .ecb 16 = 2 ^ 31 + 16 ∧
      ¬ EncryptsAlike sampleEvp (fun _ => 0) (fun _ => 0) (List.replicate (2 ^ 31 + 16) 0) 0
        OStream.empty (IStream.ofBytes (List.replicate (2 ^ 31 - 1) 0)) sampleKey .ecb .pkcs7
        none := by
  refine ⟨by decide, by decide, by decide, by decide, ?_⟩
  have hrest : (IStream.ofBytes (List.replicate (2 ^ 31 - 1) 0)).rest
      = List.replicate (2 ^ 31 - 1) 0 := rfl
  have hlen : (List.replicate (2 ^ 31 - 1) (0 : UInt8)).length = 2 ^ 31 - 1 :=
    List.length_replicate
  rintro ⟨r, s, hr, -⟩
  rw [hrest, encrypt_overflow (fun _ => 0) 0 sampleEvp_serves sampleAlg_isAes (.inl rfl)
    (by decide) (by decide) (by decide) (by decide) (by rw [hlen]; decide) (by rw [hlen]; decide)
    (by rw [hlen]; decide)] at hr
  cases hr

/-- Sixteen bytes and a block of padding, by buffer and by stream. -/
theorem encryptsAlike_iff_samplePlain :
    EncryptsAlike sampleEvp (fun _ => 0) (fun _ => 1) (List.replicate 48 0) 0 OStream.empty
        (IStream.ofBytes samplePlain) sampleKey .ecb .pkcs7 none ↔
      (Mode.ecb ≠ .gcm → Padding.pkcs7 ≠ .noPadding →
        (IStream.ofBytes samplePlain).rest.length < 2 ^ 31 - 16) ∧
      (Mode.ecb = .gcm → (sampleAlg ⟨.gcm, sampleKey.length⟩).ivLenOk
        (toInt ((none : Option Bytes).getD []).length) = true →
        12 ≤ ((none : Option Bytes).getD []).length) :=
  encryptsAlike_iff (fun _ => 0) (fun _ => 1) 0 sampleEvp_serves sampleAlg_isAes (.inl (.inl rfl))
    (by decide) (by decide) (by decide) (by decide) (by decide) (IStream.good_ofBytes _)
    OStream.open_empty (m := 48) (by decide) (by decide)

/-! ## Buffer decryption -/

section Decrypt

variable {alg : Cipher → Algorithm} {evp : Evp.Api Cipher} {At : evp.Ctx → Phase Cipher → Prop}
variable {mod : Mode} {key : Bytes} {pad : Padding} {iv : Option Bytes} {ctx : evp.Ctx}
  {w : Work Cipher}

/-- `decrypt` by buffer, up to the open context. -/
theorem decrypt_checks (dst : Bytes) (n : Nat) (src : Bytes) (pad : Padding) {b : Nat}
    (hkey : isKeyValid mod (some key) = true) (hiv : isIvValid mod iv = true)
    (hb : getBlockSize evp mod key.length = b)
    (hp : isRagged b pad src.length = some false) :
    decrypt evp dst n src (some key) mod pad iv
      = (openCtx evp .dec false mod key iv).bind fun
          | .error c => some ⟨c, dst, n, []⟩
          | .ok ctx => decryptWith evp ctx dst n mod pad b (splitTag mod src).1
              (splitTag mod src).2 := by
  have hrun := Eq.refl (decrypt evp dst n src (some key) mod pad iv)
  conv_rhs at hrun =>
    simp only [decrypt, hkey, hiv, Option.getD_some, hb, hp, Option.bind_eq_bind, Option.bind_some,
      Bool.not_true, Bool.false_eq_true, if_false]
  exact hrun

/-- **The buffer overload of `decrypt`** on an open context: the final
call decides, and what was decrypted is unpadded in place. -/
theorem decryptWith_eq (hS : Serves alg evp Cipher.Covered At) (dst : Bytes) (n : Nat)
    (pad : Padding) (b : Nat) (ct : Bytes) (tag : Option Bytes) (hat : At ctx (.working w))
    (hw : Opened alg mod key .dec w)
    (htag : ∀ t, tag = some t → isAeadMode mod = true ∧ t.length = 16)
    (hlt : ct.length < 2 ^ 31) (hdst : ct.length ≤ dst.length) :
    let p := (alg w.cipher).dec w.key w.iv ct
    let w' : Work Cipher := { w with tag := tag, fed := ct }
    (w'.Ends alg → decryptWith evp ctx dst n mod pad b ct tag
      = (unpaddingBlock (p ++ dst.drop p.length) p.length mod pad b).map fun len =>
          ⟨.ok, p ++ dst.drop p.length, len, [ct]⟩) ∧
    (¬ w'.Ends alg → decryptWith evp ctx dst n mod pad b ct tag
      = some ⟨.decryptFinalFailed, p ++ dst.drop p.length, n, [ct]⟩) := by
  have hl := hS.lawful w.cipher
  -- the tag, if there is one, is set
  obtain ⟨ctx1, hset, hat1⟩ : ∃ ctx1, setTag evp ctx tag = .ret ctx1 ∧
      At ctx1 (.working { w with tag := tag }) := by
    cases tag with
    | none => exact ⟨ctx, rfl, by rw [← hw.tag]; exact hat⟩
    | some t =>
      obtain ⟨ha, hlen⟩ := htag t rfl
      exact hS.setTag ctx w t hat hw.dir (hw.aead.trans ha) hlen
  obtain ⟨ctx2, o, hup, hat2, ho⟩ := hS.update ctx1 { w with tag := tag } ct hat1
    (hw.direct w.fed tag) hlt
  simp only [hw.dir] at hup
  simp only [Work.out, hw.fed, hw.dir, List.nil_append, hl.apply_nil] at ho
  have hout : o = (alg w.cipher).dec w.key w.iv ct := ho.symm
  have hlen : o.length ≤ ct.length := by
    rw [hout]; exact hl.length_le .dec w.key w.iv ct
  have hw1 : writeN dst 0 o = some (o ++ dst.drop o.length) := writeN_zero (by omega)
  have hw2 : writeN (o ++ dst.drop o.length) o.length [] = some (o ++ dst.drop o.length) :=
    writeN_nil (by simp)
  have hwork : ({ w with tag := tag, fed := w.fed ++ ct } : Work Cipher)
      = { w with tag := tag, fed := ct } := by rw [hw.fed, List.nil_append]
  simp only at hat2
  rw [hwork] at hat2
  intro p w'
  have hrun : decryptWith evp ctx dst n mod pad b ct tag
      = (evp.final .dec ctx2).check (some ⟨.decryptFinalFailed, o ++ dst.drop o.length, n, [ct]⟩)
          fun q => (writeN (o ++ dst.drop o.length) o.length q.2).bind fun d =>
            (unpaddingBlock d (o.length + q.2.length) mod pad b).bind fun len =>
              some ⟨.ok, d, len, [ct]⟩ := by
    unfold decryptWith
    rw [hset]
    simp only [Call.check_ret]
    rw [updateN_eq .dec ctx1 hlt, hup, handed_eq hlt]
    simp only [Call.check_ret, hw1, Option.bind_eq_bind, Option.bind_some]
  constructor
  · intro hends
    obtain ⟨ctx3, hfin, -⟩ := hS.final_ok ctx2 _ hat2 (hw.direct _ _) hends
    simp only [hw.dir] at hfin
    rw [hrun, hfin, Call.check_ret, hw2, Option.bind_some, List.length_nil, Nat.add_zero, hout,
      Option.map_eq_bind]
    rfl
  · intro hends
    have hfin := hS.final_err ctx2 _ hat2 (hw.direct _ _) hends
    simp only [hw.dir] at hfin
    rw [hrun, hfin, Call.check_err, hout]

end Decrypt

/-! ## The GCM round trip -/

section Gcm

variable {alg : Cipher → Algorithm} {evp : Evp.Api Cipher} {At : evp.Ctx → Phase Cipher → Prop}

/-- `encrypt` gives the message and 16 bytes more, and `decrypt` of that
gives exactly the message back. -/
def GcmRoundTrip (evp : Evp.Api Cipher) (rnd : Nat → UInt8) (dst dst' : Bytes) (n n' : Nat)
    (x key : Bytes) (pad : Padding) (iv : Bytes) : Prop :=
  ∃ r r', encrypt evp rnd dst n x (some key) .gcm pad (some iv) = some r ∧ r.code = .ok ∧
    r.dstLen = x.length + 16 ∧ r.dstLen ≤ r.dst.length ∧
    decrypt evp dst' n' r.out (some key) .gcm pad (some iv) = some r' ∧ r'.code = .ok ∧
    r'.dstLen = x.length ∧ r'.out = x

variable (hS : Serves alg evp Cipher.Covered At) (hA : IsAes alg) (rnd : Nat → UInt8)
  {dst dst' : Bytes} (n n' : Nat) {x key : Bytes} {pad : Padding} {iv : Bytes}

/-- The whole output of an encryption with `m` bytes of iv. -/
def gcmSealed (alg : Cipher → Algorithm) (key iv : Bytes) (m : Nat) (x : Bytes) : Bytes :=
  (alg ⟨.gcm, key.length⟩).enc key (iv.take m) x ++ (alg ⟨.gcm, key.length⟩).tag key (iv.take m) x

include hA in
/-- GCM takes any number of bytes. -/
theorem gcm_dvd (key y : Bytes) : (alg ⟨.gcm, key.length⟩).blockSize ∣ y.length := by
  rw [(hA ⟨.gcm, key.length⟩ 1 12 true rfl).1]
  exact Nat.one_dvd _

include hS hA in
theorem length_gcm_apply (d : Dir) (v y : Bytes) :
    ((alg ⟨.gcm, key.length⟩).apply d key v y).length = y.length :=
  (hS.lawful _).length_of_dvd d key v (gcm_dvd hA key y)

include hS hA in
theorem length_gcmSealed (m : Nat) : (gcmSealed alg key iv m x).length = x.length + 16 := by
  have henc : ((alg ⟨.gcm, key.length⟩).enc key (iv.take m) x).length = x.length :=
    length_gcm_apply hS hA .enc _ x
  rw [gcmSealed, List.length_append, henc, (hS.lawful _).length_tag]

include hS hA in
/-- **GCM encryption** uses 12 bytes of an iv whose length is accepted; a
shorter one is overrun. -/
theorem encrypt_gcm (pad : Padding) (hkey : isKeyValid .gcm (some key) = true) (hpos : 0 < iv.length)
    (hlt : x.length < 2 ^ 31) (hdst : x.length + 16 ≤ dst.length) :
    ((alg ⟨.gcm, key.length⟩).ivLenOk (toInt iv.length) = false →
      encrypt evp rnd dst n x (some key) .gcm pad (some iv)
        = some ⟨.cipherCtlFailed, dst, n, []⟩) ∧
    ((alg ⟨.gcm, key.length⟩).ivLenOk (toInt iv.length) = true → iv.length < 12 →
      encrypt evp rnd dst n x (some key) .gcm pad (some iv) = none) ∧
    ((alg ⟨.gcm, key.length⟩).ivLenOk (toInt iv.length) = true → 12 ≤ iv.length →
      ∃ r, encrypt evp rnd dst n x (some key) .gcm pad (some iv) = some r ∧ r.code = .ok ∧
        r.dstLen = x.length + 16 ∧ r.dstLen ≤ r.dst.length ∧ r.out = gcmSealed alg key iv 12 x) := by
  have hiv : isIvValid .gcm (some iv) = true := decide_eq_true hpos
  have hplain : isPlainValid evp .gcm key.length pad x.length = some true := by
    rw [isPlainValid_iff, blockSize_gcm hS hA hkey]
    exact (isRagged_eq_false (by decide)).mpr fun _ => Nat.one_dvd _
  have hbuf := encrypt_checks rnd dst n hplain hkey hiv
    (paddingBlock_gcm (blockSize_gcm hS hA hkey) rnd pad x) (le_maxSize (by omega))
  obtain ⟨hno, hshort, hok⟩ := openCtx_gcm hS hA .enc hkey hpos
  refine ⟨fun h => ?_, fun h hlt12 => ?_, fun h hle => ?_⟩
  · rw [hbuf, hno h, Option.bind_some]
  · rw [hbuf, hshort h hlt12, Option.bind_none]
  · obtain ⟨ctx, hopen, hat⟩ := hok h hle
    have hw := session_opened hA .enc (.inr rfl) key (some iv) 12
    have haead := hw.aead
    have hsealed : sealed alg (session .enc .gcm key (some iv) 12) x = gcmSealed alg key iv 12 x := by
      rw [sealed, haead, isAeadMode, if_pos rfl]
      rfl
    have hlen : (gcmSealed alg key iv 12 x).length = x.length + 16 := length_gcmSealed hS hA 12
    have hdvd : (alg (session .enc .gcm key (some iv) 12).cipher).blockSize ∣ x.length :=
      gcm_dvd hA key x
    rw [hopen, Option.bind_some] at hbuf
    dsimp only at hbuf
    rw [encryptWith_eq hS n hat hw hdvd hlt (by rw [hsealed, hlen]; exact hdst), hsealed] at hbuf
    refine ⟨_, hbuf, rfl, hlen, by simp, ?_⟩
    simp [Result.out]

include hS hA in
/-- **GCM decryption** looks for a tag only in more than 16 bytes, and
uses the iv length that was set. -/
theorem decrypt_gcm (pad : Padding) (hkey : isKeyValid .gcm (some key) = true) (hpos : 0 < iv.length)
    (hok : (alg ⟨.gcm, key.length⟩).ivLenOk (toInt iv.length) = true) {ct tag : Bytes}
    (htag : tag.length = 16) (hlt : ct.length < 2 ^ 31) (hdst : ct.length + 16 ≤ dst.length) :
    let v := iv.take (toInt iv.length).toNat
    let a := alg ⟨.gcm, key.length⟩
    ∃ r, decrypt evp dst n (ct ++ tag) (some key) .gcm pad (some iv) = some r ∧
      (r.code = .ok ↔ ct ≠ [] ∧ tag = a.tag key v (a.dec key v ct)) ∧
      (r.code = .ok → r.dstLen = ct.length ∧ r.out = a.dec key v ct) := by
  have hiv : isIvValid .gcm (some iv) = true := decide_eq_true hpos
  have hb := blockSize_gcm hS hA hkey
  obtain ⟨ctx, hopen, hat⟩ := openCtx_gcm_null hS hA .dec hkey hpos hok
  -- which length it is plays no part
  generalize (toInt iv.length).toNat = m at hat ⊢
  intro v a
  have hw := session_opened hA .dec (.inr rfl) key (some iv) m
  have hdec : decrypt evp dst n (ct ++ tag) (some key) .gcm pad (some iv)
      = decryptWith evp ctx dst n .gcm pad 1 (splitTag .gcm (ct ++ tag)).1
          (splitTag .gcm (ct ++ tag)).2 := by
    rw [decrypt_checks dst n (ct ++ tag) pad hkey hiv hb
      ((isRagged_eq_false (by decide)).mpr fun _ => Nat.one_dvd _), hopen, Option.bind_some]
  by_cases hnil : ct = []
  · -- sixteen bytes are taken for ciphertext, and no tag is set
    have hsplit : splitTag .gcm (ct ++ tag) = (tag, none) := by
      simp [splitTag, hnil, htag]
    have hends : ¬ ({ session .dec .gcm key (some iv) m with
        tag := none, fed := tag } : Work Cipher).Ends alg := by
      rintro ⟨-, h⟩
      cases h rfl hw.aead
    rw [hsplit] at hdec
    have hrun := (decryptWith_eq hS dst n pad 1 tag none hat hw (fun t h => by cases h) (by omega)
      (by omega)).2 hends
    exact ⟨_, hdec.trans hrun, by simp [hnil], fun h => by cases h⟩
  · have hpos' := List.length_pos_of_ne_nil hnil
    have hsplit : splitTag .gcm (ct ++ tag) = (ct, some tag) := by
      have hgt : (ct ++ tag).length > 16 := by rw [List.length_append]; omega
      have hsub : (ct ++ tag).length - 16 = ct.length := by rw [List.length_append]; omega
      simp only [splitTag, isAeadMode, hgt, decide_true, Bool.and_true, if_true, hsub,
        List.take_left, List.drop_left]
    rw [hsplit] at hdec
    have hlen : (a.dec key v ct).length = ct.length := length_gcm_apply hS hA .dec v ct
    have hunpad (d : Bytes) (k : Nat) : unpaddingBlock d k .gcm pad 1 = some k := by
      simp [unpaddingBlock]
    obtain ⟨hyes, hno⟩ := decryptWith_eq hS dst n pad 1 ct (some tag) hat hw
      (fun t h => ⟨rfl, by cases h; exact htag⟩) hlt (by omega)
    have hends : ({ session .dec .gcm key (some iv) m with
        tag := some tag, fed := ct } : Work Cipher).Ends alg ↔
          tag = a.tag key v (a.dec key v ct) := by
      constructor
      · rintro ⟨-, h⟩
        exact Option.some.inj (h rfl hw.aead)
      · intro h
        exact ⟨gcm_dvd hA key ct, fun _ _ => congrArg some h⟩
    by_cases htags : tag = a.tag key v (a.dec key v ct)
    · have hrun := hyes (hends.mpr htags)
      rw [hunpad, Option.map_some] at hrun
      refine ⟨_, hdec.trans hrun, ⟨fun _ => ⟨hnil, htags⟩, fun _ => rfl⟩, fun _ => ⟨hlen, ?_⟩⟩
      exact List.take_left
    · have hrun := hno fun h => htags (hends.mp h)
      exact ⟨_, hdec.trans hrun, by simp [htags], fun h => by cases h⟩

/-- **The GCM round trip.** It holds exactly for a message that is not
empty, under an iv of an accepted length of at least 12 bytes, if all the
bytes of the iv encrypt the message as its first 12 do. -/
theorem gcmRoundTrip_iff (hS : Serves alg evp Cipher.Covered At) (hA : IsAes alg)
    (hkey : key.length = 16 ∨ key.length = 24 ∨ key.length = 32) (hiv : iv ≠ [])
    (hlt : x.length < 2 ^ 31) (hdst : x.length + 16 ≤ dst.length)
    (hdst' : x.length + 16 ≤ dst'.length) :
    GcmRoundTrip evp rnd dst dst' n n' x key pad iv ↔
      x ≠ [] ∧ (alg ⟨.gcm, key.length⟩).ivLenOk (toInt iv.length) = true ∧ 12 ≤ iv.length ∧
      gcmSealed alg key iv (toInt iv.length).toNat x = gcmSealed alg key iv 12 x := by
  have hkey' : isKeyValid .gcm (some key) = true := by
    rcases hkey with h | h | h <;> simp [isKeyValid, h]
  have hpos := List.length_pos_of_ne_nil hiv
  have hl := hS.lawful ⟨.gcm, key.length⟩
  obtain ⟨hno, hshort, hok⟩ := encrypt_gcm hS hA rnd n pad hkey' hpos hlt hdst
  have henclen : ((alg ⟨.gcm, key.length⟩).enc key (iv.take 12) x).length = x.length :=
    length_gcm_apply hS hA .enc _ x
  -- both directions meet at the decryption of what encryption gives
  have hdec (haccept : (alg ⟨.gcm, key.length⟩).ivLenOk (toInt iv.length) = true) :=
    decrypt_gcm hS hA n' pad hkey' hpos haccept
      (hl.length_tag key (iv.take 12) x) (henclen.symm ▸ hlt) (henclen.symm ▸ hdst')
  constructor
  · rintro ⟨r, r', hr, hcode, -, -, hr', hcode', -, hout'⟩
    have haccept : (alg ⟨.gcm, key.length⟩).ivLenOk (toInt iv.length) = true := by
      by_contra h
      rw [hno (by simpa using h)] at hr
      cases hr
      cases hcode
    have hle : 12 ≤ iv.length := by
      by_contra h
      rw [hshort haccept (by omega)] at hr
      cases hr
    obtain ⟨r0, hr0, -, -, -, hout⟩ := hok haccept hle
    cases hr.symm.trans hr0
    obtain ⟨r1, hr1, hiff, hgives⟩ := hdec haccept
    rw [hout] at hr'
    cases hr'.symm.trans hr1
    obtain ⟨hne, htag⟩ := hiff.mp hcode'
    obtain ⟨-, hplain⟩ := hgives hcode'
    rw [hout'] at hplain
    rw [← hplain] at htag
    have henc := hl.enc_dec key (iv.take (toInt iv.length).toNat) _ (gcm_dvd hA key
      ((alg ⟨.gcm, key.length⟩).enc key (iv.take 12) x))
    rw [← hplain] at henc
    refine ⟨?_, haccept, hle, ?_⟩
    · rintro rfl
      exact hne (hl.apply_nil .enc key _)
    · rw [gcmSealed, gcmSealed, henc, htag]
  · rintro ⟨hne, haccept, hle, hsame⟩
    obtain ⟨r, hr, hcode, hlen, hfits, hout⟩ := hok haccept hle
    obtain ⟨r', hr', hiff, hgives⟩ := hdec haccept
    obtain ⟨henc, htag⟩ := List.append_inj hsame (by
      rw [henclen]; exact length_gcm_apply hS hA .enc _ x)
    have hplain : (alg ⟨.gcm, key.length⟩).dec key (iv.take (toInt iv.length).toNat)
        ((alg ⟨.gcm, key.length⟩).enc key (iv.take 12) x) = x := by
      rw [← henc]
      exact hl.dec_enc _ _ _ (gcm_dvd hA key x)
    rw [hplain] at hiff hgives
    have hcode' : r'.code = .ok := hiff.mpr ⟨fun h => hne ?_, htag.symm⟩
    · obtain ⟨hlen', hout'⟩ := hgives hcode'
      refine ⟨r, r', hr, hcode, hlen, hfits, ?_, hcode', by rw [hlen', henclen], hout'⟩
      rw [hout]
      exact hr'
    · rw [← List.length_eq_zero_iff, ← henclen, h, List.length_nil]

end Gcm

/-- The empty message: its 16 bytes of tag are read as ciphertext and
decryption fails. -/
theorem not_gcmRoundTrip_nil :
    ¬ GcmRoundTrip sampleEvp (fun _ => 0) (List.replicate 16 0) (List.replicate 16 0) 0 0 []
      (List.replicate 16 0) .pkcs7 (List.replicate 12 0) := by
  rintro ⟨r, r', hr, -, -, -, hr', hcode', -⟩
  have henc : encrypt sampleEvp (fun _ => 0) (List.replicate 16 0) 0 [] (some (List.replicate 16 0))
      .gcm .pkcs7 (some (List.replicate 12 0))
        = some ⟨.ok, sampleTag [] [] [], 16, [[]]⟩ := by decide
  cases hr.symm.trans henc
  have hdec : decrypt sampleEvp (List.replicate 16 0) 0 (sampleTag [] [] [])
      (some (List.replicate 16 0)) .gcm .pkcs7 (some (List.replicate 12 0))
        = some ⟨.decryptFinalFailed, (sampleAlg ⟨.gcm, 16⟩).dec (List.replicate 16 0)
            (List.replicate 12 0) (sampleTag [] [] []), 0, [sampleTag [] [] []]⟩ := by decide
  cases hr'.symm.trans hdec
  cases hcode'

/-- Sixteen zero bytes under a zero key and a 12-byte iv. -/
theorem gcmRoundTrip_iff_zeros :
    GcmRoundTrip sampleEvp (fun _ => 0) (List.replicate 32 0) (List.replicate 32 0) 0 0
        (List.replicate 16 0) (List.replicate 16 0) .pkcs7 (List.replicate 12 0) ↔
      List.replicate 16 (0 : UInt8) ≠ [] ∧
      (sampleAlg ⟨.gcm, (List.replicate 16 (0 : UInt8)).length⟩).ivLenOk
        (toInt (List.replicate 12 (0 : UInt8)).length) = true ∧
      12 ≤ (List.replicate 12 (0 : UInt8)).length ∧
      gcmSealed sampleAlg (List.replicate 16 0) (List.replicate 12 0)
          (toInt (List.replicate 12 (0 : UInt8)).length).toNat (List.replicate 16 0)
        = gcmSealed sampleAlg (List.replicate 16 0) (List.replicate 12 0) 12
            (List.replicate 16 0) :=
  gcmRoundTrip_iff (fun _ => 0) 0 0 sampleEvp_serves sampleAlg_isAes (.inl rfl) (by decide)
    (by decide) (by decide) (by decide)

end HighJump.Crypto.Aes
