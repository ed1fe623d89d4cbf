/-
HighJump.Apps.CryptoCoreTheorems — what the crypto core encrypts, it
decrypts.

Both calls go through a parameter block of C strings: the answer is copied
into the block's buffer by `strncpy_s`, which stops at a zero, and read
from there up to one. The hexadecimal text of a ciphertext has no zero, so
with that format a message comes back for every mode and padding that the
AES overloads give it back for. The other formats carry a ciphertext only
by luck: the bare bytes are cut at a zero, and base64 is not undone.
-/
import HighJump.Apps.CryptoCore
import HighJump.Crypto.Base64StreamTheorems

namespace HighJump.Apps.CryptoCore

open HighJump.Lib
open HighJump.Crypto HighJump.Encoding
open HighJump.Util (Bytes cstr strncpyS strncpyS_eq not_mem_cstr cstr_of_not_mem cstr_append_zero)

section Parts

variable {E : Env}

/-! ## `formator` -/

theorem format_hex {x : Bytes} (hx : x ≠ []) (out : Bytes) :
    formatMemory E out x (lit "hex") = some (.ok, Hex.encode x true) := by
  have hne : Hex.encode x true ≠ [] := by
    rw [← List.length_pos_iff, Hex.length_encode]
    have := List.length_pos_iff.mpr hx
    omega
  simp [formatMemory, hne]

theorem unformat_hex {x : Bytes} (hx : x ≠ []) (out : Bytes) :
    unformatMemory E out (Hex.encode x true) (lit "hex") = (.ok, x) := by
  have hdec : Hex.decode (Hex.encode x true) = x := Hex.decode_of_filter (Hex.filter_encode x true)
  simp [unformatMemory, hdec, hx]

theorem hex_not_mem (x : Bytes) : 0 ∉ Hex.encode x true := by
  intro h
  exact absurd (Hex.isHexChar_encode x true 0 h) (by decide)

/-- **Base64 is not undone**: the text stays as it is. -/
theorem unformat_base64 {text : Bytes} (h : (Base64Stream.decodeString E.decoder text).1 = .ok)
    (out : Bytes) : unformatMemory E out text (lit "base64") = (.ok, text) := by
  have hhex : lit "base64" ≠ lit "hex" := by decide
  simp [unformatMemory, hhex, h]

/-! ## The managers -/

theorem call_encryptors {c : Cryptor} {r : Request} (hr : r.algo = c.type)
    (hc : (encryptors E).find? (fun e => e.type == c.type) = some c) :
    call (encryptors E) r = c.run r := by
  rw [call, hr, hc]

theorem call_decryptors {c : Cryptor} {r : Request} (hr : r.algo = c.type)
    (hc : (decryptors E).find? (fun e => e.type == c.type) = some c) :
    call (decryptors E) r = c.run r := by
  rw [call, hr, hc]

/-! ## The block -/

/-- A short answer without a zero arrives. -/
theorem api_answer {cs : List Cryptor} {p : Param} {r : Request} {buf out : Bytes}
    (hreq : request p = some r) (hbuf : p.out = some buf) (hsize : buf.length = maxOutputSize)
    (hlen : p.outLen = some 0) (hcall : call cs r = some (.ok, out)) (h0 : 0 ∉ out)
    (hfit : out.length < maxOutputSize) :
    ∃ buf', api cs p =
        some { p with result := .ok, outLen := some out.length, out := some buf' } ∧
      cstr buf' = out := by
  have hcopied : Util.copied maxOutputSize out out.length = out := by
    rw [Util.copied, cstr_of_not_mem h0]
    exact List.take_of_length_le (by omega)
  have hcopy := strncpyS_eq buf (show 0 < maxOutputSize by decide) out out.length
  rw [hcopied, hsize, if_pos hfit] at hcopy
  have hint : Des.toInt out.length = out.length := by
    refine Des.toInt_eq ?_
    have hmax : maxOutputSize = 16384 := rfl
    omega
  refine ⟨_, ?_, cstr_append_zero h0 (buf.drop (out.length + 1))⟩
  simp [api, hreq, hcall, hbuf, hcopy, hlen, hint]

/-- An error arrives, and nothing else. -/
theorem api_refused {cs : List Cryptor} {p p' : Param} {r : Request} {err : Code} {out : Bytes}
    (hreq : request p = some r) (hcall : call cs r = some (err, out)) (herr : err ≠ .ok)
    (h : api cs p = some p') : p' = { p with result := err } := by
  simp only [api, hreq, hcall, Option.bind_eq_bind, Option.bind_some, herr, if_false] at h
  split at h
  · exact (Option.some.inj h).symm
  · exact (Option.some.inj h).symm

/-! ## AES -/

theorem paddings_pad : ∀ p ∈ supportedPaddings, strToAesPadding p ≠ .noPadding := by decide

/-- What passes the checks of the classes. -/
structure Passes (r : Request) : Prop where
  mode : r.mode ∈ supportedModes
  key : Aes.isKeyValid (strToAesMode r.mode) (some r.key) = true
  padding : r.padding ∈ supportedPaddings
  iv : Aes.isIvValid (strToAesMode r.mode) (ivArg r.iv) = true
  fmt : isSupportedStyle r.fmt = true

theorem Passes.checks {r : Request} (h : Passes r) : aesChecks r = none := by
  simp [aesChecks, h.mode, h.key, h.padding, h.iv, h.fmt]

/-- The iv that passed is the one that is used. -/
theorem ivPtr_valid {mod : Aes.Mode} {iv : Bytes} (hm : mod ≠ .wrap ∧ mod ≠ .wrapPad)
    (h : Aes.isIvValid mod (ivArg iv) = true) : Aes.isIvValid mod (Aes.ivPtr mod iv) = true := by
  by_cases hecb : mod = .ecb
  · subst hecb
    rfl
  · rw [Aes.ivPtr, if_neg hecb]
    by_cases hiv : iv = []
    · rw [ivArg, if_pos hiv] at h
      cases mod <;> simp_all [Aes.isIvValid]
    · rwa [ivArg, if_neg hiv] at h

variable {alg : Aes.Cipher → Evp.Algorithm} {At : E.evp.Ctx → Evp.Phase Aes.Cipher → Prop}

/-- **AES there and back, in hexadecimal**: the text of the ciphertext
decrypts to the content, whatever else `r'` holds. -/
theorem aes_there_and_back (hS : Evp.Serves alg E.evp Aes.Cipher.Covered At) (hA : Aes.IsAes alg)
    {r : Request} (hr : Passes r) (hfmt : r.fmt = lit "hex") (hout : r.out = []) (hinp : r.inp = [])
    (hne : r.content ≠ []) (htext : 0 ∉ r.content)
    (hback : Aes.GivesBack alg (strToAesMode r.mode) r.key r.iv r.content)
    (hlt : r.content.length < 2 ^ 31 - 16) :
    ∃ text, aesEncrypt E r = some (.ok, text) ∧ 0 ∉ text ∧
      text.length ≤ 2 * (r.content.length + 16) ∧
      aesDecrypt E { r with content := text } = some (.ok, r.content) := by
  have hpad := paddings_pad r.padding hr.padding
  have hwrap : strToAesMode r.mode ≠ .wrap ∧ strToAesMode r.mode ≠ .wrapPad := by
    rcases hback with hm | ⟨hm, -⟩
    · rcases hm with hm | hm | hm | hm | hm <;> simp [hm]
    · simp [hm]
  obtain ⟨c, hge, hlen, henc, hdec⟩ := Aes.comes_back hS hA hback hpad hr.key
    (ivPtr_valid hwrap hr.iv) hlt E.rnd [] []
  have hplain : (if strToAesMode r.mode = .gcm then r.content
      else Aes.recovered (strToAesPadding r.padding) r.content) = r.content := by
    rw [Aes.recovered_text htext]
    exact ite_self _
  rw [hplain] at hdec
  have hc : c ≠ [] := by
    rintro rfl
    exact hne (List.eq_nil_of_length_eq_zero (Nat.le_zero.mp hge))
  have hvalid : aesInputValid E r = some true := by
    simp [aesInputValid, hne, hout, Aes.isPlainValid, Aes.isRagged, hpad]
  refine ⟨Hex.encode c true, ?_, hex_not_mem c, ?_, ?_⟩
  · simp [aesEncrypt, hr.checks, hvalid, hout, hinp, henc, hfmt, format_hex hc]
  · rw [Hex.length_encode]
    omega
  · have hchecks : aesChecks { r with content := Hex.encode c true } = none := hr.checks
    rw [aesDecrypt, hchecks]
    simp [hout, hinp, hfmt, unformat_hex hc, hdec]

/-! ## Base64 -/

variable {limit : Nat} {Due : E.decoder.Chain → Bytes → Prop}

theorem base64_not_mem (x : Bytes) : 0 ∉ Lib.Base64.encode x := by
  simp only [Lib.Base64.encode, List.mem_append, List.mem_map, List.mem_replicate, not_or]
  refine ⟨?_, fun h => absurd h.2 (by decide)⟩
  rintro ⟨v, hv, h0⟩
  have hmem := Lib.Base64.char_mem_alphabet (Lib.Base64.sextets_lt x v hv)
  rw [h0] at hmem
  exact absurd hmem (by decide)

theorem base64_there_and_back (hB : E.bio.Documented limit)
    (hD : Base64Stream.Decoder.Delivers E.decoder Due)
    (hnew : E.bio.newBase64.isSome = true ∧ E.bio.newMem = true ∧ E.decoder.newBase64 = true)
    (hbuf : ∀ src n, (E.decoder.newMemBuf src n).isSome = true) {r : Request}
    (hfmt : isSupportedStyle r.fmt = true) (hout : r.out = []) (hinp : r.inp = [])
    (hne : r.content ≠ []) (hlt : r.content.length < 2 ^ 30)
    (hlimit : r.content.length ≤ limit) :
    base64Encrypt E r = some (.ok, Lib.Base64.encode r.content) ∧
      base64Decrypt E { r with content := Lib.Base64.encode r.content } =
        some (.ok, r.content) := by
  have hlen := Lib.Base64.length_encode r.content
  have henc := Base64Stream.encodeString_eq hB hnew.1 hnew.2.1 hne (by omega) hlimit
  have hdec := Base64Stream.decodeString_eq hD hnew.2.2 hbuf hne (by omega)
  constructor
  · simp [base64Encrypt, hfmt, hout, hinp, henc]
  · simp [base64Decrypt, hout, hinp, hdec]

/-! ## DES and RSA -/

/-- The lists that are checked against are empty. -/
theorem call_refused {r : Request} (h : r.algo = lit "des" ∨ r.algo = lit "rsa") :
    ∃ err, err ≠ .ok ∧ call (encryptors E) r = some (err, r.out) := by
  rcases h with h | h
  · exact ⟨.invalidMode, by decide, (call_encryptors (c := ⟨lit "des", desEncrypt E⟩) h rfl).trans
      (by simp [desEncrypt])⟩
  · have hcall := call_encryptors (c := ⟨lit "rsa", rsaEncrypt E⟩) h rfl
    by_cases hkey : Rsa.isKeyPairBitsValid (r.key.length * 8) = true
    · exact ⟨.invalidPadding, by decide, hcall.trans (by simp [rsaEncrypt, hkey])⟩
    · exact ⟨.invalidKey, by decide, hcall.trans (by simp [rsaEncrypt, hkey])⟩

/-- A call is about the algorithm its block names. -/
theorem request_algo {p : Param} {r : Request} (h : request p = some r) : r.algo = str p.algo := by
  obtain ⟨out, -, rfl⟩ := Option.map_eq_some_iff.mp h
  rfl

end Parts

/-! ## Through the blocks -/

/-- What a caller sets besides the content. -/
structure Args where
  algo : Bytes
  mode : Bytes
  key : Bytes
  padding : Bytes
  iv : Bytes
  fmt : Bytes

/-- A block as it is required, with the parameters set. -/
def ask (mem : Nat → UInt8) (content : Bytes) (a : Args) : Param :=
  { Param.init mem with
    content := some content, algo := some a.algo, mode := some a.mode, key := some a.key,
    padding := some a.padding, iv := some a.iv, fmt := some a.fmt }

def asked (content : Bytes) (a : Args) : Request where
  out := []
  inp := []
  content := cstr content
  algo := cstr a.algo
  mode := cstr a.mode
  key := cstr a.key
  passwd := []
  padding := cstr a.padding
  iv := cstr a.iv
  fmt := cstr a.fmt

theorem request_ask (mem : Nat → UInt8) (content : Bytes) (a : Args) :
    request (ask mem content a) = some (asked content a) := by
  simp [request, outString, ask, asked, Param.init, readN, str]

/-- Two blocks: the content is encrypted through the one, and what its
buffer holds then is decrypted through the other. -/
def ComesBack (E : Env) (content : Bytes) (a : Args) : Prop :=
  ∀ mem mem', ∃ e text d buf, cryptoEncrypt E (ask mem content a) = some e ∧ e.result = .ok ∧
    e.out = some text ∧ cryptoDecrypt E (ask mem' text a) = some d ∧ d.result = .ok ∧
    d.out = some buf ∧ cstr buf = cstr content ∧ d.outLen = some (cstr content).length

theorem comesBack_of_calls {E : Env} {content text : Bytes} {a : Args}
    (henc : call (encryptors E) (asked content a) = some (.ok, text)) (h0 : 0 ∉ text)
    (hfit : text.length < maxOutputSize)
    (hdec : call (decryptors E) { asked content a with content := text } =
      some (.ok, cstr content)) (hsmall : (cstr content).length < maxOutputSize) :
    ComesBack E content a := by
  intro mem mem'
  have hsize (mem : Nat → UInt8) : ((List.range maxOutputSize).map mem).length = maxOutputSize := by
    rw [List.length_map, List.length_range]
  obtain ⟨buf, he, hbuf⟩ := api_answer (request_ask mem content a) rfl (hsize mem) rfl henc h0 hfit
  have hreq : request (ask mem' buf a) = some { asked content a with content := text } := by
    rw [request_ask, ← hbuf]
    rfl
  obtain ⟨buf', hd, hbuf'⟩ := api_answer hreq rfl (hsize mem') rfl hdec (not_mem_cstr content) hsmall
  exact ⟨_, buf, _, buf', he, rfl, rfl, hd, rfl, rfl, hbuf', rfl⟩

def textKey : Bytes := lit "0123456789abcdef"

/-- "hello" and its padding, and what AES makes of the block. -/
def textPlain : Bytes := lit "hello" ++ List.replicate 11 11

def textCipher : Bytes := [0x67, 0x4c, 0x7e, 0xf3, 0x8e, 0x78, 0xca, 0xbd, 0x9c, 0xec, 0x9c, 0x12,
  0x58, 0x23, 0xa6, 0x39]

/-- AES under `textKey` on these two blocks; other blocks stay. -/
def textBlock (key b : Bytes) : Bytes :=
  if key = textKey then Equiv.swap textPlain textCipher b else b

theorem textBlock_textBlock (key b : Bytes) : textBlock key (textBlock key b) = b := by
  by_cases hk : key = textKey <;> simp [textBlock, hk]

theorem length_textBlock (key : Bytes) {b : Bytes} (h : b.length = 16) :
    (textBlock key b).length = 16 := by
  unfold textBlock
  rw [Equiv.swap_apply_def]
  repeat' split
  all_goals first | exact h | decide

def textAlg (c : Aes.Cipher) : Evp.Algorithm :=
  match c.mode with
  | .ecb => Evp.ofBlocks 16 c.keyLen 0 textBlock textBlock
  | _ => Aes.sampleAlg c

theorem textAlg_lawful (c : Aes.Cipher) : (textAlg c).Lawful := by
  unfold textAlg
  split
  · exact Evp.ofBlocks_lawful (by decide) _ _ (fun k _ h => length_textBlock k h)
      (fun k _ h => length_textBlock k h) (fun k x _ => textBlock_textBlock k x)
      (fun k x _ => textBlock_textBlock k x)
  · exact Aes.sampleAlg_lawful c

theorem textAlg_isAes : Aes.IsAes textAlg := by
  rintro ⟨mode, k⟩ b v a h
  cases mode <;> cases h <;> exact ⟨rfl, rfl, rfl, rfl⟩

def textEnv : Env where
  evp := Evp.reference textAlg
  rnd := fun _ => 0
  bio := Base64Stream.bufferBio
  decoder := Base64Stream.listDecoder
  md5 := Digest.hashOf [] []
  sha := fun _ => Digest.hashOf [] []
  encrypting := fun _ => ⟨fun _ => none, fun _ => none⟩
  decrypting := fun _ => ⟨fun _ => none, fun _ => none⟩

def textArgs : Args where
  algo := lit "aes"
  mode := lit "ecb"
  key := textKey
  padding := lit "pkcs7"
  iv := []
  fmt := lit "hex"

end HighJump.Apps.CryptoCore
