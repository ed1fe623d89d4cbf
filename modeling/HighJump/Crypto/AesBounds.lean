/-
HighJump.Crypto.AesBounds — the lengths in the buffer overloads of
`hj::aes`: the one reported, the one handed to the cipher library, and
the one divided by.

* `_unpadding_block` compares the count at the end of the data with the
  block size and not with the data, so that the length `decrypt` reports
  wraps when the library puts out less than the count
  (`decrypt_reports_iff`).
* The length of an update is cast to `int`. A length of 2^31 and more is
  refused when the cast is negative; otherwise a beginning of the buffer is
  handed over and the rest is dropped (`handsAll_iff`).
* `is_plain_valid` runs before `is_key_valid` and divides by the block size
  of a cipher that may not exist (`checksDefined_iff`).

Nothing here depends on what the cipher does: `Completes` says that the
calls of a session return 1, for any library.
-/
import HighJump.Crypto.AesTheorems

namespace HighJump.Crypto.Aes

open HighJump.Lib
open HighJump.Lib.Evp (Call Dir Algorithm Work Phase Serves)
open HighJump.Crypto.Des (toInt toInt_cases)

/-! ## Sessions in which every call returns 1 -/

section Sessions

variable {evp : Evp.Api Cipher}

/-- A session of a buffer overload in which every call returns 1. `buf` is
handed over with the cast of its length; `out1` and `out2` are what the
update and the final call put out. -/
def Completes (evp : Evp.Api Cipher) (d : Dir) (mod : Mode) (key : Bytes) (iv tag : Option Bytes)
    (buf out1 out2 : Bytes) : Prop :=
  ∃ ctx0 ctx1 ctx2 ctx3, openCtx evp d (d == .enc) mod key iv = some (.ok ctx0) ∧
    setTag evp ctx0 tag = .ret ctx1 ∧
    evp.updateN d ctx1 buf (toInt buf.length) = .ret (ctx2, out1) ∧
    evp.final d ctx2 = .ret (ctx3, out2) ∧
    (d = .enc → isAeadMode mod = true → ∃ t, evp.getTag ctx3 16 = .ret t)

theorem ne_of_code {c : ErrorCode} {dst : Bytes} {n : Nat} {fed : List Bytes} {r : Result}
    (hc : c ≠ .ok) (hok : r.code = .ok) : some (⟨c, dst, n, fed⟩ : Result) ≠ some r := by
  intro h
  rw [← Option.some.inj h] at hok
  exact hc hok

/-- A context that is not opened leaves an error. -/
theorem openCtx_error {d : Dir} {again : Bool} {mod : Mode} {key : Bytes} {iv : Option Bytes}
    {c : ErrorCode} (h : openCtx evp d again mod key iv = some (.error c)) : c ≠ .ok := by
  rintro rfl
  have hinit : (some (.error (initFailed d)) : Option (Except ErrorCode evp.Ctx))
      ≠ some (.error .ok) := by cases d <;> simp [initFailed]
  unfold openCtx at h
  cases hnew : evp.ctxNew with
  | none => simp [hnew] at h
  | some ctx =>
    cases hsel : selectCipher mod key.length with
    | none => exact hinit (by simpa [hnew, hsel] using h)
    | some cipher =>
      simp only [hnew, hsel] at h
      obtain ⟨ctx1, -, h⟩ := Call.exists_of_check h hinit
      obtain ⟨ctx2, -, h⟩ := Call.exists_of_check h (by simp)
      obtain ⟨ctx3, -, h⟩ := Call.exists_of_check h hinit
      cases h

/-- An update that returned was not given a negative length. -/
theorem mod_lt_of_updateN {d : Dir} {ctx : evp.Ctx} {buf : Bytes} {a : evp.Ctx × Bytes}
    (h : evp.updateN d ctx buf (toInt buf.length) = .ret a) : buf.length % 2 ^ 32 < 2 ^ 31 := by
  by_contra hge
  rw [updateN_negative d ctx (by omega)] at h
  cases h

variable {ctx : evp.Ctx} {dst : Bytes} {n : Nat} {mod : Mode} {pad : Padding} {b : Nat}
  {buf : Bytes} {tag : Option Bytes} {r : Result}

/-- **What an accepted decryption did**, from the open context on. -/
theorem decryptWith_ok (h : decryptWith evp ctx dst n mod pad b buf tag = some r)
    (hok : r.code = .ok) :
    ∃ ctx1 ctx2 ctx3 out1 out2, setTag evp ctx tag = .ret ctx1 ∧
      evp.updateN .dec ctx1 buf (toInt buf.length) = .ret (ctx2, out1) ∧
      evp.final .dec ctx2 = .ret (ctx3, out2) ∧ (out1 ++ out2).length ≤ dst.length ∧
      unpaddingBlock (out1 ++ out2 ++ dst.drop (out1 ++ out2).length) (out1 ++ out2).length mod pad
        b = some r.dstLen ∧ r.fed = [handed buf] := by
  unfold decryptWith at h
  obtain ⟨ctx1, hset, h⟩ := Call.exists_of_check h (ne_of_code (by decide) hok)
  obtain ⟨⟨ctx2, out1⟩, hup, h⟩ := Call.exists_of_check h (ne_of_code (by decide) hok)
  obtain ⟨dst1, hw1, h⟩ := Option.bind_eq_some_iff.mp h
  obtain ⟨⟨ctx3, out2⟩, hfin, h⟩ := Call.exists_of_check h (ne_of_code (by decide) hok)
  obtain ⟨dst2, hw2, h⟩ := Option.bind_eq_some_iff.mp h
  obtain ⟨len, hun, h⟩ := Option.bind_eq_some_iff.mp h
  obtain ⟨hle, rfl⟩ := writeN_writeN hw1 hw2
  rw [← Option.some.inj h, ← List.length_append] at *
  exact ⟨ctx1, ctx2, ctx3, out1, out2, hset, hup, hfin, hle, hun, rfl⟩

variable {key src : Bytes} {iv : Option Bytes} {out1 out2 : Bytes}

/-- A ciphertext that `decrypt` accepts: the arguments pass the checks and
the calls return 1. -/
structure Accepted (evp : Evp.Api Cipher) (mod : Mode) (key : Bytes) (pad : Padding)
    (iv : Option Bytes) (src out1 out2 : Bytes) : Prop where
  keyOk : isKeyValid mod (some key) = true
  ivOk : isIvValid mod iv = true
  whole : isRagged (getBlockSize evp mod key.length) pad src.length = some false
  session : Completes evp .dec mod key iv (splitTag mod src).2 (splitTag mod src).1 out1 out2

/-- An accepted ciphertext is decrypted, given room for what is put out. -/
theorem Accepted.decrypt_eq (h : Accepted evp mod key pad iv src out1 out2) (n : Nat)
    (hfit : (out1 ++ out2).length ≤ dst.length) :
    decrypt evp dst n src (some key) mod pad iv
      = (unpaddingBlock (out1 ++ out2 ++ dst.drop (out1 ++ out2).length) (out1 ++ out2).length mod
          pad (getBlockSize evp mod key.length)).map fun len =>
        ⟨.ok, out1 ++ out2 ++ dst.drop (out1 ++ out2).length, len, [handed (splitTag mod src).1]⟩ := by
  obtain ⟨ctx0, ctx1, ctx2, ctx3, hopen, hset, hup, hfin, -⟩ := h.session
  rw [List.length_append] at hfit
  have hw1 := writeN_zero (show out1.length ≤ dst.length by omega)
  have hw2 := writeN_append out1 out2 (dst.drop out1.length) (by rw [List.length_drop]; omega)
  rw [List.drop_drop, ← List.length_append] at hw2
  rw [decrypt_checks dst n src pad h.keyOk h.ivOk rfl h.whole, show false = (Dir.dec == .enc) from rfl,
    hopen, Option.bind_some]
  simp only [decryptWith, hset, hup, hfin, Call.check_ret, hw1, hw2, Option.bind_eq_bind,
    Option.bind_some, ← List.length_append, Option.map_eq_bind]
  rfl

/-- **What `decrypt` accepts**: nothing else ends in `ok`. -/
theorem decrypt_accepted (h : decrypt evp dst n src (some key) mod pad iv = some r)
    (hok : r.code = .ok) :
    ∃ out1 out2, Accepted evp mod key pad iv src out1 out2 ∧
      (out1 ++ out2).length ≤ dst.length ∧ r.fed = [handed (splitTag mod src).1] := by
  have hstop (c : ErrorCode) (hc : c ≠ .ok)
      (hr : decrypt evp dst n src (some key) mod pad iv = some ⟨c, dst, n, []⟩) : False :=
    ne_of_code hc hok (hr.symm.trans h)
  have hkey : isKeyValid mod (some key) = true := by
    by_contra hk
    exact hstop .keyInvalid (by decide) (by simp [decrypt, hk])
  have hiv : isIvValid mod iv = true := by
    by_contra hv
    exact hstop .ivInvalid (by decide) (by simp [decrypt, hkey, hv])
  have hwhole : isRagged (getBlockSize evp mod key.length) pad src.length = some false := by
    cases hr : isRagged (getBlockSize evp mod key.length) pad src.length with
    | none => simp [decrypt, hkey, hiv, hr] at h
    | some ragged =>
      cases ragged with
      | false => rfl
      | true => exact (hstop .paddingStyleInvalid (by decide) (by simp [decrypt, hkey, hiv, hr])).elim
  rw [decrypt_checks dst n src pad hkey hiv rfl hwhole] at h
  obtain ⟨opened, hopen, h⟩ := Option.bind_eq_some_iff.mp h
  cases opened with
  | error c => exact (ne_of_code (openCtx_error hopen) hok h).elim
  | ok ctx =>
    obtain ⟨ctx1, ctx2, ctx3, out1, out2, hset, hup, hfin, hle, -, hfed⟩ := decryptWith_ok h hok
    exact ⟨out1, out2, ⟨hkey, hiv, hwhole, ctx, ctx1, ctx2, ctx3, hopen, hset, hup, hfin,
      fun hd => by cases hd⟩, hle, hfed⟩

/-- Where the cast is not negative it keeps the residue of the length. -/
theorem length_handed (h : buf.length % 2 ^ 32 < 2 ^ 31) :
    (handed buf).length = buf.length % 2 ^ 32 := by
  have hle := Nat.mod_le buf.length (2 ^ 32)
  rw [handed, List.length_take]
  rcases toInt_cases buf.length with ⟨-, heq⟩ | ⟨hge, -⟩ <;> omega

/-- A session that keeps the contract completes in the modes without
authentication, on whole blocks. -/
theorem completes_plain {alg : Cipher → Algorithm} {At : evp.Ctx → Phase Cipher → Prop}
    (hS : Serves alg evp Cipher.Covered At) (hA : IsAes alg) (d : Dir) (hm : mod.Plain)
    (hkey : isKeyValid mod (some key) = true) (hiv : isIvValid mod iv = true)
    (hmod : buf.length % 2 ^ 32 < 2 ^ 31)
    (hdvd : (alg ⟨mod, key.length⟩).blockSize ∣ (handed buf).length) :
    Completes evp d mod key iv none buf
      ((alg ⟨mod, key.length⟩).apply d key (iv.getD []) (handed buf)) [] := by
  have haead := hm.aead
  obtain ⟨ctx0, hopen, hat⟩ := openCtx_plain hS hA d (d == .enc) hm hkey hiv
  have hw := session_opened hA d (.inl hm) key iv (iv.getD []).length
  have hlt : (handed buf).length < 2 ^ 31 := by rw [length_handed hmod]; exact hmod
  -- a variable, so that no step looks into the cast
  obtain ⟨xs, hxs⟩ : ∃ xs, handed buf = xs := ⟨_, rfl⟩
  rw [hxs] at hlt hdvd ⊢
  obtain ⟨ctx2, out1, hup, hat2, ho⟩ := hS.update ctx0 _ xs hat (hw.direct [] none) hlt
  obtain ⟨ctx3, hfin, -⟩ := hS.final_ok ctx2 _ hat2 (hw.direct _ none)
    ⟨by simpa [hw.fed, hw.cipher] using hdvd, fun _ ha => by rw [hw.aead, haead] at ha; cases ha⟩
  have hout : out1 = (alg ⟨mod, key.length⟩).apply d key (iv.getD []) xs := by
    have hnil := (hS.lawful ⟨mod, key.length⟩).apply_nil d key (iv.getD [])
    simp only [Work.out, session, Work.start, List.nil_append, List.take_length, hnil] at ho
    exact ho.symm
  rw [← hout]
  refine ⟨ctx0, ctx0, ctx2, ctx3, hopen, rfl, ?_, hfin, fun _ ha => ?_⟩
  · rw [updateN_handed d ctx0 hmod, hxs]
    exact hup
  · rw [haead] at ha
    cases ha

end Sessions

/-! ## The length reported -/

/-- The data end in a count that the block size allows and that is more
than there is data, and `_unpadding_block` looks at it. -/
def CountExceeds (b : Nat) (mod : Mode) (pad : Padding) (data : Bytes) : Prop :=
  isAeadMode mod = false ∧ 1 < b ∧ Exceeds b pad data

/-- **The length after unpadding**: at most that of the data, or one that
wrapped. -/
theorem unpaddingBlock_cases (b : Nat) (mod : Mode) (pad : Padding) {data : Bytes} (spare : Bytes)
    (hlen : data.length < 2 ^ 64) :
    ∃ len, unpaddingBlock (data ++ spare) data.length mod pad b = some len ∧
      (¬ CountExceeds b mod pad data ∧ len ≤ data.length ∨
        CountExceeds b mod pad data ∧ data.length < len ∧ maxSize < len) := by
  by_cases hlooks : isAeadMode mod = false ∧ 1 < b
  · obtain ⟨haead, hb⟩ := hlooks
    by_cases hex : Exceeds b pad data
    · obtain ⟨len, hun, hbig⟩ := unpaddingBlock_exceeds spare hlen haead hb hex
      have hshort : data.length < 256 := by
        obtain ⟨-, d, -, hlt, -⟩ := hex
        exact Nat.lt_trans hlt d.toNat_lt
      have hmax : maxSize < 2 ^ 63 := by decide
      exact ⟨len, hun, .inr ⟨⟨haead, hb, hex⟩, by omega, by omega⟩⟩
    · obtain ⟨len, hun, hle⟩ := unpaddingBlock_le spare hlen haead hb pad hex
      exact ⟨len, hun, .inl ⟨fun h => hex h.2.2, hle⟩⟩
  · refine ⟨data.length, ?_, .inl ⟨fun h => hlooks ⟨h.1, h.2.1⟩, Nat.le_refl _⟩⟩
    have hskip : ¬ (!isAeadMode mod && pad != .noPadding && decide (b > 1)) = true := by
      intro h
      simp only [Bool.and_eq_true, Bool.not_eq_true', decide_eq_true_eq] at h
      exact hlooks ⟨h.1.1, h.2⟩
    unfold unpaddingBlock
    rw [if_neg hskip]

theorem length_resize {s t : Bytes} {n : Nat} (h : resize s n = some t) : t.length = n := by
  unfold resize at h
  split at h
  · rw [← Option.some.inj h, List.length_append, List.length_take, List.length_replicate]
    omega
  · cases h

section Reported

variable {evp : Evp.Api Cipher} {mod : Mode} {key src : Bytes} {pad : Padding} {iv : Option Bytes}
  {out1 out2 : Bytes}

/-- **Unpadding never lengthens** what the library put out unless its count
exceeds it: then the length reported by the buffer overload has wrapped,
and the string overload asks for a string of that length. -/
theorem decrypt_reports_iff (h : Accepted evp mod key pad iv src out1 out2) :
    (∀ dst n, (out1 ++ out2).length ≤ dst.length → dst.length < 2 ^ 64 →
      ((∃ r, decrypt evp dst n src (some key) mod pad iv = some r ∧ r.code = .ok ∧
          r.dstLen ≤ (out1 ++ out2).length) ↔
        ¬ CountExceeds (getBlockSize evp mod key.length) mod pad (out1 ++ out2))) ∧
    (∀ dst v, iv = ivPtr mod v → (out1 ++ out2).length ≤ src.length → src.length ≤ maxSize →
      ((∃ s, decryptString evp dst src key mod pad v = some (.ok, s) ∧
          s.length ≤ (out1 ++ out2).length) ↔
        ¬ CountExceeds (getBlockSize evp mod key.length) mod pad (out1 ++ out2))) := by
  constructor
  · intro dst n hfit hdst
    obtain ⟨len, hun, hcases⟩ := unpaddingBlock_cases (getBlockSize evp mod key.length) mod pad
      (dst.drop (out1 ++ out2).length) (show (out1 ++ out2).length < 2 ^ 64 by omega)
    rw [h.decrypt_eq n hfit, hun, Option.map_some]
    rcases hcases with ⟨hno, hle⟩ | ⟨hex, hlt, -⟩
    · exact iff_of_true ⟨_, rfl, rfl, hle⟩ hno
    · refine iff_of_false ?_ fun hno => hno hex
      rintro ⟨r, hr, -, hle⟩
      rw [← Option.some.inj hr] at hle
      exact Nat.not_le.mpr hlt hle
  · rintro dst v rfl hfit hmax
    obtain ⟨dst', hdst⟩ : ∃ dst', resize dst (decryptLenReserve src.length) = some dst' :=
      ⟨_, if_pos hmax⟩
    have hlen : dst'.length = src.length := length_resize hdst
    have hsize : maxSize < 2 ^ 64 := by decide
    obtain ⟨len, hun, hcases⟩ := unpaddingBlock_cases (getBlockSize evp mod key.length) mod pad
      (dst'.drop (out1 ++ out2).length) (show (out1 ++ out2).length < 2 ^ 64 by omega)
    have hrun := h.decrypt_eq dst'.length (hlen.symm ▸ hfit)
    rw [hun, Option.map_some] at hrun
    have hstring : decryptString evp dst src key mod pad v
        = (resize (out1 ++ out2 ++ dst'.drop (out1 ++ out2).length) len).map (.ok, ·) := by
      simp only [decryptString, hdst, hrun, Option.bind_eq_bind, Option.bind_some,
        Option.map_eq_bind]
      rfl
    rw [hstring]
    rcases hcases with ⟨hno, hle⟩ | ⟨hex, -, hbig⟩
    · obtain ⟨s, hs⟩ : ∃ s, resize (out1 ++ out2 ++ dst'.drop (out1 ++ out2).length) len = some s :=
        ⟨_, if_pos (by omega)⟩
      exact iff_of_true ⟨s, by rw [hs, Option.map_some], by rw [length_resize hs]; exact hle⟩ hno
    · refine iff_of_false ?_ fun hno => hno hex
      rintro ⟨s, hs, -⟩
      rw [resize, if_neg (Nat.not_le.mpr hbig)] at hs
      cases hs

end Reported

/-- Counter mode under `sampleKey` from a zero iv turns d6 into 10, which
PKCS#7 takes for a whole block of padding. -/
theorem accepted_one : Accepted sampleEvp .ctr sampleKey .pkcs7 (some (List.replicate 16 0)) [0xd6]
    [0x10] [] :=
  ⟨by decide, by decide, by decide,
    completes_plain sampleEvp_serves sampleAlg_isAes .dec (by decide) (by decide) (by decide)
      (by decide) (Nat.one_dvd _)⟩

theorem decrypt_reports_iff_one :
    (∃ r, decrypt sampleEvp [0] 1 [0xd6] (some sampleKey) .ctr .pkcs7 (some (List.replicate 16 0))
        = some r ∧ r.code = .ok ∧ r.dstLen ≤ ([0x10] ++ [] : Bytes).length) ↔
      ¬ CountExceeds (getBlockSize sampleEvp .ctr sampleKey.length) .ctr .pkcs7 ([0x10] ++ []) :=
  (decrypt_reports_iff accepted_one).1 [0] 1 (by decide) (by decide)

/-- One byte is put out and 2^64 - 15 are reported; the string overload
does not return. -/
theorem decrypt_reports_wrapped :
    (decrypt sampleEvp [0] 1 [0xd6] (some sampleKey) .ctr .pkcs7 (some (List.replicate 16 0))).map
        (fun r => (r.code, r.dst, r.dstLen)) = some (.ok, [0x10], 2 ^ 64 - 15) ∧
      decryptString sampleEvp [] [0xd6] sampleKey .ctr .pkcs7 (List.replicate 16 0) = none := by
  decide

/-! ## The length handed over -/

/-- `pad_val` for `n` bytes and blocks of `b`. -/
def padVal (b n : Nat) : UInt8 :=
  if UInt8.ofNat (b - n % b) = 0 then UInt8.ofNat b else UInt8.ofNat (b - n % b)

/-- `padded_len`. -/
def paddedLen (b : Nat) (pad : Padding) (n : Nat) : Nat :=
  if pad ≠ .noPadding ∧ b > 1 then n + (padVal b n).toNat else n

/-- `cipher_len`. -/
def cipherLen (mod : Mode) (n : Nat) : Nat := if isAeadMode mod && decide (n > 16) then n - 16 else n

/-- **The padded source** has the padded length. -/
theorem exists_paddingBlock (evp : Evp.Api Cipher) (rnd : Nat → UInt8) (mod : Mode) (keyLen : Nat)
    (pad : Padding) (src : Bytes) :
    ∃ padded, paddingBlock evp rnd mod keyLen pad src = some padded ∧
      padded.length = paddedLen (getBlockSize evp mod keyLen) pad src.length := by
  unfold paddingBlock paddedLen
  by_cases hpads : pad ≠ .noPadding ∧ getBlockSize evp mod keyLen > 1
  · have hne : getBlockSize evp mod keyLen ≠ 0 := by omega
    simp only [if_pos hpads, modulus, if_neg hne, Option.bind_eq_bind, Option.bind_some]
    cases pad with
    | noPadding => exact absurd rfl hpads.1
    | pkcs5 | pkcs7 | zero | iso10126 | ansix923 | isoIec7816_4 =>
      exact ⟨_, rfl, by simp [padVal]⟩
  · rw [if_neg hpads, if_neg hpads]
    exact ⟨src, rfl, rfl⟩

theorem length_splitTag (mod : Mode) (src : Bytes) :
    (splitTag mod src).1.length = cipherLen mod src.length := by
  unfold splitTag cipherLen
  split
  · rw [List.length_take]
    omega
  · rfl

/-- A length that the cast to `int` does not silently change: it is one, or
its cast is negative. -/
def CastKeeps (n : Nat) : Prop := n < 2 ^ 31 ∨ 2 ^ 31 ≤ n % 2 ^ 32

section Handed

variable {evp : Evp.Api Cipher} {ctx : evp.Ctx} {dst : Bytes} {n : Nat} {mod : Mode}
  {pad : Padding} {key src buf : Bytes} {iv : Option Bytes} {r : Result} {rnd : Nat → UInt8}

/-- What is handed over is all there is exactly when the length fits. -/
theorem length_handed_eq_iff (h : buf.length % 2 ^ 32 < 2 ^ 31) :
    (handed buf).length = buf.length ↔ CastKeeps buf.length := by
  rw [length_handed h, CastKeeps]
  omega

theorem encryptWith_ok (h : encryptWith evp ctx dst n mod buf = some r) (hok : r.code = .ok) :
    buf.length % 2 ^ 32 < 2 ^ 31 ∧ r.fed = [handed buf] := by
  unfold encryptWith at h
  obtain ⟨⟨ctx1, out1⟩, hup, h⟩ := Call.exists_of_check h (ne_of_code (by decide) hok)
  obtain ⟨dst1, -, h⟩ := Option.bind_eq_some_iff.mp h
  obtain ⟨⟨ctx2, out2⟩, -, h⟩ := Call.exists_of_check h (ne_of_code (by decide) hok)
  obtain ⟨dst2, -, h⟩ := Option.bind_eq_some_iff.mp h
  refine ⟨mod_lt_of_updateN hup, ?_⟩
  split at h
  · obtain ⟨tag, -, h⟩ := Call.exists_of_check h (ne_of_code (by decide) hok)
    obtain ⟨dst3, -, h⟩ := Option.bind_eq_some_iff.mp h
    rw [← Option.some.inj h]
  · rw [← Option.some.inj h]

/-- **What an accepted encryption did**: what went in is a beginning of the
padded source, and its length was not negative. -/
theorem encrypt_ok (h : encrypt evp rnd dst n src (some key) mod pad iv = some r)
    (hok : r.code = .ok) :
    ∃ padded, paddingBlock evp rnd mod key.length pad src = some padded ∧
      padded.length ≤ maxSize ∧ padded.length % 2 ^ 32 < 2 ^ 31 ∧ r.fed = [handed padded] := by
  have hstop (c : ErrorCode) (hc : c ≠ .ok)
      (hr : encrypt evp rnd dst n src (some key) mod pad iv = some ⟨c, dst, n, []⟩) : False :=
    ne_of_code hc hok (hr.symm.trans h)
  have hplain : isPlainValid evp mod key.length pad src.length = some true := by
    cases hp : isPlainValid evp mod key.length pad src.length with
    | none => simp [encrypt, hp] at h
    | some plainOk =>
      cases plainOk with
      | true => rfl
      | false => exact (hstop .plainInvalid (by decide) (by simp [encrypt, hp])).elim
  have hkey : isKeyValid mod (some key) = true := by
    by_contra hk
    exact hstop .keyInvalid (by decide) (by simp [encrypt, hplain, hk])
  have hiv : isIvValid mod iv = true := by
    by_contra hv
    exact hstop .ivInvalid (by decide) (by simp [encrypt, hplain, hkey, hv])
  obtain ⟨padded, hpad, -⟩ := exists_paddingBlock evp rnd mod key.length pad src
  have hmax : padded.length ≤ maxSize := by
    by_contra hbig
    simp [encrypt, hplain, hkey, hiv, hpad, Nat.not_le.mp hbig] at h
  rw [encrypt_checks rnd dst n hplain hkey hiv hpad hmax] at h
  obtain ⟨opened, hopen, h⟩ := Option.bind_eq_some_iff.mp h
  cases opened with
  | error c => exact (ne_of_code (openCtx_error hopen) hok h).elim
  | ok ctx =>
    obtain ⟨hlt, hfed⟩ := encryptWith_ok h hok
    exact ⟨padded, hpad, hmax, hlt, hfed⟩

/-- A session that completes is an encryption, given room. -/
theorem encryptWith_completes {ctx2 ctx3 : evp.Ctx} {out1 out2 : Bytes}
    (hup : evp.updateN .enc ctx buf (toInt buf.length) = .ret (ctx2, out1))
    (hfin : evp.final .enc ctx2 = .ret (ctx3, out2))
    (htag : isAeadMode mod = true → ∃ t, evp.getTag ctx3 16 = .ret t) :
    ∃ dst r, encryptWith evp ctx dst 0 mod buf = some r ∧ r.code = .ok := by
  obtain ⟨room, hroom⟩ : ∃ room, isAeadMode mod = true → ∃ t, evp.getTag ctx3 16 = .ret t ∧
      t.length ≤ room := by
    by_cases ha : isAeadMode mod = true
    · obtain ⟨t, ht⟩ := htag ha
      exact ⟨t.length, fun _ => ⟨t, ht, Nat.le_refl _⟩⟩
    · exact ⟨0, fun h => absurd h ha⟩
  obtain ⟨rest, hrest⟩ : ∃ rest : Bytes, rest.length = room := ⟨List.replicate room 0, by simp⟩
  have hw1 : writeN (out1 ++ (out2 ++ rest)) 0 out1 = some (out1 ++ (out2 ++ rest)) := by
    rw [writeN_zero (by simp), List.drop_left]
  have hw2 : writeN (out1 ++ (out2 ++ rest)) out1.length out2 = some (out1 ++ out2 ++ rest) := by
    rw [writeN_append out1 out2 (out2 ++ rest) (by simp), List.drop_left]
  refine ⟨out1 ++ (out2 ++ rest), ?_⟩
  simp only [encryptWith, hup, hfin, Call.check_ret, hw1, hw2, Option.bind_eq_bind,
    Option.bind_some]
  cases ha : isAeadMode mod with
  | false => exact ⟨_, rfl, rfl⟩
  | true =>
    obtain ⟨t, ht, hle⟩ := hroom ha
    have hw3 := writeN_append (out1 ++ out2) t rest (by omega)
    rw [List.length_append] at hw3
    simp only [if_true, ht, Call.check_ret, hw3, Option.bind_some]
    exact ⟨_, rfl, rfl⟩

/-- Whenever `encrypt` returns `ok`, the update got all of the padded
source. -/
def EncryptHandsAll (evp : Evp.Api Cipher) (rnd : Nat → UInt8) (src key : Bytes) (mod : Mode)
    (pad : Padding) (iv : Option Bytes) : Prop :=
  ∀ dst n r, encrypt evp rnd dst n src (some key) mod pad iv = some r → r.code = .ok →
    r.fed.map List.length = [paddedLen (getBlockSize evp mod key.length) pad src.length]

/-- Whenever `decrypt` returns `ok`, the update got all of the
ciphertext. -/
def DecryptHandsAll (evp : Evp.Api Cipher) (src key : Bytes) (mod : Mode) (pad : Padding)
    (iv : Option Bytes) : Prop :=
  ∀ dst n r, decrypt evp dst n src (some key) mod pad iv = some r → r.code = .ok →
    r.fed.map List.length = [cipherLen mod src.length]

section Iff

variable (hkey : isKeyValid mod (some key) = true) (hiv : isIvValid mod iv = true)
  (hwhole : isRagged (getBlockSize evp mod key.length) pad src.length = some false)

include hkey hiv hwhole

theorem encryptHandsAll_iff (haccepts : ∀ padded,
      paddingBlock evp rnd mod key.length pad src = some padded →
      padded.length % 2 ^ 32 < 2 ^ 31 →
      ∃ out1 out2, Completes evp .enc mod key iv none padded out1 out2) :
    EncryptHandsAll evp rnd src key mod pad iv ↔
      CastKeeps (paddedLen (getBlockSize evp mod key.length) pad src.length) ∨
        maxSize < paddedLen (getBlockSize evp mod key.length) pad src.length := by
  obtain ⟨padded, hpad, hlen⟩ := exists_paddingBlock evp rnd mod key.length pad src
  rw [EncryptHandsAll, ← hlen]
  constructor
  · intro hall
    by_contra hno
    obtain ⟨hcast, hmax⟩ := not_or.mp hno
    have hlt : padded.length % 2 ^ 32 < 2 ^ 31 := by
      by_contra hge
      exact hcast (.inr (by omega))
    obtain ⟨out1, out2, ctx0, ctx1, ctx2, ctx3, hopen, hset, hup, hfin, htag⟩ :=
      haccepts padded hpad hlt
    cases hset
    obtain ⟨dst, r, hrun, hok⟩ := encryptWith_completes hup hfin (htag rfl)
    have henc := encrypt_checks rnd dst 0 (isPlainValid_iff.mpr hwhole) hkey hiv hpad
      (Nat.not_lt.mp hmax)
    rw [show true = (Dir.enc == .enc) from rfl, hopen, Option.bind_some] at henc
    have hfed := hall dst 0 r (henc.trans hrun) hok
    rw [(encryptWith_ok hrun hok).2, List.map_singleton, List.singleton_inj] at hfed
    exact hcast ((length_handed_eq_iff hlt).mp hfed)
  · intro hcond dst n r hrun hok
    obtain ⟨padded', hpad', hmax, hlt, hfed⟩ := encrypt_ok hrun hok
    obtain rfl : padded = padded' := Option.some.inj (hpad.symm.trans hpad')
    rw [hfed, List.map_singleton, List.singleton_inj, length_handed_eq_iff hlt]
    exact hcond.resolve_right (Nat.not_lt.mpr hmax)

theorem decryptHandsAll_iff (haccepts : cipherLen mod src.length % 2 ^ 32 < 2 ^ 31 →
      ∃ out1 out2, Completes evp .dec mod key iv (splitTag mod src).2 (splitTag mod src).1 out1 out2 ∧
        (out1 ++ out2).length < 2 ^ 64) :
    DecryptHandsAll evp src key mod pad iv ↔ CastKeeps (cipherLen mod src.length) := by
  have hlen := length_splitTag mod src
  rw [DecryptHandsAll, ← hlen]
  rw [← hlen] at haccepts
  constructor
  · intro hall
    by_contra hcast
    have hlt : (splitTag mod src).1.length % 2 ^ 32 < 2 ^ 31 := by
      by_contra hge
      exact hcast (.inr (by omega))
    obtain ⟨out1, out2, hsession, hsize⟩ := haccepts hlt
    have hacc : Accepted evp mod key pad iv src out1 out2 := ⟨hkey, hiv, hwhole, hsession⟩
    obtain ⟨dst, hfit⟩ : ∃ dst : Bytes, (out1 ++ out2).length ≤ dst.length :=
      ⟨out1 ++ out2, Nat.le_refl _⟩
    have hrun := hacc.decrypt_eq 0 hfit
    obtain ⟨len, hun, -⟩ := unpaddingBlock_cases (getBlockSize evp mod key.length) mod pad
      (dst.drop (out1 ++ out2).length) hsize
    rw [hun, Option.map_some] at hrun
    have hfed := hall dst 0 _ hrun rfl
    rw [List.map_singleton, List.singleton_inj] at hfed
    exact hcast ((length_handed_eq_iff hlt).mp hfed)
  · intro hcast dst n r hrun hok
    obtain ⟨out1, out2, hacc, -, hfed⟩ := decrypt_accepted hrun hok
    obtain ⟨ctx0, ctx1, ctx2, ctx3, -, -, hup, -⟩ := hacc.session
    rw [hfed, List.map_singleton, List.singleton_inj,
      length_handed_eq_iff (mod_lt_of_updateN hup)]
    exact hcast

/-- **Lengths are not truncated** exactly when they are `int`s or their
cast is refused; a source that the vector cannot hold is not encrypted
either. -/
theorem handsAll_iff
    (henc : ∀ padded, paddingBlock evp rnd mod key.length pad src = some padded →
      padded.length % 2 ^ 32 < 2 ^ 31 →
      ∃ out1 out2, Completes evp .enc mod key iv none padded out1 out2)
    (hdec : cipherLen mod src.length % 2 ^ 32 < 2 ^ 31 →
      ∃ out1 out2, Completes evp .dec mod key iv (splitTag mod src).2 (splitTag mod src).1 out1 out2 ∧
        (out1 ++ out2).length < 2 ^ 64) :
    (EncryptHandsAll evp rnd src key mod pad iv ↔
      CastKeeps (paddedLen (getBlockSize evp mod key.length) pad src.length) ∨
        maxSize < paddedLen (getBlockSize evp mod key.length) pad src.length) ∧
    (DecryptHandsAll evp src key mod pad iv ↔ CastKeeps (cipherLen mod src.length)) :=
  ⟨encryptHandsAll_iff hkey hiv hwhole henc, decryptHandsAll_iff hkey hiv hwhole hdec⟩

end Iff

end Handed

/-! Counter mode under `sampleKey` takes any number of bytes. -/

theorem sample_completes (d : Dir) {buf : Bytes} (h : buf.length % 2 ^ 32 < 2 ^ 31) :
    ∃ out1 out2, Completes sampleEvp d .ctr sampleKey (some (List.replicate 16 0)) none buf out1 out2 ∧
      (out1 ++ out2).length < 2 ^ 64 := by
  refine ⟨_, [], completes_plain sampleEvp_serves sampleAlg_isAes d (by decide) (by decide)
    (by decide) h (Nat.one_dvd _), ?_⟩
  have hle := (sampleAlg_lawful ⟨.ctr, sampleKey.length⟩).length_le d sampleKey
    ((some (List.replicate 16 0)).getD []) (handed buf)
  rw [length_handed h] at hle
  rw [List.append_nil]
  omega

theorem handsAll_iff_samplePlain :
    (EncryptHandsAll sampleEvp (fun _ => 0) samplePlain sampleKey .ctr .noPadding
        (some (List.replicate 16 0)) ↔ CastKeeps 16 ∨ maxSize < 16) ∧
      (DecryptHandsAll sampleEvp samplePlain sampleKey .ctr .noPadding
        (some (List.replicate 16 0)) ↔ CastKeeps 16) :=
  handsAll_iff (by decide) (by decide) (by decide)
    (fun padded _ h => by
      obtain ⟨out1, out2, hsession, -⟩ := sample_completes .enc h
      exact ⟨out1, out2, hsession⟩)
    fun _ => sample_completes .dec (by decide)

/-- Of 2^32 + 16 bytes 16 are encrypted or decrypted, and the call returns
`ok`. -/
theorem not_handsAll_long :
    ¬ EncryptHandsAll sampleEvp (fun _ => 0) (List.replicate (2 ^ 32 + 16) 0) sampleKey .ctr .noPadding
        (some (List.replicate 16 0)) ∧
      ¬ DecryptHandsAll sampleEvp (List.replicate (2 ^ 32 + 16) 0) sampleKey .ctr .noPadding
        (some (List.replicate 16 0)) := by
  obtain ⟨src, hsrc⟩ : ∃ src : Bytes, src = List.replicate (2 ^ 32 + 16) 0 := ⟨_, rfl⟩
  have hlen : src.length = 2 ^ 32 + 16 := by rw [hsrc, List.length_replicate]
  have hsize : getBlockSize sampleEvp .ctr sampleKey.length = 16 := rfl
  have hwhole : isRagged (getBlockSize sampleEvp .ctr sampleKey.length) .noPadding src.length
      = some false := by rw [hsize, hlen]; decide
  have hno : ¬ CastKeeps src.length := by
    rw [hlen]
    unfold CastKeeps
    omega
  rw [← hsrc]
  constructor
  · rw [encryptHandsAll_iff (by decide) (by decide) hwhole fun padded _ h => by
      obtain ⟨out1, out2, hsession, -⟩ := sample_completes .enc h
      exact ⟨out1, out2, hsession⟩]
    rw [paddedLen, if_neg fun h => h.1 rfl]
    rintro (h | h)
    · exact hno h
    · rw [hlen] at h
      exact absurd h (by decide)
  · have hct : splitTag .ctr src = (src, none) := rfl
    have hcl : cipherLen .ctr src.length = src.length := rfl
    rw [decryptHandsAll_iff (by decide) (by decide) hwhole fun h => by
      rw [hct]
      exact sample_completes .dec (hcl ▸ h)]
    exact hno

/-! ## The length divided by -/

/-- The modes whose block size does not depend on the cipher. -/
def Mode.fixedSize : Mode → Bool
  | .ecb | .cbc | .cfb128 | .ofb | .ctr | .cfb8 | .cfb1 => true
  | _ => false

/-- Every modulus by the block size is defined: in the two checks that
`encrypt` begins with, in `_padding_block`, and in the check of `decrypt`,
which comes after that of the key. -/
structure ChecksDefined (evp : Evp.Api Cipher) (mod : Mode) (keyLen : Nat) (pad : Padding) :
    Prop where
  plain : ∀ n, isPlainValid evp mod keyLen pad n ≠ none
  stream : ∀ inp, isPlainValidStream evp mod keyLen pad inp ≠ none
  padding : ∀ rnd src, paddingBlock evp rnd mod keyLen pad src ≠ none
  decrypt : ∀ key : Bytes, key.length = keyLen → isKeyValid mod (some key) = true →
    ∀ n, isRagged (getBlockSize evp mod keyLen) pad n ≠ none

section Divisor

variable {evp : Evp.Api Cipher} {mod : Mode} {keyLen : Nat} {pad : Padding}

theorem getBlockSize_eq_zero_iff (hsize : ∀ c, 1 ≤ evp.blockSize c) (mod : Mode) (keyLen : Nat) :
    getBlockSize evp mod keyLen = 0 ↔ mod.fixedSize = false ∧ selectCipher mod keyLen = none := by
  have hcipher : (selectCipher mod keyLen).elim 0 evp.blockSize = 0 ↔
      selectCipher mod keyLen = none := by
    cases selectCipher mod keyLen with
    | none => exact iff_of_true rfl rfl
    | some c => exact iff_of_false (Nat.pos_iff_ne_zero.mp (hsize c)) (by simp)
  cases mod with
  | ecb | cbc | cfb128 | ofb | ctr | cfb8 | cfb1 => simp [getBlockSize, Mode.fixedSize]
  | gcm | ccm | xts | wrap | wrapPad | cbcHmacSha1 | cbcHmacSha256 | ocb =>
    exact hcipher.trans ⟨fun h => ⟨rfl, h⟩, And.right⟩

theorem isRagged_ne_none (h : pad = .noPadding → getBlockSize evp mod keyLen ≠ 0) (n : Nat) :
    isRagged (getBlockSize evp mod keyLen) pad n ≠ none := by
  by_cases hp : pad = .noPadding
  · simp [isRagged, modulus, hp, h hp]
  · simp [isRagged, hp]

theorem isPlainValidStream_ne_none (h : pad = .noPadding → getBlockSize evp mod keyLen ≠ 0)
    (inp : IStream) : isPlainValidStream evp mod keyLen pad inp ≠ none := by
  unfold isPlainValidStream
  split
  · simp
  · split
    · rename_i hp
      simp [modulus, h hp]
    · simp

/-- **The checks never divide by zero** exactly when a cipher is selected
wherever its block size is asked for. -/
theorem checksDefined_iff (hsize : ∀ c, 1 ≤ evp.blockSize c) :
    ChecksDefined evp mod keyLen pad ↔
      (pad = .noPadding → mod.fixedSize = true ∨ (selectCipher mod keyLen).isSome = true) := by
  have hzero := getBlockSize_eq_zero_iff hsize mod keyLen
  constructor
  · rintro hdef rfl
    by_contra hno
    obtain ⟨hfixed, hsome⟩ := not_or.mp hno
    have hb : getBlockSize evp mod keyLen = 0 :=
      hzero.mpr ⟨Bool.eq_false_iff.mpr hfixed, by simpa using hsome⟩
    exact hdef.plain 0 (by simp [isPlainValid, isRagged, modulus, hb])
  · intro hcond
    have hb (hp : pad = .noPadding) : getBlockSize evp mod keyLen ≠ 0 := by
      intro h0
      obtain ⟨hfixed, hnone⟩ := hzero.mp h0
      rcases hcond hp with h | h
      · rw [hfixed] at h
        cases h
      · rw [hnone] at h
        cases h
    refine ⟨fun n => ?_, isPlainValidStream_ne_none hb, fun rnd src => ?_,
      fun _ _ _ => isRagged_ne_none hb⟩
    · rw [isPlainValid, ne_eq, Option.map_eq_none_iff]
      exact isRagged_ne_none hb n
    · obtain ⟨padded, hpad, -⟩ := exists_paddingBlock evp rnd mod keyLen pad src
      rw [hpad]
      simp

end Divisor

theorem checksDefined_iff_gcm :
    ChecksDefined sampleEvp .gcm 16 .noPadding ↔
      (Padding.noPadding = .noPadding →
        Mode.fixedSize .gcm = true ∨ (selectCipher .gcm 16).isSome = true) :=
  checksDefined_iff fun c => (sampleAlg_lawful c).pos

/-- A key of five bytes in GCM mode without padding: both overloads of
`encrypt` divide by zero, `decrypt` refuses the key. -/
theorem encrypt_divides_by_zero :
    ¬ ChecksDefined sampleEvp .gcm 5 .noPadding ∧
      encrypt sampleEvp (fun _ => 0) [] 0 [] (some [1, 2, 3, 4, 5]) .gcm .noPadding
        (some (List.replicate 12 0)) = none ∧
      encryptStream sampleEvp (fun _ => 0) OStream.empty (IStream.ofBytes [])
        (some [1, 2, 3, 4, 5]) .gcm .noPadding (some (List.replicate 12 0)) = none ∧
      (decrypt sampleEvp [] 0 [] (some [1, 2, 3, 4, 5]) .gcm .noPadding
        (some (List.replicate 12 0))).map Result.code = some .keyInvalid :=
  ⟨fun h => h.plain 0 (by decide), by decide, by decide, by decide⟩

end HighJump.Crypto.Aes
