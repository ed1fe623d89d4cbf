/-
HighJump.Crypto.AesSession — the overloads of `hj::aes` as sessions with
the cipher library.

`IsAes` is what the manual says of the six ciphers the theorems are about
(block size, key and iv length, authentication). From it and the contract
of `Lib/Evp`: what `openCtx` leaves behind (`openCtx_plain`,
`openCtx_gcm`, `openCtx_gcm_null`), what one `feed` does (`feed_spec`),
and what the two chunk loops do, by induction on the fuel with the data
still in the stream as the quantity that moves (`encryptLoop_spec`,
`decryptLoop_spec`). The theorems about the overloads never look inside a
call again.
-/
import HighJump.Crypto.Aes
import HighJump.Crypto.DesPadding

namespace HighJump.Crypto.Aes

open HighJump.Lib
open HighJump.Lib.Evp (Call Dir Algorithm Work Phase Serves)
open HighJump.Crypto.Des (subSz toInt toInt_eq toInt_cases toNat_toInt_le)

/-! ## The six ciphers -/

/-- Block size, iv length and authentication of the modes the theorems
are about. -/
def Mode.spec : Mode → Option (Nat × Nat × Bool)
  | .ecb => some (16, 0, false)
  | .cbc => some (16, 16, false)
  | .cfb128 | .ofb | .ctr => some (1, 16, false)
  | .gcm => some (1, 12, true)
  | _ => none

/-- The ciphers of these modes. -/
def Cipher.Covered (c : Cipher) : Prop := c.mode.spec.isSome = true

/-- The ciphers are the ones their names say. -/
def IsAes (alg : Cipher → Algorithm) : Prop :=
  ∀ c b v a, c.mode.spec = some (b, v, a) →
    (alg c).blockSize = b ∧ (alg c).ivLen = v ∧ (alg c).aead = a ∧ (alg c).keyLen = c.keyLen

/-- The modes without authentication among them. -/
def Mode.Plain (mod : Mode) : Prop :=
  mod = .ecb ∨ mod = .cbc ∨ mod = .cfb128 ∨ mod = .ofb ∨ mod = .ctr

instance (mod : Mode) : Decidable mod.Plain :=
  inferInstanceAs (Decidable (_ ∨ _ ∨ _ ∨ _ ∨ _))

theorem Mode.Plain.aead {mod : Mode} (h : mod.Plain) : isAeadMode mod = false := by
  rcases h with rfl | rfl | rfl | rfl | rfl <;> rfl

theorem Mode.Plain.ne_gcm {mod : Mode} (h : mod.Plain) : mod ≠ .gcm := by
  rintro rfl
  revert h
  decide

theorem Mode.Plain.blockSize {mod : Mode} (h : mod.Plain) (evp : Evp.Api Cipher) (n : Nat) :
    getBlockSize evp mod n = 16 := by
  rcases h with rfl | rfl | rfl | rfl | rfl <;> rfl

/-- The block size of a mode without authentication divides 16, and its
iv length is that of a valid iv. -/
theorem Mode.Plain.spec {mod : Mode} (h : mod.Plain) :
    ∃ b v, mod.spec = some (b, v, false) ∧ b ∣ 16 ∧ 0 < b ∧
      ∀ iv, isIvValid mod iv = true → (iv.getD []).length = v := by
  have hnone : ∀ iv : Option Bytes, iv.isNone = true → (iv.getD []).length = 0 := by
    intro iv hiv
    rw [Option.isNone_iff_eq_none.mp hiv]
    rfl
  have hsome : ∀ (m : Mode) (iv : Option Bytes),
      (∀ v : Bytes, isIvValid m (some v) = (v.length == 16)) → isIvValid m none = false →
      isIvValid m iv = true → (iv.getD []).length = 16 := by
    intro m iv hm h0 hiv
    cases iv with
    | none => rw [h0] at hiv; cases hiv
    | some v => rw [hm] at hiv; simpa using hiv
  rcases h with rfl | rfl | rfl | rfl | rfl
  · exact ⟨16, 0, rfl, by decide, by decide, hnone⟩
  · exact ⟨16, 16, rfl, by decide, by decide, fun iv => hsome .cbc iv (fun _ => rfl) rfl⟩
  · exact ⟨1, 16, rfl, by decide, by decide, fun iv => hsome .cfb128 iv (fun _ => rfl) rfl⟩
  · exact ⟨1, 16, rfl, by decide, by decide, fun iv => hsome .ofb iv (fun _ => rfl) rfl⟩
  · exact ⟨1, 16, rfl, by decide, by decide, fun iv => hsome .ctr iv (fun _ => rfl) rfl⟩

/-- A valid key selects the cipher of its length. -/
theorem selectCipher_eq {mod : Mode} {key : Bytes} (hm : mod.spec.isSome = true)
    (h : isKeyValid mod (some key) = true) :
    selectCipher mod key.length = some ⟨mod, key.length⟩ := by
  cases mod <;> simp_all [Mode.spec, selectCipher, isKeyValid, or_assoc]

/-! ## The length checks -/

/-- Without padding only whole blocks pass. -/
theorem isRagged_eq_false {b n : Nat} {pad : Padding} (hb : b ≠ 0) :
    isRagged b pad n = some false ↔ (pad = .noPadding → b ∣ n) := by
  by_cases hp : pad = .noPadding
  · simp [isRagged, modulus, hp, hb, Nat.dvd_iff_mod_eq_zero]
  · simp [isRagged, hp]

theorem isPlainValid_iff {evp : Evp.Api Cipher} {mod : Mode} {keyLen n : Nat} {pad : Padding} :
    isPlainValid evp mod keyLen pad n = some true ↔
      isRagged (getBlockSize evp mod keyLen) pad n = some false := by
  cases h : isRagged (getBlockSize evp mod keyLen) pad n with
  | none => simp [isPlainValid, h]
  | some r => simp [isPlainValid, h]

/-! ## Opening a context -/

section Session

variable {alg : Cipher → Algorithm} {evp : Evp.Api Cipher} {At : evp.Ctx → Phase Cipher → Prop}

/-- The session an overload starts: `n` bytes of iv, and automatic padding
switched off unless the mode is authenticated. -/
def session (d : Dir) (mod : Mode) (key : Bytes) (iv : Option Bytes) (n : Nat) : Work Cipher :=
  { Work.start d ⟨mod, key.length⟩ key iv n with padding := isAeadMode mod }

theorem session_gcm (d : Dir) (key : Bytes) (iv : Option Bytes) (n : Nat) :
    session d .gcm key iv n = .start d ⟨.gcm, key.length⟩ key iv n := rfl

variable (hS : Serves alg evp Cipher.Covered At) (hA : IsAes alg)

include hA in
theorem session_direct (d : Dir) {mod : Mode} (key : Bytes) (iv : Option Bytes) (n : Nat)
    (fed : Bytes) (hm : mod.Plain ∨ mod = .gcm) (t : Option Bytes) :
    ({ session d mod key iv n with fed, tag := t } : Work Cipher).Direct alg := by
  rcases hm with hm | rfl
  · exact .inl hm.aead
  · exact .inr (hA ⟨.gcm, key.length⟩ 1 12 true rfl).1

include hS hA

/-- Without authentication the context is open, however the second
`EVP_*Init_ex` names the cipher. -/
theorem openCtx_plain (d : Dir) (again : Bool) {mod : Mode} (hm : mod.Plain) {key : Bytes}
    {iv : Option Bytes} (hkey : isKeyValid mod (some key) = true)
    (hiv : isIvValid mod iv = true) :
    ∃ ctx, openCtx evp d again mod key iv = some (.ok ctx) ∧
      At ctx (.working (session d mod key iv (iv.getD []).length)) := by
  obtain ⟨b, v, hspec, -, -, hlen⟩ := hm.spec
  have hv := hlen iv hiv
  obtain ⟨-, hivLen, -, hkeyLen⟩ := hA ⟨mod, key.length⟩ b v false hspec
  have hused : Cipher.Covered ⟨mod, key.length⟩ := by rw [Cipher.Covered, hspec]; rfl
  have hsel := selectCipher_eq hused hkey
  have haead := hm.aead
  obtain ⟨c0, hnew, h0⟩ := hS.new
  obtain ⟨c1, hi1, h1⟩ := hS.init_cipher d c0 _ ⟨mod, key.length⟩ hused h0
  have hset : setIvLen evp mod c1 iv = .ret c1 := by
    cases iv <;> simp [setIvLen, haead]
  obtain ⟨c2, hi2, h2⟩ : ∃ c2, evp.init d c1 (if again = true then some ⟨mod, key.length⟩ else none)
      (some key) iv = .ret c2 ∧
      At c2 (.working (.start d ⟨mod, key.length⟩ key iv (iv.getD []).length)) := by
    cases again with
    | false =>
      have := hS.init_key d c1 ⟨mod, key.length⟩ _ key iv h1 hkeyLen.symm (by rw [hivLen, hv])
      rwa [hivLen, ← hv] at this
    | true =>
      have := hS.init_again d c1 _ ⟨mod, key.length⟩ key iv hused h1 hkeyLen.symm (by rw [hivLen, hv])
      rwa [hivLen, ← hv] at this
  refine ⟨evp.setPadding c2 false, ?_, ?_⟩
  · simp only [openCtx, hnew, hsel, hi1, Call.check_ret, hset, hi2, haead]
    rfl
  · have := hS.setPadding c2 _ false h2
    simpa only [session, haead] using this

/-- In GCM mode with the cipher named again: refused lengths are refused,
an iv shorter than 12 bytes is read past its end, and of a longer one 12
bytes count. -/
theorem openCtx_gcm (d : Dir) {key iv : Bytes} (hkey : isKeyValid .gcm (some key) = true)
    (hpos : 0 < iv.length) :
    ((alg ⟨.gcm, key.length⟩).ivLenOk (toInt iv.length) = false →
      openCtx evp d true .gcm key (some iv) = some (.error .cipherCtlFailed)) ∧
    ((alg ⟨.gcm, key.length⟩).ivLenOk (toInt iv.length) = true → iv.length < 12 →
      openCtx evp d true .gcm key (some iv) = none) ∧
    ((alg ⟨.gcm, key.length⟩).ivLenOk (toInt iv.length) = true → 12 ≤ iv.length →
      ∃ ctx, openCtx evp d true .gcm key (some iv) = some (.ok ctx) ∧
        At ctx (.working (session d .gcm key (some iv) 12))) := by
  obtain ⟨-, hivLen, haead, hkeyLen⟩ := hA ⟨.gcm, key.length⟩ 1 12 true rfl
  have hsel := selectCipher_eq rfl hkey
  obtain ⟨c0, hnew, h0⟩ := hS.new
  obtain ⟨c1, hi1, h1⟩ := hS.init_cipher d c0 _ ⟨.gcm, key.length⟩ rfl h0
  refine ⟨fun hno => ?_, fun hok hlt => ?_, fun hok hle => ?_⟩
  · have hset := hS.setIvLen_err c1 _ _ (toInt iv.length) h1 haead hno
    simp [openCtx, hnew, hsel, hi1, setIvLen, isAeadMode, hpos, hset]
  · obtain ⟨c2, hset, h2⟩ := hS.setIvLen_ok c1 _ _ (toInt iv.length) h1 haead hok
    have hi2 := hS.init_again_short d c2 _ ⟨.gcm, key.length⟩ key iv rfl h2 (by rw [hivLen]; exact hlt)
    simp [openCtx, hnew, hsel, hi1, setIvLen, isAeadMode, hpos, hset, hi2]
  · obtain ⟨c2, hset, h2⟩ := hS.setIvLen_ok c1 _ _ (toInt iv.length) h1 haead hok
    obtain ⟨c3, hi2, h3⟩ := hS.init_again d c2 _ ⟨.gcm, key.length⟩ key (some iv) rfl h2 hkeyLen.symm
      (by rw [hivLen]; exact hle)
    refine ⟨c3, ?_, ?_⟩
    · simp [openCtx, hnew, hsel, hi1, setIvLen, isAeadMode, hpos, hset, hi2]
    · rwa [hivLen, ← session_gcm] at h3

/-- In GCM mode with `NULL` for the cipher the iv length that was set
stays: the one the cast of the source leaves. -/
theorem openCtx_gcm_null (d : Dir) {key iv : Bytes} (hkey : isKeyValid .gcm (some key) = true)
    (hpos : 0 < iv.length)
    (hok : (alg ⟨.gcm, key.length⟩).ivLenOk (toInt iv.length) = true) :
    ∃ ctx, openCtx evp d false .gcm key (some iv) = some (.ok ctx) ∧
      At ctx (.working (session d .gcm key (some iv) (toInt iv.length).toNat)) := by
  obtain ⟨-, hivLen, haead, hkeyLen⟩ := hA ⟨.gcm, key.length⟩ 1 12 true rfl
  have hsel := selectCipher_eq rfl hkey
  obtain ⟨c0, hnew, h0⟩ := hS.new
  obtain ⟨c1, hi1, h1⟩ := hS.init_cipher d c0 _ ⟨.gcm, key.length⟩ rfl h0
  obtain ⟨c2, hset, h2⟩ := hS.setIvLen_ok c1 _ _ (toInt iv.length) h1 haead hok
  have hle : (toInt iv.length).toNat ≤ ((some iv).getD []).length := toNat_toInt_le iv.length
  obtain ⟨c3, hi2, h3⟩ := hS.init_key d c2 ⟨.gcm, key.length⟩ _ key (some iv) h2 hkeyLen.symm hle
  refine ⟨c3, ?_, by rw [session_gcm]; exact h3⟩
  simp [openCtx, hnew, hsel, hi1, setIvLen, isAeadMode, hpos, hset, hi2]

omit hA

/-! ## One update -/

omit hS in
/-- Where the cast is not negative the call gets a beginning of the buffer
it was meant to get. -/
theorem updateN_handed (d : Dir) (ctx : evp.Ctx) {buf : Bytes} (h : buf.length % 2 ^ 32 < 2 ^ 31) :
    evp.updateN d ctx buf (toInt buf.length) = evp.update d ctx (handed buf) := by
  have hnn : ¬ toInt buf.length < 0 := by
    rcases toInt_cases buf.length with ⟨-, heq⟩ | ⟨hge, -⟩ <;> omega
  have hread : readN buf 0 (toInt buf.length).toNat = some (handed buf) := by
    have hle := toNat_toInt_le buf.length
    rw [readN, if_pos (by omega)]
    rfl
  simp only [Evp.Api.updateN, if_neg hnn, hread]

omit hS in
/-- Where the cast is negative there is no such call. -/
theorem updateN_negative (d : Dir) (ctx : evp.Ctx) {buf : Bytes}
    (h : 2 ^ 31 ≤ buf.length % 2 ^ 32) : evp.updateN d ctx buf (toInt buf.length) = .ub := by
  refine if_pos ?_
  rcases toInt_cases buf.length with ⟨hlt, -⟩ | ⟨-, hneg⟩
  · omega
  · exact hneg

omit hS in
/-- Below 2^31 bytes the cast keeps the length. -/
theorem handed_eq {buf : Bytes} (h : buf.length < 2 ^ 31) : handed buf = buf := by
  rw [handed, toInt_eq h, Int.toNat_natCast, List.take_length]

omit hS in
theorem updateN_eq (d : Dir) (ctx : evp.Ctx) {buf : Bytes} (h : buf.length < 2 ^ 31) :
    evp.updateN d ctx buf (toInt buf.length) = evp.update d ctx buf := by
  rw [updateN_handed d ctx (by omega), handed_eq h]

/-- What an update puts out is at most a block longer than what it is
given. -/
theorem length_update {w : Work Cipher} {x o : Bytes}
    (h : Work.out alg { w with fed := w.fed ++ x } = w.out alg ++ o) :
    o.length ≤ x.length + (alg w.cipher).blockSize := by
  have hl := hS.lawful w.cipher
  have hlen := congrArg List.length h
  simp only [Work.out, List.length_append, hl.length] at hlen
  have hle := Nat.div_mul_le_self (w.fed.length + x.length) (alg w.cipher).blockSize
  have hlt := Nat.lt_div_mul_add (a := w.fed.length) hl.pos
  omega

/-- A pump between two updates: its context is doing `w`, and its output
holds what was there before and what has come out since. -/
structure Pumping (alg : Cipher → Algorithm) (At : evp.Ctx → Phase Cipher → Prop) (sent : Bytes)
    (p : Pump evp) (w : Work Cipher) : Prop where
  ctx : At p.ctx (.working w)
  isOpen : p.out.Open
  written : p.out.written = sent ++ w.out alg
  fed : p.fed.flatten = w.fed

/-- **One feed** takes the chunk into the session. -/
theorem feed_spec {sent : Bytes} {p : Pump evp} {w : Work Cipher} (hp : Pumping alg At sent p w)
    (hd : w.Direct alg) (cap : Nat) (code : ErrorCode) {chunk : Bytes}
    (hcap : chunk.length + (alg w.cipher).blockSize ≤ cap) (hlt : chunk.length < 2 ^ 31) :
    ∃ p', feed evp w.dir cap code p chunk = some (.ok p') ∧ p'.inp = p.inp ∧
      Pumping alg At sent p' { w with fed := w.fed ++ chunk } := by
  obtain ⟨ctx', o, hup, hat, ho⟩ := hS.update p.ctx w chunk hp.ctx hd hlt
  have hlen := length_update hS ho
  obtain ⟨hopen, hwrite⟩ := OStream.write_open hp.isOpen o
  refine ⟨{ p with out := p.out.write o, ctx := ctx', fed := p.fed ++ [chunk] }, ?_, rfl, ?_⟩
  · unfold feed
    rw [updateN_eq w.dir p.ctx hlt, hup]
    exact if_pos (by omega)
  · refine ⟨hat, hopen, ?_, ?_⟩
    · simp only [hwrite, hp.written, ho, List.append_assoc]
    · simp [hp.fed]

/-! ## The chunk loops -/

omit hS in
theorem aesBufSize_lt : aesBufSize < 2 ^ 31 := by decide

/-- **The encrypting loop** feeds whole 16384-byte chunks and hands back
the short rest, empty when there is none. -/
theorem encryptLoop_spec {sent : Bytes} {cap : Nat} (fuel : Nat) :
    ∀ {p : Pump evp} {w : Work Cipher}, Pumping alg At sent p w →
      (∀ fed, ({ w with fed } : Work Cipher).Direct alg) → w.dir = .enc →
      aesBufSize + (alg w.cipher).blockSize ≤ cap → p.inp.Good → p.inp.rest.length < fuel →
      ∃ p' last head, encryptLoop evp cap fuel p = some (.ok (p', last)) ∧
        p.inp.rest = head ++ last ∧ aesBufSize ∣ head.length ∧ last.length < aesBufSize ∧
        Pumping alg At sent p' { w with fed := w.fed ++ head } := by
  induction fuel with
  | zero => intro p w _ _ _ _ _ hf; omega
  | succ fuel ih =>
    intro p w hp hd hdir hcap hg hf
    by_cases hshort : p.inp.rest.length < aesBufSize
    · -- the read that comes up short ends the loop
      obtain ⟨inp', hread, -, -⟩ := IStream.read_short hg hshort
      refine ⟨{ p with inp := inp' }, p.inp.rest, [], ?_, rfl, Nat.dvd_zero _, hshort, ?_⟩
      · simp [encryptLoop, hread, hshort]
      · rw [List.append_nil]
        exact ⟨hp.ctx, hp.isOpen, hp.written, hp.fed⟩
    · have hlen : (p.inp.rest.take aesBufSize).length = aesBufSize := by
        rw [List.length_take]; omega
      obtain ⟨inp', hread, hg', hr'⟩ := IStream.read_take hg (Nat.not_lt.mp hshort)
      have hp' : Pumping alg At sent ({ p with inp := inp' } : Pump evp) w :=
        ⟨hp.ctx, hp.isOpen, hp.written, hp.fed⟩
      obtain ⟨p1, hfeed, hinp, hp1⟩ := feed_spec hS hp' (hd w.fed) cap .encryptUpdateFailed
        (hlen.symm ▸ hcap) (hlen.symm ▸ aesBufSize_lt)
      rw [hdir] at hfeed
      obtain ⟨p2, last, head, hloop, hrest, hdvd, hlast, hp2⟩ := ih hp1 (fun fed => hd fed) hdir hcap
        (by rw [hinp]; exact hg')
        (by rw [hinp, hr', List.length_drop]; have : 0 < aesBufSize := by decide
            omega)
      refine ⟨p2, last, p.inp.rest.take aesBufSize ++ head, ?_, ?_, ?_, hlast, ?_⟩
      · simp [encryptLoop, hread, hshort, hfeed, hloop]
      · rw [List.append_assoc, ← hrest, hinp, hr', List.take_append_drop]
      · rw [List.length_append, hlen]
        exact Nat.dvd_add (Nat.dvd_refl _) hdvd
      · rw [← List.append_assoc]
        exact hp2

/-- The length of the last 16384-byte chunk of `n` bytes: short or full,
and empty only of nothing. -/
def lastChunk (n : Nat) : Nat := if n = 0 then 0 else (n - 1) % aesBufSize + 1

/-- **The decrypting loop**, started at the ciphertext, feeds all of it
but the last chunk. -/
theorem decryptLoop_spec {sent : Bytes} (cap fuel : Nat) :
    ∀ {p : Pump evp} {w : Work Cipher}, Pumping alg At sent p w →
      (∀ fed, ({ w with fed } : Work Cipher).Direct alg) → w.dir = .dec →
      aesBufSize + (alg w.cipher).blockSize ≤ cap → p.inp.Good → p.inp.rest.length < fuel →
      ∃ p' last head, decryptLoop evp cap fuel p.inp.rest.length p = some (.ok (p', last)) ∧
        p.inp.rest = head ++ last ∧ last.length = lastChunk p.inp.rest.length ∧
        aesBufSize ∣ head.length ∧ Pumping alg At sent p' { w with fed := w.fed ++ head } := by
  induction fuel with
  | zero => intro p w _ _ _ _ _ hf; omega
  | succ fuel ih =>
    intro p w hp hd hdir hcap hg hf
    have hbuf : 0 < aesBufSize := by decide
    by_cases h0 : p.inp.rest.length = 0
    · -- nothing at all
      refine ⟨p, [], [], ?_, ?_, ?_, Nat.dvd_zero _, ?_⟩
      · simp [decryptLoop, h0]
      · simpa using h0
      · simp [lastChunk, h0]
      · rw [List.append_nil]
        exact hp
    have hpos : ¬ ((p.inp.rest.length : Int) ≤ 0) := by omega
    by_cases hlast : p.inp.rest.length ≤ aesBufSize
    · obtain ⟨inp', hread, -, -, -⟩ := IStream.read_full hg (List.append_nil p.inp.rest).symm
      refine ⟨{ p with inp := inp' }, p.inp.rest, [], ?_, rfl, ?_, Nat.dvd_zero _, ?_⟩
      · have hmin : min aesBufSize ((p.inp.rest.length : Int)).toNat = p.inp.rest.length := by
          omega
        simp only [decryptLoop, if_neg hpos, hmin, hread]
        rw [if_pos (by omega)]
      · simp only [lastChunk, h0, if_false]
        rw [Nat.mod_eq_of_lt (by omega)]
        omega
      · rw [List.append_nil]
        exact ⟨hp.ctx, hp.isOpen, hp.written, hp.fed⟩
    · have hlen : (p.inp.rest.take aesBufSize).length = aesBufSize := by
        rw [List.length_take]; omega
      obtain ⟨inp', hread, hg', hr'⟩ := IStream.read_take hg (Nat.le_of_not_le hlast)
      have hp' : Pumping alg At sent ({ p with inp := inp' } : Pump evp) w :=
        ⟨hp.ctx, hp.isOpen, hp.written, hp.fed⟩
      obtain ⟨p1, hfeed, hinp, hp1⟩ := feed_spec hS hp' (hd w.fed) cap .decryptUpdateFailed
        (hlen.symm ▸ hcap) (hlen.symm ▸ aesBufSize_lt)
      rw [hdir] at hfeed
      have hleft : p1.inp.rest.length = p.inp.rest.length - aesBufSize := by
        rw [hinp, hr', List.length_drop]
      obtain ⟨p2, last, head, hloop, hrest, hl, hdvd, hp2⟩ := ih hp1 (fun fed => hd fed) hdir hcap
        (by rw [hinp]; exact hg') (by omega)
      refine ⟨p2, last, p.inp.rest.take aesBufSize ++ head, ?_, ?_, ?_, ?_, ?_⟩
      · have hmin : min aesBufSize ((p.inp.rest.length : Int)).toNat = aesBufSize := by omega
        have hsub : (p.inp.rest.length : Int) - (aesBufSize : Nat) = (p1.inp.rest.length : Nat) := by
          omega
        have hne : ¬ ((p1.inp.rest.length : Nat) : Int) = 0 := by omega
        simp only [decryptLoop, if_neg hpos, hmin, hread, hlen, hsub, if_neg hne, hfeed]
        exact hloop
      · rw [List.append_assoc, ← hrest, hinp, hr', List.take_append_drop]
      · rw [hl, hleft]
        have hne : ¬ p.inp.rest.length - aesBufSize = 0 := by omega
        simp only [lastChunk, h0, hne, if_false]
        have hsplit : p.inp.rest.length - 1 = p.inp.rest.length - aesBufSize - 1 + aesBufSize := by
          omega
        rw [hsplit, Nat.add_mod_right]
      · rw [List.length_append, hlen]
        exact Nat.dvd_add (Nat.dvd_refl _) hdvd
      · rw [← List.append_assoc]
        exact hp2

end Session

end HighJump.Crypto.Aes
