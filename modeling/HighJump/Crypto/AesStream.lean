/-
HighJump.Crypto.AesStream — the stream overload of `decrypt` of `hj::aes`
against the buffer overload and against the stream overload of `encrypt`.

The overload takes what stands before the read position to be the
ciphertext: `decrypt_file` opens its stream at the end. From there it
decrypts in chunks and unpads the last one only, and it makes no check of
the length. `decryptStream_alike_iff` says for which ciphertexts that is what
the buffer overload does.

From the start of a stream there is nothing before the read position. The
overload then decrypts nothing at all, reports success and writes
nothing (`decryptStream_start`), so no stream that `encrypt` wrote comes
back (`not_streamRoundTrip`).
-/
import HighJump.Crypto.AesTheorems

namespace HighJump.Crypto.Aes

open HighJump.Lib
open HighJump.Lib.Evp (Call Dir Algorithm Work Phase Serves)
open HighJump.Crypto.Des (subSz toInt toInt_eq)

section Stream

variable {alg : Cipher → Algorithm} {evp : Evp.Api Cipher} {At : evp.Ctx → Phase Cipher → Prop}
variable {mod : Mode} {key : Bytes} {pad : Padding} {iv : Option Bytes} {w : Work Cipher}
  {inp : IStream} {out : OStream}

/-! ## The end of a decryption -/

/-- The last chunk is decrypted, the final call decides, and what the
chunk gave is unpadded and written. -/
theorem decryptTail_eq (hS : Serves alg evp Cipher.Covered At) (cap : Nat) (mod : Mode)
    (pad : Padding) (b : Nat) (last : Bytes) {sent : Bytes} {p : Pump evp}
    (hp : Pumping alg At sent p w) (hdir : w.dir = .dec)
    (hd : ∀ fed, ({ w with fed } : Work Cipher).Direct alg) (hlt : last.length < 2 ^ 31)
    (hcap : last.length + (alg w.cipher).blockSize ≤ cap) :
    ∃ o spare fed,
      Work.out alg { w with fed := w.fed ++ last } = w.out alg ++ o ∧
      (({ w with fed := w.fed ++ last } : Work Cipher).Ends alg →
        decryptTail evp cap mod pad b p last
          = (unpaddingBlock (o ++ spare) o.length mod pad b).bind fun len =>
              (if len > 0 then p.out.writeSz (o ++ spare) len else some p.out).map
                (⟨.ok, ·, fed⟩)) ∧
      (¬ ({ w with fed := w.fed ++ last } : Work Cipher).Ends alg →
        decryptTail evp cap mod pad b p last = some ⟨.decryptFinalFailed, p.out, fed⟩) := by
  -- an empty chunk is not fed, which comes to the same
  obtain ⟨ctx1, o, hup, hat1, ho⟩ : ∃ ctx1 o,
      (if last.isEmpty then Call.ret (p.ctx, [])
        else evp.updateN .dec p.ctx last (toInt last.length)) = .ret (ctx1, o) ∧
      At ctx1 (.working { w with fed := w.fed ++ last }) ∧
      Work.out alg { w with fed := w.fed ++ last } = w.out alg ++ o := by
    by_cases hnil : last = []
    · subst hnil
      refine ⟨p.ctx, [], rfl, ?_, ?_⟩ <;> simp only [List.append_nil]
      exact hp.ctx
    · obtain ⟨ctx1, o, hup, hat, ho⟩ := hS.update p.ctx w last hp.ctx (hd w.fed) hlt
      rw [hdir] at hup
      have hne : ¬ last.isEmpty = true := by simpa using hnil
      refine ⟨ctx1, o, ?_, hat, ho⟩
      rw [if_neg hne, updateN_eq .dec p.ctx hlt, hup]
  have hlen := length_update hS ho
  have hw1 : writeN (List.replicate cap 0) 0 o = some (o ++ List.replicate (cap - o.length) 0) := by
    rw [writeN_zero (by rw [List.length_replicate]; omega), List.drop_replicate]
  have hw2 : writeN (o ++ List.replicate (cap - o.length) 0) o.length []
      = some (o ++ List.replicate (cap - o.length) 0) :=
    writeN_nil (by simp)
  refine ⟨o, List.replicate (cap - o.length) 0,
    if last.isEmpty then p.fed else p.fed ++ [last], ho, fun hends => ?_, fun hends => ?_⟩
  · obtain ⟨ctx2, hfin, -⟩ := hS.final_ok ctx1 _ hat1 (hd _) hends
    simp only [hdir] at hfin
    unfold decryptTail
    rw [hup]
    simp only [Call.check_ret, hw1, Option.bind_eq_bind, Option.bind_some, hfin, hw2,
      List.length_nil, Nat.add_zero, Option.map_eq_bind]
    congr 1
    funext len
    split <;> rfl
  · have hfin := hS.final_err ctx1 _ hat1 (hd _) hends
    simp only [hdir] at hfin
    unfold decryptTail
    rw [hup]
    simp only [Call.check_ret, hw1, Option.bind_eq_bind, Option.bind_some, hfin, Call.check_err]

/-- `decrypt` by stream, up to the open context. -/
theorem decryptStream_checks (pad : Padding) {b : Nat} (hg : inp.Good) (ho : out.Open)
    (hkey : isKeyValid mod (some key) = true) (hiv : isIvValid mod iv = true)
    (hb : getBlockSize evp mod key.length = b) {tag : Bytes} {len : Int} {inp' : IStream}
    (htag : readTag mod inp.pos { inp with pos := 0 } = (tag, len, inp')) :
    decryptStream evp out inp (some key) mod pad iv
      = (openCtx evp .dec true mod key iv).bind fun
          | .error c => some ⟨c, out, []⟩
          | .ok ctx =>
              (if isAeadMode mod then evp.setTag ctx tag else .ret ctx).check
                (some ⟨.cipherCtlFailed, out, []⟩) fun ctx =>
              (decryptLoop evp (aesBufSize + b * 2) (inp'.data.length + 1) len
                ⟨inp', out, ctx, []⟩).bind fun
              | .error r => some r
              | .ok (p, last) => decryptTail evp (aesBufSize + b * 2) mod pad b p last := by
  have hok : inp.ok = true := by simp [IStream.ok, hg.fail]
  have hok' : out.ok = true := by simp [OStream.ok, ho.fail]
  have hseek : inp.seekg 0 = { inp with pos := 0 } := IStream.seekg_good hg (Nat.zero_le _)
  have hrun := Eq.refl (decryptStream evp out inp (some key) mod pad iv)
  conv_rhs at hrun =>
    simp only [decryptStream, hok, hok', Option.getD_some, hkey, hiv, hb, IStream.tellg_good hg,
      hseek, htag, Option.bind_eq_bind, Option.bind_some, Bool.not_true, Bool.false_eq_true,
      if_false]
  exact hrun

/-! ## From the start of a stream -/

/-- Nothing unpads to nothing. -/
theorem unpaddingBlock_nil (hm : mod.Covered) {b : Nat} (spare : Bytes)
    (hb : mod.Plain → b = 16) : unpaddingBlock spare 0 mod pad b = some 0 := by
  rcases hm with hm | rfl
  · obtain ⟨n, hn, hle, -⟩ := unpaddingBlock_eq spare (show ([] : Bytes).length < 2 ^ 31 by decide) hm
      pad
      (fun h => by obtain ⟨-, d, hd, -⟩ := h; cases hd)
    have hn0 : n = 0 := Nat.le_zero.mp hle
    rw [hb hm, ← hn0]
    simpa [hn0] using hn
  · simp [unpaddingBlock, isAeadMode]

/-- A context that was opened for decryption is at the start of its
session. -/
theorem working_of_openCtx (hS : Serves alg evp Cipher.Covered At) (hA : IsAes alg)
    (hm : mod.Covered) (hkey : isKeyValid mod (some key) = true) (hiv : isIvValid mod iv = true)
    {ctx : evp.Ctx} (hopen : openCtx evp .dec true mod key iv = some (.ok ctx)) :
    ∃ m, At ctx (.working (session .dec mod key iv m)) := by
  rcases hm with hm | rfl
  · obtain ⟨ctx', hopen', hat⟩ := openCtx_plain hS hA .dec true hm hkey hiv
    cases hopen.symm.trans hopen'
    exact ⟨_, hat⟩
  · obtain ⟨v, rfl, hv⟩ := gcm_iv hiv
    obtain ⟨hno, hshort, hlong⟩ := openCtx_gcm hS hA .dec hkey hv
    cases haccept : (alg ⟨.gcm, key.length⟩).ivLenOk (toInt v.length) with
    | false => cases hopen.symm.trans (hno haccept)
    | true =>
      by_cases hle : 12 ≤ v.length
      · obtain ⟨ctx', hopen', hat⟩ := hlong haccept hle
        cases hopen.symm.trans hopen'
        exact ⟨_, hat⟩
      · cases hopen.symm.trans (hshort haccept (by omega))

/-- An AES block has at most sixteen bytes. -/
theorem blockSize_le (hA : IsAes alg) (hm : mod.Covered) (n : Nat) :
    (alg ⟨mod, n⟩).blockSize ≤ 16 := by
  rcases hm with hm | rfl
  · obtain ⟨b, v, hspec, hdvd, -⟩ := hm.spec
    rw [(hA ⟨mod, n⟩ b v false hspec).1]
    exact Nat.le_of_dvd (by decide) hdvd
  · rw [(hA ⟨.gcm, n⟩ 1 12 true rfl).1]
    decide

/-- **From the start of a stream** the overload finds no data: if it
reports success it has written nothing. -/
theorem decryptStream_start (hS : Serves alg evp Cipher.Covered At) (hA : IsAes alg)
    (hm : mod.Covered) (hg : inp.Good) (hpos : inp.pos = 0) (ho : out.Open)
    (hkey : isKeyValid mod (some key) = true) (hiv : isIvValid mod iv = true) {t : StreamResult}
    (ht : decryptStream evp out inp (some key) mod pad iv = some t) (hok : t.code = .ok) :
    t.out = out := by
  obtain ⟨b, hb, hb16⟩ : ∃ b, getBlockSize evp mod key.length = b ∧ (mod.Plain → b = 16) := by
    rcases hm with hm | rfl
    · exact ⟨16, hm.blockSize evp _, fun _ => rfl⟩
    · exact ⟨1, blockSize_gcm hS hA hkey, fun h => absurd rfl h.ne_gcm⟩
  have htag : readTag mod inp.pos { inp with pos := 0 }
      = (List.replicate 16 0, 0, { inp with pos := 0 }) := by
    simp [readTag, hpos]
  rw [decryptStream_checks pad hg ho hkey hiv hb htag] at ht
  cases hopen : openCtx evp .dec true mod key iv with
  | none => rw [hopen] at ht; cases ht
  | some e =>
    rw [hopen, Option.bind_some] at ht
    cases e with
    | error c =>
      cases ht
      exact rfl
    | ok ctx =>
      obtain ⟨m, hat⟩ := working_of_openCtx hS hA hm hkey hiv hopen
      have hw := session_opened hA .dec hm key iv m
      -- whatever tag is set, nothing has been fed
      obtain ⟨ctx1, tg, hset, hat1⟩ : ∃ ctx1 tg,
          (if isAeadMode mod then evp.setTag ctx (List.replicate 16 0) else .ret ctx) = .ret ctx1 ∧
          At ctx1 (.working { session .dec mod key iv m with tag := tg }) := by
        cases ha : isAeadMode mod with
        | false => exact ⟨ctx, none, rfl, hat⟩
        | true =>
          obtain ⟨ctx1, hset, hat1⟩ := hS.setTag ctx _ (List.replicate 16 0) hat rfl
            (hw.aead.trans ha) rfl
          exact ⟨ctx1, _, by simpa using hset, hat1⟩
      have hl := hS.lawful ⟨mod, key.length⟩
      have hp : Pumping alg At out.written (⟨{ inp with pos := 0 }, out, ctx1, []⟩ : Pump evp)
          { session .dec mod key iv m with tag := tg } := by
        refine ⟨hat1, ho, ?_, rfl⟩
        have hnil : (alg ⟨mod, key.length⟩).apply .dec key ((iv.getD []).take m) [] = [] :=
          hl.apply_nil _ _ _
        exact (congrArg (out.written ++ ·) hnil).symm ▸ (List.append_nil _).symm
      have hbs : (alg ⟨mod, key.length⟩).blockSize ≤ aesBufSize + b * 2 := by
        have hbuf : aesBufSize = 16384 := rfl
        have hle := blockSize_le hA hm key.length
        omega
      obtain ⟨o, spare, fed, hout, hyes, hno⟩ := decryptTail_eq hS (aesBufSize + b * 2) mod pad b []
        hp rfl (fun fed => hw.direct fed tg)
        (by decide) (by rw [List.length_nil, Nat.zero_add]; exact hbs)
      have hnil : o = [] := by
        simp only [List.append_nil] at hout
        exact (List.self_eq_append_right.mp hout)
      subst hnil
      dsimp only at ht
      rw [hset, Call.check_ret] at ht
      simp only [decryptLoop, Int.le_refl, if_true, Option.bind_some] at ht
      by_cases hends : ({ session .dec mod key iv m with tag := tg, fed := [] ++ [] } :
          Work Cipher).Ends alg
      · rw [hyes hends, List.nil_append, List.length_nil, unpaddingBlock_nil hm spare hb16,
          Option.bind_some, if_neg (Nat.lt_irrefl 0), Option.map_some] at ht
        cases ht
        rfl
      · rw [hno hends] at ht
        cases ht
        rfl

/-- `encrypt` writes into an empty string stream, and `decrypt` from that
stream, read position at the start, gives the message back. -/
def StreamRoundTrip (evp : Evp.Api Cipher) (rnd : Nat → UInt8) (out : OStream) (inp : IStream)
    (key : Bytes) (mod : Mode) (pad : Padding) (iv : Option Bytes) : Prop :=
  ∃ s t, encryptStream evp rnd OStream.empty inp (some key) mod pad iv = some s ∧
    decryptStream evp out (IStream.ofBytes s.out.written) (some key) mod pad iv = some t ∧
    t.code = .ok ∧ t.out.written = out.written ++ inp.rest

/-- **No stream comes back**: whatever the mode, the key and the iv, a
message that is not empty is lost. -/
theorem not_streamRoundTrip (hS : Serves alg evp Cipher.Covered At) (hA : IsAes alg)
    (hm : mod.Covered) (hkey : isKeyValid mod (some key) = true) (hiv : isIvValid mod iv = true)
    (rnd : Nat → UInt8) (ho : out.Open) (hne : inp.rest ≠ []) :
    ¬ StreamRoundTrip evp rnd out inp key mod .pkcs7 iv := by
  rintro ⟨s, t, -, ht, hcode, hout⟩
  have hsame := decryptStream_start hS hA hm (IStream.good_ofBytes _) rfl ho hkey hiv ht hcode
  rw [hsame] at hout
  exact hne (List.self_eq_append_right.mp hout)

end Stream

/-- Sixteen bytes through a string stream: `decrypt` reports success and
writes nothing. -/
theorem not_streamRoundTrip_samplePlain :
    isKeyValid .ecb (some sampleKey) = true ∧ isIvValid .ecb none = true ∧
      (IStream.ofBytes samplePlain).rest ≠ [] ∧
      ¬ StreamRoundTrip sampleEvp (fun _ => 0) OStream.empty (IStream.ofBytes samplePlain) sampleKey
        .ecb .pkcs7 none := by
  refine ⟨by decide, by decide, by decide, ?_⟩
  rintro ⟨s, t, -, ht, hcode, hout⟩
  have hsame := decryptStream_start sampleEvp_serves sampleAlg_isAes (.inl (.inl rfl))
    (IStream.good_ofBytes _) rfl OStream.open_empty (by decide) (by decide) ht hcode
  rw [hsame] at hout
  revert hout
  decide

/-- The theorem at the same message. -/
theorem not_streamRoundTrip_ecb :
    ¬ StreamRoundTrip sampleEvp (fun _ => 0) OStream.empty (IStream.ofBytes samplePlain) sampleKey
      .ecb .pkcs7 none :=
  not_streamRoundTrip sampleEvp_serves sampleAlg_isAes (.inl (.inl rfl)) (by decide) (by decide)
    (fun _ => 0) OStream.open_empty (by decide)

/-! ## Stream and buffer decryption compared -/

section Alike

variable {alg : Cipher → Algorithm} {evp : Evp.Api Cipher} {At : evp.Ctx → Phase Cipher → Prop}
variable {mod : Mode} {key : Bytes} {pad : Padding} {iv : Option Bytes} {inp : IStream}
  {out : OStream} {dst c : Bytes} (n : Nat)

/-- A count byte of a last part that overruns it, in a message that is
long enough: the cut is not where the part begins. -/
theorem unpad_ne_of_overruns {q o : Bytes} (ho : Overruns pad o) (hq : ¬ Overruns pad (q ++ o)) :
    unpad pad (q ++ o) ≠ q := by
  obtain ⟨hc, d, hd, hlt, h16⟩ := ho
  have hd' : (q ++ o).getLast? = some d := by rw [List.getLast?_append, hd]; rfl
  have hle : d.toNat ≤ (q ++ o).length := by
    by_contra h
    exact hq ⟨hc, d, hd', by omega, h16⟩
  have hne : o ≠ [] := by rintro rfl; cases hd
  have hpos := List.length_pos_of_ne_nil hne
  have hcut (g : UInt8 → Bytes → Bool) : cutBy g (q ++ o) ≠ q := by
    intro h
    have hlen := congrArg List.length h
    rw [List.length_append] at hle
    unfold cutBy at hlen
    rw [hd'] at hlen
    dsimp only at hlen
    split at hlen
    · rw [List.length_take, List.length_append] at hlen
      omega
    · rw [List.length_append] at hlen
      omega
  cases pad with
  | pkcs5 | pkcs7 | iso10126 | ansix923 =>
    simp only [unpad]
    exact hcut _
  | zero | isoIec7816_4 | noPadding => exact hc.elim

/-- A session of a mode without authentication ends at whole blocks. -/
theorem ends_plain (hA : IsAes alg) (hm : mod.Plain) {w : Work Cipher}
    (hw : w.cipher = ⟨mod, key.length⟩) :
    w.Ends alg ↔ (alg ⟨mod, key.length⟩).blockSize ∣ w.fed.length := by
  have haead : (alg ⟨mod, key.length⟩).aead = false := by
    obtain ⟨b, v, hspec, -⟩ := hm.spec
    exact (hA ⟨mod, key.length⟩ b v false hspec).2.2.1
  unfold Work.Ends
  rw [hw]
  constructor
  · exact fun h => h.1
  · refine fun h => ⟨h, fun _ ha => ?_⟩
    cases haead.symm.trans ha

/-- **The buffer overload** without authentication: whole blocks are
decrypted and unpadded as one. -/
theorem decrypt_plain (hS : Serves alg evp Cipher.Covered At) (hA : IsAes alg) (hm : mod.Plain)
    (hkey : isKeyValid mod (some key) = true) (hiv : isIvValid mod iv = true)
    (hp : pad = .noPadding → 16 ∣ c.length) (hlt : c.length < 2 ^ 31)
    (hdst : c.length ≤ dst.length) :
    let a := alg ⟨mod, key.length⟩
    let p := a.dec key (iv.getD []) c
    (a.blockSize ∣ c.length → decrypt evp dst n c (some key) mod pad iv
      = (unpaddingBlock (p ++ dst.drop p.length) p.length mod pad 16).map fun len =>
          ⟨.ok, p ++ dst.drop p.length, len, [c]⟩) ∧
    (¬ a.blockSize ∣ c.length → decrypt evp dst n c (some key) mod pad iv
      = some ⟨.decryptFinalFailed, p ++ dst.drop p.length, n, [c]⟩) := by
  intro a p
  obtain ⟨ctx, hopen, hat⟩ := openCtx_plain hS hA .dec false hm hkey hiv
  have hw := session_opened hA .dec (.inl hm) key iv (iv.getD []).length
  have hsplit : splitTag mod c = (c, none) := by simp [splitTag, hm.aead]
  have hdec := decrypt_checks dst n c pad hkey hiv (hm.blockSize evp _)
    ((isRagged_eq_false (by decide)).mpr hp)
  rw [hopen, Option.bind_some, hsplit] at hdec
  dsimp only at hdec
  have hiv' : (session .dec mod key iv (iv.getD []).length).iv = iv.getD [] := List.take_length
  obtain ⟨hyes, hno⟩ := decryptWith_eq hS dst n pad 16 c none hat hw
    (fun t h => by cases h) hlt hdst
  rw [hiv'] at hyes hno
  refine ⟨fun h => ?_, fun h => ?_⟩
  · rw [hdec]
    exact hyes ((ends_plain hA hm rfl).mpr h)
  · rw [hdec]
    exact hno fun he => h ((ends_plain hA hm rfl).mp he)

/-- **The stream overload** without authentication, from the end of a
stream: all but the last chunk has been written when that chunk is
unpadded. -/
theorem decryptStream_plain (pad : Padding) (hS : Serves alg evp Cipher.Covered At) (hA : IsAes alg)
    (hm : mod.Plain) (hkey : isKeyValid mod (some key) = true) (hiv : isIvValid mod iv = true)
    (hg : inp.Good) (hend : inp.pos = inp.data.length) (ho : out.Open) :
    let a := alg ⟨mod, key.length⟩
    ∃ q o spare out' fed, a.dec key (iv.getD []) inp.data = q ++ o ∧ out'.Open ∧
      out'.written = out.written ++ q ∧
      (a.blockSize ∣ inp.data.length → o.length = lastChunk inp.data.length ∧
        decryptStream evp out inp (some key) mod pad iv
          = (unpaddingBlock (o ++ spare) o.length mod pad 16).bind fun len =>
              (if len > 0 then OStream.writeSz out' (o ++ spare) len else some out').map
                (⟨.ok, ·, fed⟩)) ∧
      (¬ a.blockSize ∣ inp.data.length →
        decryptStream evp out inp (some key) mod pad iv
          = some ⟨.decryptFinalFailed, out', fed⟩) := by
  intro a
  have hl := hS.lawful ⟨mod, key.length⟩
  obtain ⟨ctx, hopen, hat⟩ := openCtx_plain hS hA .dec true hm hkey hiv
  have hw := session_opened hA .dec (.inl hm) key iv (iv.getD []).length
  have hiv' : (session .dec mod key iv (iv.getD []).length).iv = iv.getD [] := List.take_length
  have htag : readTag mod inp.pos { inp with pos := 0 }
      = (List.replicate 16 0, (inp.data.length : Int), { inp with pos := 0 }) := by
    simp [readTag, hm.aead, hend]
  have hg0 : ({ inp with pos := 0 } : IStream).Good := ⟨hg.eof, hg.fail, Nat.zero_le _⟩
  have hstart : Pumping alg At out.written (⟨{ inp with pos := 0 }, out, ctx, []⟩ : Pump evp)
      (session .dec mod key iv (iv.getD []).length) := by
    refine ⟨hat, ho, ?_, rfl⟩
    rw [Work.out, hw.fed]
    rw [hw.cipher, hl.apply_nil, List.append_nil]
  obtain ⟨b, v, hspec, hb16, hbpos, -⟩ := hm.spec
  have hb : (alg ⟨mod, key.length⟩).blockSize = b := (hA ⟨mod, key.length⟩ b v false hspec).1
  have hble := Nat.le_of_dvd (by decide) hb16
  have hbuf : aesBufSize = 16384 := rfl
  obtain ⟨p1, last, front, hloop, hcut, hlast, hdvd, hp1⟩ := decryptLoop_spec hS
    (aesBufSize + 16 * 2) (inp.data.length + 1) hstart (fun fed => hw.direct fed none) rfl
    (by rw [hw.cipher, hb]; omega) hg0 (by simp [IStream.rest])
  have hrest : ({ inp with pos := 0 } : IStream).rest = inp.data := rfl
  rw [hrest] at hcut hlast hloop
  have hshort : last.length ≤ aesBufSize := by
    rw [hlast, lastChunk]
    have := Nat.mod_lt (inp.data.length - 1) (show aesBufSize > 0 by decide)
    split <;> omega
  obtain ⟨o, spare, fed, hout, hyes, hno⟩ := decryptTail_eq hS (aesBufSize + 16 * 2) mod pad 16
    last hp1 rfl (fun fed => hw.direct fed none)
    (by omega) (by simp only [hw.cipher, hb]; omega)
  have hfed : (session .dec mod key iv (iv.getD []).length).fed = [] := rfl
  simp only [hfed, List.nil_append, ← hcut] at hout hyes hno hp1
  have hdec : a.dec key (iv.getD []) inp.data = a.dec key (iv.getD []) front ++ o := by
    simp only [Work.out, hw.cipher, hw.key, hw.dir, hiv'] at hout
    exact hout
  have hwritten := hp1.written
  simp only [Work.out, hw.cipher, hw.key, hw.dir, hiv'] at hwritten
  have hstream := decryptStream_checks pad hg ho hkey hiv (hm.blockSize evp _) htag
  rw [hopen, Option.bind_some] at hstream
  simp only [hm.aead, Bool.false_eq_true, if_false, Call.check_ret, hloop, Option.bind_some]
    at hstream
  refine ⟨a.dec key (iv.getD []) front, o, spare, p1.out, fed, hdec, hp1.isOpen, hwritten,
    fun h => ⟨?_, ?_⟩, fun h => ?_⟩
  · -- whole blocks of ciphertext give as many bytes as they have
    have h1 : (a.dec key (iv.getD []) inp.data).length = inp.data.length :=
      hl.length_of_dvd .dec _ _ h
    have h2 : (a.dec key (iv.getD []) front).length = front.length :=
      hl.length_of_dvd .dec _ _ (by
        rw [hb]
        exact Nat.dvd_trans (Nat.dvd_trans hb16 (by decide)) hdvd)
    rw [hdec, List.length_append, h2] at h1
    rw [hcut, List.length_append] at h1
    omega
  · rw [hstream]
    exact hyes ((ends_plain hA hm rfl).mpr h)
  · rw [hstream]
    exact hno fun he => h ((ends_plain hA hm rfl).mp he)

/-- The write of the first `len` bytes of `outbuf`. -/
theorem writeSz_take {out : OStream} (ho : out.Open) {o : Bytes} (spare : Bytes) {len : Nat}
    (hle : len ≤ o.length) (hlt : o.length ≤ 2 ^ 31) :
    ∃ out', (if len > 0 then out.writeSz (o ++ spare) len else some out) = some out' ∧
      out'.written = out.written ++ o.take len := by
  by_cases hpos : len > 0
  · have hread : readN (o ++ spare) 0 len = some (o.take len) := by
      have hfits : 0 + len ≤ (o ++ spare).length := by rw [List.length_append]; omega
      rw [readN, if_pos hfits, List.drop_zero, List.take_append_of_le_length hle]
    refine ⟨out.write (o.take len), ?_, (OStream.write_open ho _).2⟩
    rw [if_pos hpos, OStream.writeSz, if_pos (by omega), hread, Option.map_some]
  · have hzero : len = 0 := by omega
    exact ⟨out, if_neg hpos, by simp [hzero]⟩

/-- The two overloads of `decrypt`, the stream one at the end of a stream
that holds the ciphertext, give the same code and, if it is ok, the same
bytes. -/
def DecryptsAlike (evp : Evp.Api Cipher) (dst : Bytes) (n : Nat) (out : OStream) (inp : IStream)
    (key : Bytes) (mod : Mode) (pad : Padding) (iv : Option Bytes) : Prop :=
  ∃ r s, decrypt evp dst n inp.data (some key) mod pad iv = some r ∧
    decryptStream evp out inp (some key) mod pad iv = some s ∧ s.code = r.code ∧
    (r.code = .ok → r.dstLen ≤ r.dst.length ∧ s.out.written = out.written ++ r.out)

/-- Whole blocks, with their decryption `q ++ o` of which the last chunk
is `o`. -/
theorem alike_iff_straddles {out' : OStream} {q o spare spare' : Bytes} {fed fed' : List Bytes}
    (hm : mod.Plain) (ho : out'.Open) (hwritten : out'.written = out.written ++ q)
    (hq : q = [] ∨ 16 ≤ q.length) (hnil : o = [] → q = []) (hlen : (q ++ o).length < 2 ^ 31)
    (hbuf : decrypt evp dst n inp.data (some key) mod pad iv
      = (unpaddingBlock (q ++ o ++ spare) (q ++ o).length mod pad 16).map fun len =>
          ⟨.ok, q ++ o ++ spare, len, fed⟩)
    (hstream : decryptStream evp out inp (some key) mod pad iv
      = (unpaddingBlock (o ++ spare') o.length mod pad 16).bind fun len =>
          (if len > 0 then OStream.writeSz out' (o ++ spare') len else some out').map
            (⟨.ok, ·, fed'⟩)) :
    DecryptsAlike evp dst n out inp key mod pad iv ↔ ¬ Straddles o.length pad (q ++ o) := by
  have hol : o.length < 2 ^ 31 := by rw [List.length_append] at hlen; omega
  by_cases hover : Overruns pad o
  · -- the stream writes nothing of the last chunk; the buffer overload cuts elsewhere
    refine iff_of_false ?_ fun h => h (hover.straddles q)
    rintro ⟨r, s, hr, hs, -, hsame⟩
    obtain ⟨len, hunpad, hbig⟩ := unpaddingBlock_overruns spare' hol hm hover
    have hpos : len > 0 := by omega
    rw [hstream, hunpad, Option.bind_some, if_pos hpos, OStream.writeSz, if_neg (by omega),
      Option.map_some] at hs
    cases hs
    rw [hbuf] at hr
    by_cases hover' : Overruns pad (q ++ o)
    · obtain ⟨len', hunpad', hbig'⟩ := unpaddingBlock_overruns spare hlen hm hover'
      rw [hunpad', Option.map_some] at hr
      cases hr
      obtain ⟨hfits, hout⟩ := hsame rfl
      rw [hwritten] at hout
      have hlens := congrArg List.length (List.append_cancel_left hout)
      simp only [Result.out, List.length_take] at hlens hfits
      rw [List.length_append] at hlen
      omega
    · obtain ⟨len', hunpad', hle, htake⟩ := unpaddingBlock_eq spare hlen hm pad hover'
      rw [hunpad', Option.map_some] at hr
      cases hr
      obtain ⟨-, hout⟩ := hsame rfl
      rw [hwritten] at hout
      have hcut := List.append_cancel_left hout
      simp only [Result.out] at hcut
      rw [List.take_append_of_le_length hle, htake] at hcut
      exact unpad_ne_of_overruns hover hover' hcut.symm
  · have hover' : ¬ Overruns pad (q ++ o) := by
      rintro ⟨hc, d, hd, hlt, h16⟩
      rcases hq with rfl | hq
      · exact hover ⟨hc, d, by simpa using hd, by simpa using hlt, h16⟩
      · rw [List.length_append] at hlt
        omega
    obtain ⟨len, hunpad, hle, htake⟩ := unpaddingBlock_eq spare' hol hm pad hover
    obtain ⟨len', hunpad', hle', htake'⟩ := unpaddingBlock_eq spare hlen hm pad hover'
    obtain ⟨out2, hwrite, hout2⟩ := writeSz_take ho spare' hle (by omega)
    have hkept : (q ++ o ++ spare).take len' = unpad pad (q ++ o) := by
      rw [List.take_append_of_le_length hle', htake']
    rw [hunpad', Option.map_some] at hbuf
    rw [hunpad, Option.bind_some, hwrite, Option.map_some] at hstream
    have halike : DecryptsAlike evp dst n out inp key mod pad iv ↔
        unpad pad (q ++ o) = q ++ unpad pad o := by
      constructor
      · rintro ⟨r, s, hr, hs, -, hsame⟩
        cases hr.symm.trans hbuf
        cases hs.symm.trans hstream
        obtain ⟨-, hout⟩ := hsame rfl
        simp only [Result.out] at hout
        rw [hkept, hout2, hwritten, htake, List.append_assoc] at hout
        exact (List.append_cancel_left hout).symm
      · intro hsame
        refine ⟨_, _, hbuf, hstream, rfl, fun _ => ⟨?_, ?_⟩⟩
        · simp only [List.length_append] at hle' ⊢
          omega
        · simp only [Result.out]
          rw [hkept, hout2, hwritten, htake, List.append_assoc, hsame]
    rw [halike]
    by_cases honil : o = []
    · subst honil
      rw [hnil rfl]
      refine iff_of_true rfl ?_
      cases pad <;> simp [Straddles]
    · exact unpad_append_iff pad honil hover

/-- The stream overload has no check to fail on the length: it never
answers with the code of that check. -/
theorem decryptStream_code (hS : Serves alg evp Cipher.Covered At) (hA : IsAes alg) (hm : mod.Plain)
    (hkey : isKeyValid mod (some key) = true) (hiv : isIvValid mod iv = true) (hg : inp.Good)
    (hend : inp.pos = inp.data.length) (ho : out.Open) {s : StreamResult}
    (hs : decryptStream evp out inp (some key) mod pad iv = some s) :
    s.code = .ok ∨ s.code = .decryptFinalFailed := by
  obtain ⟨q, o, spare, out', fed, -, -, -, hyes, hno⟩ :=
    decryptStream_plain pad hS hA hm hkey hiv hg hend ho
  by_cases hdvd : (alg ⟨mod, key.length⟩).blockSize ∣ inp.data.length
  · rw [(hyes hdvd).2] at hs
    obtain ⟨len, -, hlen⟩ := Option.bind_eq_some_iff.mp hs
    obtain ⟨out2, -, hout2⟩ := Option.map_eq_some_iff.mp hlen
    exact .inl (by rw [← hout2])
  · rw [hno hdvd] at hs
    cases hs
    exact .inr rfl

/-- A length that is no multiple of 16 is refused without padding. -/
theorem decrypt_refused (hm : mod.Plain) (hkey : isKeyValid mod (some key) = true)
    (hiv : isIvValid mod iv = true) (h : ¬ 16 ∣ c.length) :
    decrypt evp dst n c (some key) mod .noPadding iv = some ⟨.paddingStyleInvalid, dst, n, []⟩ := by
  have hmod : c.length % 16 ≠ 0 := fun h0 => h (Nat.dvd_of_mod_eq_zero h0)
  simp [decrypt, hkey, hiv, hm.blockSize, isRagged, modulus, hmod]

theorem sub_lastChunk (m : Nat) : m - lastChunk m = 0 ∨ 16 ≤ m - lastChunk m := by
  have hbuf : aesBufSize = 16384 := rfl
  unfold lastChunk
  rw [hbuf]
  split <;> omega

/-- **Stream and buffer decryption.** For the modes without
authentication, every padding, valid key and iv, and a ciphertext below
2^31 bytes, the overloads agree exactly when a ciphertext that was not
padded is whole blocks of 16, and no message with this ciphertext has
padding, or bytes that pass for it, that go back beyond the last
chunk. -/
theorem decryptStream_alike_iff (hS : Serves alg evp Cipher.Covered At) (hA : IsAes alg)
    (hm : mod.Plain) (hkey : isKeyValid mod (some key) = true) (hiv : isIvValid mod iv = true)
    (hg : inp.Good) (hend : inp.pos = inp.data.length) (ho : out.Open)
    (hlt : inp.data.length < 2 ^ 31) (hdst : inp.data.length ≤ dst.length) :
    DecryptsAlike evp dst n out inp key mod pad iv ↔
      (pad = .noPadding → 16 ∣ inp.data.length) ∧
      ∀ p : Bytes, p.length = inp.data.length →
        (alg ⟨mod, key.length⟩).enc key (iv.getD []) p = inp.data →
        ¬ Straddles (lastChunk inp.data.length) pad p := by
  have hl := hS.lawful ⟨mod, key.length⟩
  by_cases hnp : pad = .noPadding → 16 ∣ inp.data.length
  · obtain ⟨hbuf, hbuf'⟩ := decrypt_plain n hS hA hm hkey hiv hnp hlt hdst
    obtain ⟨q, o, spare, out', fed, hdec, hopen, hwritten, hyes, hno⟩ :=
      decryptStream_plain pad hS hA hm hkey hiv hg hend ho
    by_cases hdvd : (alg ⟨mod, key.length⟩).blockSize ∣ inp.data.length
    · obtain ⟨holen, hstream⟩ := hyes hdvd
      have hlen : (q ++ o).length = inp.data.length := by
        rw [← hdec]; exact hl.length_of_dvd .dec _ _ hdvd
      have hq : q.length = inp.data.length - lastChunk inp.data.length := by
        rw [List.length_append] at hlen
        omega
      have hsub := sub_lastChunk inp.data.length
      have hbuf := hbuf hdvd
      rw [hdec] at hbuf
      rw [alike_iff_straddles n hm hopen hwritten ?_ ?_ (by omega) hbuf hstream, ← hdec, holen]
      · -- the decryption is the one message with this ciphertext
        constructor
        · refine fun h => ⟨hnp, fun p hp henc hstr => h ?_⟩
          have hdec' := hl.dec_enc key (iv.getD []) p (hp ▸ hdvd)
          rw [henc] at hdec'
          rwa [hdec']
        · intro h
          exact h.2 _ (hl.length_of_dvd .dec _ _ hdvd) (hl.enc_dec _ _ _ hdvd)
      · rcases hsub with h0 | h16
        · exact .inl (List.length_eq_zero_iff.mp (by omega))
        · exact .inr (by omega)
      · rintro rfl
        have hzero : lastChunk inp.data.length = 0 := holen.symm
        have hempty : inp.data.length = 0 := by
          by_contra h
          rw [lastChunk, if_neg h] at hzero
          omega
        exact List.length_eq_zero_iff.mp (by omega)
    · refine iff_of_true ⟨_, _, hbuf' hdvd, hno hdvd, rfl, fun h => by cases h⟩ ⟨hnp, ?_⟩
      intro p hp henc
      refine absurd ⟨p.length / (alg ⟨mod, key.length⟩).blockSize, ?_⟩ hdvd
      have hplen : ((alg ⟨mod, key.length⟩).enc key (iv.getD []) p).length = _ :=
        hl.length .enc key (iv.getD []) p
      rw [← henc, hplen, Nat.mul_comm]
  · refine iff_of_false ?_ fun h => hnp h.1
    obtain ⟨rfl, hndvd⟩ : pad = .noPadding ∧ ¬ 16 ∣ inp.data.length := by
      simpa using hnp
    rintro ⟨r, s, hr, hs, hcode, -⟩
    rw [decrypt_refused n hm hkey hiv hndvd] at hr
    cases hr
    have hs' := decryptStream_code hS hA hm hkey hiv hg hend ho hs
    rw [hcode] at hs'
    simp at hs'

end Alike

/-- One byte of counter-mode ciphertext and no padding: the buffer overload
refuses the length, the stream overload decrypts it. -/
theorem not_decryptsAlike_short :
    isKeyValid .ctr (some sampleKey) = true ∧
      isIvValid .ctr (some (List.replicate 16 0)) = true ∧
      ¬ DecryptsAlike sampleEvp [0] 1 OStream.empty ⟨[0x00], 1, false, false⟩ sampleKey .ctr
        .noPadding (some (List.replicate 16 0)) := by
  refine ⟨by decide, by decide, ?_⟩
  rintro ⟨r, s, hr, hs, hcode, -⟩
  have hmode : Mode.ctr.Plain := .inr (.inr (.inr (.inr rfl)))
  rw [decrypt_refused 1 hmode (by decide) (by decide) (by decide)] at hr
  cases hr
  have hs' := decryptStream_code sampleEvp_serves sampleAlg_isAes hmode (by decide) (by decide)
    ⟨rfl, rfl, by decide⟩ rfl OStream.open_empty hs
  rw [hcode] at hs'
  revert hs'
  decide

/-- A block and its padding, by buffer and by stream. -/
theorem decryptStream_alike_iff_sampleCipher :
    DecryptsAlike sampleEvp (List.replicate 32 0) 0 OStream.empty
        ⟨sampleCipher ++ padCipher, 32, false, false⟩ sampleKey .ecb .pkcs7 none ↔
      (Padding.pkcs7 = .noPadding → 16 ∣ (sampleCipher ++ padCipher).length) ∧
      ∀ p : Bytes, p.length = (sampleCipher ++ padCipher).length →
        (sampleAlg ⟨.ecb, sampleKey.length⟩).enc sampleKey ((none : Option Bytes).getD []) p
          = sampleCipher ++ padCipher →
        ¬ Straddles (lastChunk (sampleCipher ++ padCipher).length) .pkcs7 p :=
  decryptStream_alike_iff 0 sampleEvp_serves sampleAlg_isAes (.inl rfl) (by decide) (by decide)
    (show (⟨sampleCipher ++ padCipher, 32, false, false⟩ : IStream).Good from ⟨rfl, rfl, by decide⟩)
    rfl OStream.open_empty
    (by decide) (by decide)

end HighJump.Crypto.Aes
