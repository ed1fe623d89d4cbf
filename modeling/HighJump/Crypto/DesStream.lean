/-
HighJump.Crypto.DesStream — the stream overloads of `hj::des` against the
buffer overloads.

The stream loops are a second implementation: blocks are read eight bytes
at a time, a one-byte peek finds the last one, and the chaining block
lives in two variables. Both loops are proved, by induction on the blocks
still in the stream, to compute the same run the buffer bodies compute.

For encryption that is the whole story. For decryption it is not: the
stream unpads its last block, the buffer overload unpads everything it
decrypted, and for the two paddings that scan back over zeros these are
different functions. `unpad_split_iff` says exactly on which plaintexts.
-/
import HighJump.Crypto.DesTheorems

namespace HighJump.Crypto.Des

open HighJump.Lib HighJump.Lib.BlockModes

variable {api : DesApi}

/-! ## One block -/

/-- The chaining block the mode uses. -/
def Chain.cur (ch : Chain) : Mode → Block
  | .ctr => ch.ctr
  | _ => ch.iv

theorem chainOf_cur (iv : Option Bytes) (mod : Mode) :
    (chainOf iv).cur mod = (chainOf iv).iv := by
  unfold chainOf
  split <;> cases mod <;> rfl

/-- `_stream_block_encrypt` is the mode's step. -/
theorem streamBlockEncrypt_eq (ks : List api.KeySchedule) (mod : Mode) (ch : Chain) (b : Block) :
    (streamBlockEncrypt api ks mod ch b).2
        = (encStep (edeEncrypt api ks) mod (ch.cur mod) b).2 ∧
      (streamBlockEncrypt api ks mod ch b).1.cur mod
        = (encStep (edeEncrypt api ks) mod (ch.cur mod) b).1 := by
  cases mod <;> exact ⟨rfl, rfl⟩

/-- The `switch` of the decrypting loop is the mode's inverse step. -/
theorem streamBlockDecrypt_eq (ks : List api.KeySchedule) (mod : Mode) (ch : Chain) (b : Block) :
    (streamBlockDecrypt api ks mod ch b).2
        = (decStep (edeEncrypt api ks) (edeDecrypt api ks) mod (ch.cur mod) b).2 ∧
      (streamBlockDecrypt api ks mod ch b).1.cur mod
        = (decStep (edeEncrypt api ks) (edeDecrypt api ks) mod (ch.cur mod) b).1 := by
  cases mod <;> exact ⟨rfl, rfl⟩

/-! ## Reading blocks -/

theorem atLastBlock_last {inp : IStream} (h : inp.Good) (hr : inp.rest = []) :
    (atLastBlock inp).1 = true := by
  obtain ⟨s', hread, hfail, -⟩ := IStream.read_short h (n := 1) (by simp [hr])
  simp [atLastBlock, hread, IStream.ok, hfail]

theorem atLastBlock_more {inp : IStream} (h : inp.Good) (hr : inp.rest ≠ []) :
    atLastBlock inp = (false, inp) := by
  obtain ⟨x, xs, hx⟩ := List.exists_cons_of_ne_nil hr
  obtain ⟨hseek, hfail⟩ := IStream.read_seekBack h hx
  simp [atLastBlock, IStream.ok, hfail, hseek]

/-- A whole block read from a stream that has one. -/
theorem read_block {inp : IStream} (h : inp.Good) {b : Block} {rest : Bytes}
    (hr : inp.rest = b.val ++ rest) :
    ∃ inp', inp.read 8 = (inp', b.val) ∧ inp'.Good ∧ inp'.rest = rest ∧ inp'.data = inp.data := by
  have hread := IStream.read_full h hr
  rwa [b.property] at hread

theorem readBlock_short {got : Bytes} (h : got.length < 8) : readBlock got 0 = none :=
  dif_neg (by omega)

/-! ## Encryption -/

/-- **The encrypting loop** writes the mode's run over the padded
message. -/
theorem encryptStreamLoop_eq (ks : List api.KeySchedule) (rnd : Nat → UInt8) (mod : Mode)
    {pad : Padding} {tail : Bytes} (ht : TailOk tail pad) (bs : List Block) :
    ∀ {inp : IStream} {out : OStream} (ch : Chain) (fuel : Nat), inp.Good → out.Open →
      inp.rest = bytes bs ++ tail → inp.rest ≠ [] → inp.rest.length < fuel →
      ∃ o, encryptStreamLoop api ks rnd mod pad fuel inp out ch = some (.ok, o) ∧
        o.written = out.written
          ++ bytes (run (encStep (edeEncrypt api ks) mod) (ch.cur mod)
              (paddedBlocks rnd bs tail pad)) := by
  induction bs with
  | nil =>
    intro inp out ch fuel hg ho hr hne hf
    obtain ⟨f, rfl⟩ : ∃ f, fuel = f + 1 := ⟨fuel - 1, by omega⟩
    rw [bytes_nil, List.nil_append] at hr
    have ht8 := ht.1
    obtain ⟨inp', hread, -, -⟩ := IStream.read_short hg (n := 8) (by rw [hr]; exact ht8)
    rw [hr] at hread hne
    have hlen : tail.length ≠ 0 := fun h => hne (List.length_eq_zero_iff.mp h)
    obtain ⟨hp, hneed⟩ : pad ≠ .noPadding ∧ isNeedPadding pad = true := by
      rcases need_cases ht with ⟨-, h0⟩ | h
      · exact absurd h0 hne
      · exact h
    obtain ⟨hb, -⟩ := streamBlockEncrypt_eq ks mod ch (paddingBlock rnd tail pad)
    refine ⟨_, by simp [encryptStreamLoop, hread, hlen, readBlock_short ht8, hp]; rfl, ?_⟩
    rw [(OStream.write_open ho _).2, hb]
    simp [paddedBlocks, hneed, run]
  | cons b bs ih =>
    intro inp out ch fuel hg ho hr hne hf
    obtain ⟨f, rfl⟩ : ∃ f, fuel = f + 1 := ⟨fuel - 1, by omega⟩
    rw [bytes_cons, List.append_assoc] at hr
    obtain ⟨inp', hread, hg', hr', -⟩ := read_block hg hr
    obtain ⟨hb, hch⟩ := streamBlockEncrypt_eq ks mod ch b
    obtain ⟨ho', hw'⟩ := OStream.write_open ho (streamBlockEncrypt api ks mod ch b).2.val
    have hb8 : b.val.length ≠ 0 := by rw [b.property]; omega
    have hpad : paddedBlocks rnd (b :: bs) tail pad = b :: paddedBlocks rnd bs tail pad := by
      unfold paddedBlocks; split <;> rfl
    rw [hpad, run, ← hb, ← hch, bytes_cons]
    by_cases hrest : inp'.rest = []
    · -- the peek finds nothing: this was the last block
      have hlast := atLastBlock_last hg' hrest
      rw [hr'] at hrest
      obtain ⟨hbs, htail⟩ := List.append_eq_nil_iff.mp hrest
      have hbs0 : bs = [] := by
        have := congrArg List.length hbs
        simp only [length_bytes, List.length_nil] at this
        exact List.length_eq_zero_iff.mp (by omega)
      subst hbs0 htail
      rcases need_cases ht with ⟨rfl, -⟩ | ⟨hp, hneed⟩
      · refine ⟨_, by simp [encryptStreamLoop, hread, b.property, readBlock_val, hlast]; rfl, ?_⟩
        rw [hw']
        simp [paddedBlocks, isNeedPadding]
      · obtain ⟨hb2, -⟩ := streamBlockEncrypt_eq ks mod (streamBlockEncrypt api ks mod ch b).1
          (paddingBlock rnd [] pad)
        refine ⟨_, by
          simp [encryptStreamLoop, hread, b.property, readBlock_val, hlast, hp]; rfl, ?_⟩
        rw [(OStream.write_open ho' _).2, hw', hb2]
        simp [paddedBlocks, hneed, run]
    · have hmore := atLastBlock_more hg' hrest
      have hlen : inp.rest.length = 8 + inp'.rest.length := by
        rw [hr, List.length_append, b.property, hr']
      obtain ⟨o, hloop, hwritten⟩ := ih (streamBlockEncrypt api ks mod ch b).1 f hg' ho'
        hr' hrest (by omega)
      refine ⟨o, by simp [encryptStreamLoop, hread, b.property, readBlock_val, hmore, hloop], ?_⟩
      rw [hwritten, hw', List.append_assoc]

/-- Padding draws no random byte unless it is ISO 10126. -/
theorem paddedBlocks_rnd (rnd rnd' : Nat → UInt8) (bs : List Block) {tail : Bytes}
    (ht : tail.length < 8) {pad : Padding} (hp : pad ≠ .iso10126) :
    paddedBlocks rnd bs tail pad = paddedBlocks rnd' bs tail pad := by
  have hblock : paddingBlock rnd tail pad = paddingBlock rnd' tail pad := by
    apply Block.ext
    rw [paddingBlock_val rnd ht, paddingBlock_val rnd' ht]
    cases pad <;> first | rfl | exact absurd rfl hp
  rw [paddedBlocks, paddedBlocks, hblock]

/-- What is left of a good stream is no longer than what it holds. -/
theorem length_rest_le (inp : IStream) : inp.rest.length ≤ inp.data.length := by
  simp [IStream.rest]

/-- **Stream encryption is buffer encryption.** For every mode, valid key
and iv, accepted plaintext and padding without random bytes, the stream
overload appends to its output exactly the bytes the buffer overload
writes, and both are ok. -/
theorem encryptStream_eq_encrypt (rnd rnd' : Nat → UInt8) {dst src key : Bytes} (n : Nat)
    {mod : Mode} {pad : Padding} {iv : Option Bytes} {inp : IStream} {out : OStream}
    (hkey : isKeyValid (some key) = true) (hiv : isIvValid mod iv = true)
    (hplain : isPlainValid (some src) pad = true) (hpad : pad ≠ .iso10126)
    (hdst : encryptLenReserve src.length ≤ dst.length)
    (hinp : inp.Good) (hsrc : inp.rest = src) (hout : out.Open) :
    ∃ r o, encrypt api rnd (some dst) n (some src) (some key) mod pad iv = some r ∧
      encryptStream api rnd' out inp (some key) mod pad iv = some (.ok, o) ∧
      r.code = .ok ∧ r.out.length = r.dstLen ∧ o.written = out.written ++ r.out := by
  obtain ⟨ks, hks⟩ := exists_multipleKey api key
  obtain ⟨bs, tail, hcut, ht⟩ := exists_tailOk hplain
  have hne : inp.rest ≠ [] := by
    intro h0
    simp [isPlainValid, ← hsrc, h0] at hplain
  obtain ⟨o, hloop, hwritten⟩ := encryptStreamLoop_eq ks rnd' mod ht bs (chainOf iv)
    (inp.data.length + 1) hinp hout (hsrc.trans hcut) hne
    (by have := length_rest_le inp; omega)
  refine ⟨_, o, encrypt_eq rnd n hkey hks hiv hplain hcut ht hdst, ?_, rfl, ?_, ?_⟩
  · simp [encryptStream, IStream.ok, OStream.ok, hinp.fail, hout.fail, hkey, hiv, hks, hloop]
  · rw [encResult_out]; simp [encResult]
  · rw [encResult_out, hwritten, chainOf_cur, paddedBlocks_rnd rnd rnd' bs ht.1 hpad]

/-- Eight bytes and a padding block, both ways. -/
theorem encryptStream_eq_encrypt_ecb_pkcs7 :
    ∃ r o, encrypt sampleDes (fun _ => 0) (some (List.replicate 16 0)) 16
        (some [0x01, 0x23, 0x45, 0x67, 0x89, 0xab, 0xcd, 0xef]) (some sampleKey) .ecb .pkcs7 none
          = some r ∧
      encryptStream sampleDes (fun _ => 1) OStream.empty
        (IStream.ofBytes [0x01, 0x23, 0x45, 0x67, 0x89, 0xab, 0xcd, 0xef]) (some sampleKey)
        .ecb .pkcs7 none = some (.ok, o) ∧
      r.code = .ok ∧ r.out.length = r.dstLen ∧ o.written = r.out :=
  encryptStream_eq_encrypt (fun _ => 0) (fun _ => 1) 16 (by decide) (by decide) (by decide)
    (by decide) (by decide) (IStream.good_ofBytes _) rfl OStream.open_empty

/-! ## Decryption -/

/-- Unpadding one decrypted block. -/
theorem unpaddingBlock_block (b : Block) (pad : Padding) :
    ∃ buf len, unpaddingBlock b.val 8 pad = some (buf, len) ∧ buf.take len = unpad pad b.val := by
  have h8 : 8 ≤ b.val.length := by rw [b.property]
  have hlt : b.val.length < 2 ^ 31 := by rw [b.property]; norm_num
  obtain ⟨buf, len, hun, -, htake⟩ := unpaddingBlock_eq [] h8 hlt pad
  rw [List.append_nil, b.property] at hun
  exact ⟨buf, len, hun, htake⟩

/-- The bytes of the block held back. -/
def held (prev : Option Block) : Bytes := (prev.map Block.val).getD []

theorem writePrev_open {out : OStream} (h : out.Open) (prev : Option Block) :
    (writePrev out prev).Open ∧ (writePrev out prev).written = out.written ++ held prev := by
  cases prev with
  | none => exact ⟨h, by simp [held, writePrev]⟩
  | some b => exact OStream.write_open h b.val

/-- **The decrypting loop** writes the held block and the decrypted
blocks, the last one unpadded by itself. -/
theorem decryptStreamLoop_eq (ks : List api.KeySchedule) (mod : Mode) (pad : Padding)
    (cs : List Block) :
    ∀ (c : Block) {inp : IStream} {out : OStream} (ch : Chain) (prev : Option Block) (fuel : Nat),
      inp.Good → out.Open → inp.rest = bytes (c :: cs) → inp.rest.length < fuel →
      ∃ o init last, decryptStreamLoop api ks mod pad fuel inp out ch prev = some (.ok, o) ∧
        run (decStep (edeEncrypt api ks) (edeDecrypt api ks) mod) (ch.cur mod) (c :: cs)
          = init ++ [last] ∧
        o.written = out.written ++ held prev ++ bytes init ++ unpad pad last.val := by
  induction cs with
  | nil =>
    intro c inp out ch prev fuel hg ho hr hf
    obtain ⟨f, rfl⟩ : ∃ f, fuel = f + 1 := ⟨fuel - 1, by omega⟩
    rw [bytes_cons] at hr
    obtain ⟨inp', hread, hg', hr', -⟩ := read_block hg hr
    have hlast := atLastBlock_last hg' hr'
    obtain ⟨hb, -⟩ := streamBlockDecrypt_eq ks mod ch c
    obtain ⟨ho', hw'⟩ := writePrev_open ho prev
    obtain ⟨buf, len, hun, htake⟩ :=
      unpaddingBlock_block (streamBlockDecrypt api ks mod ch c).2 pad
    by_cases hp : pad = .noPadding
    · refine ⟨_, [], (streamBlockDecrypt api ks mod ch c).2, by
        simp [decryptStreamLoop, IStream.ok, hg.fail, hread, c.property, readBlock_val, hlast, hp]
        rfl, by rw [run, run, hb]; rfl, ?_⟩
      rw [(OStream.write_open ho' _).2, hw', hp]
      simp [unpad]
    · refine ⟨_, [], (streamBlockDecrypt api ks mod ch c).2, by
        simp [decryptStreamLoop, IStream.ok, hg.fail, hread, c.property, readBlock_val, hlast, hp,
          hun]
        rfl, by rw [run, run, hb]; rfl, ?_⟩
      rw [(OStream.write_open ho' _).2, hw', htake]
      simp
  | cons c' cs ih =>
    intro c inp out ch prev fuel hg ho hr hf
    obtain ⟨f, rfl⟩ : ∃ f, fuel = f + 1 := ⟨fuel - 1, by omega⟩
    rw [bytes_cons] at hr
    obtain ⟨inp', hread, hg', hr', -⟩ := read_block hg hr
    obtain ⟨hb, hch⟩ := streamBlockDecrypt_eq ks mod ch c
    obtain ⟨ho', hw'⟩ := writePrev_open ho prev
    have hlen : inp.rest.length = 8 + inp'.rest.length := by
      rw [hr, hr', List.length_append, c.property]
    have hrest : inp'.rest ≠ [] := by
      intro h0
      have hl := congrArg List.length (hr'.symm.trans h0)
      rw [length_bytes, List.length_cons, List.length_nil] at hl
      omega
    have hmore := atLastBlock_more hg' hrest
    obtain ⟨o, init, last, hloop, hrun, hwritten⟩ :=
      ih c' (streamBlockDecrypt api ks mod ch c).1 (some (streamBlockDecrypt api ks mod ch c).2) f
        hg' ho' hr' (by omega)
    refine ⟨o, (streamBlockDecrypt api ks mod ch c).2 :: init, last, ?_, ?_, ?_⟩
    · simp only [decryptStreamLoop, IStream.ok, hg.fail, hread, c.property, readBlock_val, hmore]
      simpa using hloop
    · rw [run, ← hb, ← hch, hrun, List.cons_append]
    · rw [hwritten, hw']
      simp [held]

/-! ## Stream and buffer decryption compared -/

/-- `c` is the encryption of the whole blocks `p`, with no padding. -/
def EncryptsTo (api : DesApi) (key : Bytes) (mod : Mode) (iv : Option Bytes) (p c : Bytes) : Prop :=
  ∃ r, encrypt api (fun _ => 0) (some (List.replicate (encryptLenReserve p.length) 0)) 0 (some p)
      (some key) mod .noPadding iv = some r ∧ r.code = .ok ∧ r.out = c

/-- The two overloads of `decrypt` give the same code and the same
bytes. -/
def DecryptsAlike (api : DesApi) (dst : Bytes) (n : Nat) (out : OStream) (inp : IStream)
    (key : Bytes) (mod : Mode) (pad : Padding) (iv : Option Bytes) : Prop :=
  ∃ r o, decrypt api (some dst) n inp.rest (some key) mod pad iv = some r ∧
    decryptStream api out inp (some key) mod pad iv = some (r.code, o) ∧
    r.dstLen ≤ r.dst.length ∧ o.written = out.written ++ r.out

theorem exists_bytes {c : Bytes} (h : c.length % 8 = 0) : ∃ cs, c = bytes cs := by
  obtain ⟨cs, tail, heq, ht⟩ := exists_blocks c.length c (Nat.le_refl _)
  have hlen := length_src heq
  have htail : tail = [] := List.length_eq_zero_iff.mp (by omega)
  exact ⟨cs, by rw [heq, htail, List.append_nil]⟩

/-- Encryption without padding is the mode's run. -/
theorem encryptsTo_iff {key : Bytes} {mod : Mode} {iv : Option Bytes} {ks : List api.KeySchedule}
    (hkey : isKeyValid (some key) = true) (hks : multipleKey api key = some ks)
    (hiv : isIvValid mod iv = true) {ps : List Block} (hne : ps ≠ []) (c : Bytes) :
    EncryptsTo api key mod iv (bytes ps) c ↔
      c = bytes (run (encStep (edeEncrypt api ks) mod) (chainOf iv).iv ps) := by
  have hplain : isPlainValid (some (bytes ps)) .noPadding = true := by
    simp [isPlainValid, hne]
  have henc := encrypt_eq (fun _ => 0) 0 hkey hks hiv hplain (List.append_nil _).symm
    ⟨by simp, fun _ => rfl⟩
    (List.length_replicate (n := encryptLenReserve (bytes ps).length) (a := (0 : UInt8))).ge
  unfold EncryptsTo
  rw [henc]
  constructor
  · rintro ⟨r, hr, -, rfl⟩
    rw [← Option.some.inj hr, encResult_out]
    rfl
  · rintro rfl
    exact ⟨_, rfl, rfl, encResult_out _ _ _ _⟩

/-- Nothing encrypts the empty string. -/
theorem ne_nil_of_encryptsTo {key : Bytes} {mod : Mode} {iv : Option Bytes}
    (hkey : isKeyValid (some key) = true) (hiv : isIvValid mod iv = true) {ps : List Block}
    {c : Bytes} (h : EncryptsTo api key mod iv (bytes ps) c) : ps ≠ [] := by
  rintro rfl
  obtain ⟨r, hr, hok, -⟩ := h
  simp only [encrypt, hkey, hiv, isPlainValid] at hr
  simp at hr
  rw [← hr] at hok
  cases hok

/-- **Stream and buffer decryption.** Every ciphertext of whole blocks is
the unpadded encryption of a plaintext, and the two overloads agree on it
exactly when the padding of that plaintext does not straddle its last
block. -/
theorem decryptsAlike_iff (h : api.Inverse) {dst key : Bytes} (n : Nat) {mod : Mode}
    (pad : Padding) {iv : Option Bytes} {inp : IStream} {out : OStream}
    (hkey : isKeyValid (some key) = true) (hiv : isIvValid mod iv = true) (hinp : inp.Good)
    (hmod : inp.rest.length % 8 = 0) (hpos : 0 < inp.rest.length)
    (hlen : inp.rest.length < 2 ^ 31) (hout : out.Open)
    (hdst : decryptLenReserve inp.rest.length ≤ dst.length) :
    (∃ p, p.length % 8 = 0 ∧ EncryptsTo api key mod iv p inp.rest) ∧
      ∀ p, p.length % 8 = 0 → EncryptsTo api key mod iv p inp.rest →
        (DecryptsAlike api dst n out inp key mod pad iv ↔ ¬ PaddingStraddles pad p) := by
  obtain ⟨ks, hks⟩ := exists_multipleKey api key
  obtain ⟨cs, hcs⟩ := exists_bytes hmod
  have hlcs : inp.rest.length = 8 * cs.length := by rw [hcs, length_bytes]
  obtain ⟨c, cs', rfl⟩ : ∃ c cs', cs = c :: cs' := by
    apply List.exists_cons_of_ne_nil
    rintro rfl
    rw [List.length_nil] at hlcs
    omega
  obtain ⟨o, init, last, hloop, hrun, hwritten⟩ := decryptStreamLoop_eq ks mod pad cs' c
    (chainOf iv) none (inp.data.length + 1) hinp hout hcs
    (by have := length_rest_le inp; omega)
  rw [chainOf_cur] at hrun
  have hback := run_inverse (step_undoes' (edeEncrypt_edeDecrypt h ks) mod) (chainOf iv).iv
    (c :: cs')
  rw [hrun] at hback
  refine ⟨⟨bytes (init ++ [last]), by rw [length_bytes]; omega, ?_⟩, fun p hp8 hp => ?_⟩
  · rw [encryptsTo_iff hkey hks hiv (by simp), hback, hcs]
  -- the plaintext is the one the decrypting run gives
  obtain ⟨ps, rfl⟩ := exists_bytes hp8
  have hps : ps = init ++ [last] := by
    rw [encryptsTo_iff hkey hks hiv (ne_nil_of_encryptsTo hkey hiv hp), hcs] at hp
    have hdec := run_inverse (step_undoes (edeDecrypt_edeEncrypt h ks) mod) (chainOf iv).iv ps
    rw [← bytes_injective hp, hrun] at hdec
    exact hdec.symm
  have hlen' : (init ++ [last]).length = (c :: cs').length := by rw [← hrun, length_run]
  have h8 : 8 ≤ (bytes (init ++ [last])).length := by rw [length_bytes, hlen']; omega
  have hlt : (bytes (init ++ [last])).length < 2 ^ 31 := by rw [length_bytes, hlen']; omega
  obtain ⟨buf, len, hun, hle, htake⟩ := unpaddingBlock_eq
    (dst.drop (8 * (init ++ [last]).length)) h8 hlt pad
  rw [length_bytes, hlen'] at hun
  have hbuf : decrypt api (some dst) n inp.rest (some key) mod pad iv = some ⟨.ok, buf, len⟩ := by
    rw [hcs, decrypt_eq n pad hkey hks hiv (by simp only [decryptLenReserve] at hdst; omega), hrun,
      wrote, hlen', hun]
    rfl
  have hstream : decryptStream api out inp (some key) mod pad iv = some (.ok, o) := by
    simp [decryptStream, IStream.ok, OStream.ok, hinp.fail, hout.fail, hkey, hiv, hks, hloop]
  have hout' : o.written = out.written ++ (bytes init ++ unpad pad last.val) := by
    rw [hwritten]; simp [held]
  have hsplit : bytes (init ++ [last]) = bytes init ++ last.val := by simp
  rw [hsplit] at htake
  rw [hps, hsplit, ← unpad_split_iff last.property pad, ← htake]
  constructor
  · rintro ⟨r, o', hr, ho', -, hw⟩
    rw [hbuf] at hr
    obtain rfl := Option.some.inj hr
    rw [hstream] at ho'
    obtain ⟨-, rfl⟩ := Prod.mk.inj (Option.some.inj ho')
    rw [hout'] at hw
    exact (List.append_cancel_left hw).symm
  · intro heq
    exact ⟨_, o, hbuf, hstream, hle, by rw [hout', ← heq]; rfl⟩

/-- Sixteen zero bytes in electronic codebook mode, encrypted. -/
def zeroCipher : Bytes :=
  [0x94, 0x8a, 0x43, 0xf9, 0x8a, 0x83, 0x4f, 0x7e, 0x94, 0x8a, 0x43, 0xf9, 0x8a, 0x83, 0x4f, 0x7e]

/-- Under zero padding the buffer overload makes the empty string of
them and the stream overload leaves the first eight. -/
theorem not_decryptsAlike_zeroCipher :
    sampleDes.Inverse ∧ isKeyValid (some sampleKey) = true ∧ isIvValid .ecb none = true ∧
      zeroCipher.length = 16 ∧
      ¬ DecryptsAlike sampleDes (List.replicate 24 0) 24 OStream.empty (IStream.ofBytes zeroCipher)
        sampleKey .ecb .zero none := by
  refine ⟨sampleDes_inverse, by decide, by decide, rfl, ?_⟩
  have hbuf : decrypt sampleDes (some (List.replicate 24 0)) 24 zeroCipher (some sampleKey)
      .ecb .zero none = some ⟨.ok, List.replicate 24 0, 0⟩ := by decide
  have hstream : decryptStream sampleDes OStream.empty (IStream.ofBytes zeroCipher)
      (some sampleKey) .ecb .zero none
        = some (.ok, ⟨List.replicate 8 0, none, false⟩) := by decide
  rintro ⟨r, o, hr, ho, -, hw⟩
  have hrest : (IStream.ofBytes zeroCipher).rest = zeroCipher := rfl
  rw [hrest, hbuf] at hr
  obtain rfl := Option.some.inj hr
  rw [hstream] at ho
  obtain ⟨-, rfl⟩ := Prod.mk.inj (Option.some.inj ho)
  exact absurd hw (by decide)

/-- The same ciphertext under PKCS#7 padding: no message straddles, and
the overloads agree. -/
theorem decryptsAlike_iff_zeroCipher :
    (∃ p, p.length % 8 = 0 ∧ EncryptsTo sampleDes sampleKey .ecb none p zeroCipher) ∧
      ∀ p, p.length % 8 = 0 → EncryptsTo sampleDes sampleKey .ecb none p zeroCipher →
        (DecryptsAlike sampleDes (List.replicate 24 0) 24 OStream.empty
          (IStream.ofBytes zeroCipher) sampleKey .ecb .pkcs7 none ↔ ¬ PaddingStraddles .pkcs7 p) :=
  decryptsAlike_iff sampleDes_inverse 24 .pkcs7 (by decide) (by decide) (IStream.good_ofBytes _)
    (by decide) (by decide) (by decide) OStream.open_empty (by decide)

end HighJump.Crypto.Des
