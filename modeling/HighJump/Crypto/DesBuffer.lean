/-
HighJump.Crypto.DesBuffer — what the buffer overloads of `hj::des`
compute: the textbook mode over the padded message.

Each mode body is proved equal to one thing, `run` of the mode's step
(`Lib/BlockModes`) over the message cut into blocks. `loop_blocks` does
the work once for all ten bodies: a loop that at its j-th turn takes the
j-th block through the step and writes the result at byte `8 * j` ends
with the whole run written and the destination's tail untouched. The
bodies differ in where they find the block and in whether they count
bytes or blocks, and that is all their own lemmas are about.

The message is cut as `bytes bs ++ tail` with `tail` shorter than a
block; `paddedBlocks` is what encryption makes of it.
-/
import HighJump.Crypto.Des
import HighJump.Lib.BlockModes

namespace HighJump.Crypto.Des

open HighJump.Lib HighJump.Lib.BlockModes

/-! ## The cascade -/

theorem Block.xor_xor_cancel (a k : Block) : (a.xor k).xor k = a := by
  apply Block.ext
  obtain ⟨a, ha⟩ := a
  obtain ⟨k, hk⟩ := k
  apply List.ext_getElem
  · simp [Block.xor, ha, hk]
  · intro i h1 h2
    simp only [Block.xor, List.getElem_zipWith, UInt8.xor_assoc, UInt8.xor_self, UInt8.xor_zero]

variable {api : DesApi}

/-- The direction `_ede_encrypt` takes under the i-th key is undone by the
one `_ede_decrypt` takes. -/
theorem dir_inverse (h : api.Inverse) (ki : api.KeySchedule × Nat) (b : Block) :
    api.ecbEncrypt ki.1 (if ki.2 % 2 = 0 then .decrypt else .encrypt)
      (api.ecbEncrypt ki.1 (if ki.2 % 2 = 0 then .encrypt else .decrypt) b) = b := by
  by_cases hn : ki.2 % 2 = 0
  · simp [hn, h.dec_enc]
  · simp [hn, h.enc_dec]

theorem dir_inverse' (h : api.Inverse) (ki : api.KeySchedule × Nat) (b : Block) :
    api.ecbEncrypt ki.1 (if ki.2 % 2 = 0 then .encrypt else .decrypt)
      (api.ecbEncrypt ki.1 (if ki.2 % 2 = 0 then .decrypt else .encrypt) b) = b := by
  by_cases hn : ki.2 % 2 = 0
  · simp [hn, h.enc_dec]
  · simp [hn, h.dec_enc]

/-- `_ede_decrypt` undoes `_ede_encrypt` under every key list. -/
theorem edeDecrypt_edeEncrypt (h : api.Inverse) (ks : List api.KeySchedule) (b : Block) :
    edeDecrypt api ks (edeEncrypt api ks b) = b := by
  match ks with
  | [] => rfl
  | [k0] => simp [edeEncrypt, edeDecrypt, h.dec_enc]
  | [k0, k1] => simp [edeEncrypt, edeDecrypt, h.dec_enc, h.enc_dec]
  | [k0, k1, k2] => simp [edeEncrypt, edeDecrypt, h.dec_enc, h.enc_dec]
  | k0 :: k1 :: k2 :: k3 :: rest =>
    simp only [edeEncrypt, edeDecrypt]
    exact cascade_inverse (dir_inverse h) _ b

/-- And `_ede_encrypt` undoes `_ede_decrypt`. -/
theorem edeEncrypt_edeDecrypt (h : api.Inverse) (ks : List api.KeySchedule) (b : Block) :
    edeEncrypt api ks (edeDecrypt api ks b) = b := by
  match ks with
  | [] => rfl
  | [k0] => simp [edeEncrypt, edeDecrypt, h.enc_dec]
  | [k0, k1] => simp [edeEncrypt, edeDecrypt, h.dec_enc, h.enc_dec]
  | [k0, k1, k2] => simp [edeEncrypt, edeDecrypt, h.dec_enc, h.enc_dec]
  | k0 :: k1 :: k2 :: k3 :: rest =>
    simp only [edeEncrypt, edeDecrypt]
    have hc := cascade_inverse (dir_inverse' h) (k0 :: k1 :: k2 :: k3 :: rest).zipIdx.reverse b
    rwa [List.reverse_reverse] at hc

/-! ## Blocks and bytes -/

/-- The bytes of a list of blocks. -/
def bytes (bs : List Block) : Bytes := bs.flatMap Block.val

@[simp] theorem bytes_nil : bytes [] = [] := rfl

@[simp] theorem bytes_cons (b : Block) (bs : List Block) : bytes (b :: bs) = b.val ++ bytes bs :=
  rfl

@[simp] theorem bytes_append (bs cs : List Block) : bytes (bs ++ cs) = bytes bs ++ bytes cs := by
  simp [bytes]

@[simp] theorem length_bytes (bs : List Block) : (bytes bs).length = 8 * bs.length := by
  induction bs with
  | nil => rfl
  | cons b bs ih => rw [bytes_cons, List.length_append, ih, b.property, List.length_cons]; omega

theorem bytes_injective {bs cs : List Block} (h : bytes bs = bytes cs) : bs = cs := by
  induction bs generalizing cs with
  | nil =>
    have hlen := congrArg List.length h
    simp only [length_bytes, List.length_nil] at hlen
    exact (List.length_eq_zero_iff.mp (by omega)).symm
  | cons b bs ih =>
    cases cs with
    | nil =>
      have hlen := congrArg List.length h
      simp only [length_bytes, List.length_nil, List.length_cons] at hlen
      omega
    | cons c cs =>
      obtain ⟨hb, hbs⟩ := List.append_inj h (b.property.trans c.property.symm)
      rw [Block.ext hb, ih hbs]

/-- Every message is whole blocks and a tail shorter than a block. -/
theorem exists_blocks : ∀ (n : Nat) (l : Bytes), l.length ≤ n →
    ∃ bs tail, l = bytes bs ++ tail ∧ tail.length < 8
  | 0, l, h => ⟨[], l, by simp, by omega⟩
  | n + 1, l, h => by
      by_cases hl : l.length < 8
      · exact ⟨[], l, by simp, hl⟩
      · obtain ⟨bs, tail, heq, ht⟩ := exists_blocks n (l.drop 8) (by simp; omega)
        refine ⟨⟨l.take 8, by simp; omega⟩ :: bs, tail, ?_, ht⟩
        rw [bytes_cons, List.append_assoc, ← heq, List.take_append_drop]

theorem readBlock_append (pre post : Bytes) {m : Bytes} {b : Block} {idx : Nat}
    (hm : m = pre ++ b.val ++ post) (hi : idx = pre.length) : readBlock m idx = some b := by
  subst hm hi
  have hlen : pre.length + 8 ≤ (pre ++ b.val ++ post).length := by
    simp only [List.length_append, b.property]; omega
  simp only [readBlock, hlen, dite_true, Option.some.injEq]
  apply Block.ext
  simp only [List.append_assoc, List.drop_left]
  exact List.take_left' b.property

theorem readBlock_val (b : Block) : readBlock b.val 0 = some b :=
  readBlock_append [] [] (by simp) rfl

/-- The j-th block of a message is read at byte `8 * j`. -/
theorem readBlock_bytes {bs : List Block} {tail m : Bytes} {j : Nat} {b : Block}
    (hm : m = bytes bs ++ tail) (hj : bs[j]? = some b) : readBlock m (8 * j) = some b := by
  obtain ⟨hlt, hb⟩ := List.getElem?_eq_some_iff.mp hj
  have hsplit : bs = bs.take j ++ b :: bs.drop (j + 1) := by
    rw [← hb, List.getElem_cons_drop, List.take_append_drop]
  apply readBlock_append (bytes (bs.take j)) (bytes (bs.drop (j + 1)) ++ tail)
  · rw [hm]
    conv => lhs; rw [hsplit]
    simp
  · simp; omega

theorem readBlock_self {cs : List Block} {j : Nat} {b : Block} (hj : cs[j]? = some b) :
    readBlock (bytes cs) (8 * j) = some b :=
  readBlock_bytes (List.append_nil _).symm hj

/-- A block written at the end of a finished prefix. -/
theorem writeBlock_append {pre rest : Bytes} {b : Block} {idx : Nat} (hi : idx = pre.length)
    (h : 8 ≤ rest.length) :
    writeBlock (pre ++ rest) idx b = some (pre ++ b.val ++ rest.drop 8) := by
  have hb : b.val.length = 8 := b.property
  rw [writeBlock, writeN_append' rfl hi (by omega), hb]

/-! ## The loop every mode body is -/

section LoopBlocks

variable {σ : Type} {guard : σ → Bool} {body : σ → Option σ}
  (step : Block → Block → Block × Block) (mk : Nat → Bytes → Block → σ) (at_ : Nat → Nat)
  (bs : List Block) (dst : Bytes) (iv : Block)

/-- The loop state after the j-th turn. -/
def afterBlocks (j : Nat) : σ :=
  mk (at_ j) (bytes (run step iv (bs.take j)) ++ dst.drop (8 * j)) (final step iv (bs.take j))

variable (hcap : 8 * bs.length ≤ dst.length)
  (hbody : ∀ j b d d' v, bs[j]? = some b → writeBlock d (8 * j) (step v b).2 = some d' →
    readBlock d' (8 * j) = some (step v b).2 →
    body (mk (at_ j) d v) = some (mk (at_ (j + 1)) d' (step v b).1))

include hcap hbody

/-- One turn of a loop that takes the j-th block through `step` and writes
the result at byte `8 * j`. `mk` packs the loop state, `at_` is the loop
variable's value at turn j. -/
theorem body_afterBlocks {j : Nat} (hlt : j < bs.length) :
    body (afterBlocks step mk at_ bs dst iv j) = some (afterBlocks step mk at_ bs dst iv (j + 1)) := by
  have hget : bs[j]? = some bs[j] := List.getElem?_eq_getElem hlt
  have htake : bs.take (j + 1) = bs.take j ++ [bs[j]] := by
    rw [List.take_succ_eq_append_getElem hlt]
  have hlen : (bytes (run step iv (bs.take j))).length = 8 * j := by
    simp; omega
  have hrest : 8 ≤ (dst.drop (8 * j)).length := by simp; omega
  have hw := writeBlock_append (b := (step (final step iv (bs.take j)) bs[j]).2)
    hlen.symm hrest
  have hr := readBlock_append (b := (step (final step iv (bs.take j)) bs[j]).2)
    (bytes (run step iv (bs.take j))) ((dst.drop (8 * j)).drop 8) rfl hlen.symm
  have hdrop : (dst.drop (8 * j)).drop 8 = dst.drop (8 * (j + 1)) := by
    rw [List.drop_drop]; congr 1
  rw [afterBlocks, hbody j _ _ _ _ hget hw hr, afterBlocks, htake, run_append, final_append, hdrop]
  simp [run, final]

variable (guard) in
/-- All blocks, while the loop goes on. -/
theorem loop_afterBlocks (hguard : ∀ j d v, j < bs.length → guard (mk (at_ j) d v) = true)
    (fuel : Nat) : ∀ k j, j + k = bs.length →
    loop guard body (k + fuel) (afterBlocks step mk at_ bs dst iv j) =
      loop guard body fuel (afterBlocks step mk at_ bs dst iv bs.length) := by
  intro k
  induction k with
  | zero =>
    intro j hj
    rw [Nat.zero_add, show j = bs.length by omega]
  | succ k ih =>
    intro j hj
    rw [show k + 1 + fuel = k + fuel + 1 by omega, loop,
      body_afterBlocks step mk at_ bs dst iv hcap hbody (by omega), afterBlocks,
      hguard j _ _ (by omega), if_pos rfl, Option.bind_some]
    exact ih (j + 1) (by omega)

end LoopBlocks

/-- **The loop over all blocks.** It ends with the whole run written and
the destination's tail untouched. -/
theorem loop_blocks {σ : Type} (guard : σ → Bool) (body : σ → Option σ)
    (step : Block → Block → Block × Block) (mk : Nat → Bytes → Block → σ) (at_ : Nat → Nat)
    (bs : List Block) (dst : Bytes) (iv : Block) (hcap : 8 * bs.length ≤ dst.length)
    (hguard : ∀ j d v, j ≤ bs.length → guard (mk (at_ j) d v) = decide (j < bs.length))
    (hbody : ∀ j b d d' v, bs[j]? = some b → writeBlock d (8 * j) (step v b).2 = some d' →
      readBlock d' (8 * j) = some (step v b).2 →
      body (mk (at_ j) d v) = some (mk (at_ (j + 1)) d' (step v b).1))
    (fuel : Nat) (hfuel : bs.length < fuel) :
    loop guard body fuel (mk (at_ 0) dst iv)
      = some (mk (at_ bs.length) (bytes (run step iv bs) ++ dst.drop (8 * bs.length))
          (final step iv bs)) := by
  obtain ⟨f, rfl⟩ : ∃ f, fuel = bs.length + (f + 1) := ⟨fuel - bs.length - 1, by omega⟩
  have hgo : ∀ j d v, j < bs.length → guard (mk (at_ j) d v) = true := by
    intro j d v hj
    rw [hguard j d v (by omega), decide_eq_true hj]
  have hrun := loop_afterBlocks guard step mk at_ bs dst iv hcap hbody hgo (f + 1) bs.length 0
    (by omega)
  rw [loop] at hrun
  simpa [afterBlocks, hguard] using hrun

/-! ## The mode steps of `hj::des` -/

section Modes

variable (E D : Block → Block)

/-- What a mode does to one block when it encrypts. -/
def encStep : Mode → Block → Block → Block × Block
  | .ecb => ecbEnc E
  | .cbc => cbcEnc E Block.xor
  | .cfb => cfbEnc E Block.xor
  | .ofb => BlockModes.ofb E Block.xor
  | .ctr => BlockModes.ctr E Block.xor incCtr

/-- What a mode does to one block when it decrypts. -/
def decStep : Mode → Block → Block → Block × Block
  | .ecb => ecbDec D
  | .cbc => cbcDec D Block.xor
  | .cfb => cfbDec E Block.xor
  | .ofb => BlockModes.ofb E Block.xor
  | .ctr => BlockModes.ctr E Block.xor incCtr

variable {E D}

theorem step_undoes (h : ∀ b, D (E b) = b) (mod : Mode) :
    Undoes (encStep E mod) (decStep E D mod) := by
  cases mod with
  | ecb => exact ecb_undoes h
  | cbc => exact cbc_undoes h Block.xor_xor_cancel
  | cfb => exact cfb_undoes Block.xor_xor_cancel
  | ofb => exact ofb_undoes Block.xor_xor_cancel
  | ctr => exact ctr_undoes _ Block.xor_xor_cancel

theorem step_undoes' (h : ∀ b, E (D b) = b) (mod : Mode) :
    Undoes (decStep E D mod) (encStep E mod) := by
  cases mod with
  | ecb => exact ecb_undoes h
  | cbc => exact cbcDec_undoes h Block.xor_xor_cancel
  | cfb => exact cfbDec_undoes Block.xor_xor_cancel
  | ofb => exact ofb_undoes Block.xor_xor_cancel
  | ctr => exact ctr_undoes _ Block.xor_xor_cancel

end Modes

/-- The blocks encryption makes of a message: its whole blocks, then the
tail padded to a block unless no padding is asked for. -/
def paddedBlocks (rnd : Nat → UInt8) (bs : List Block) (tail : Bytes) (pad : Padding) :
    List Block :=
  if isNeedPadding pad then bs ++ [paddingBlock rnd tail pad] else bs

/-! ## The encryption bodies -/

/-- What a buffer overload leaves behind when it wrote `cs`. -/
def wrote (dst : Bytes) (cs : List Block) : Bytes := bytes cs ++ dst.drop (8 * cs.length)

/-- The result of encrypting `bs` under a mode step. -/
def encResult (step : Block → Block → Block × Block) (iv : Block) (dst : Bytes)
    (bs : List Block) : Result :=
  ⟨.ok, wrote dst (run step iv bs), 8 * bs.length⟩

/-- One more block after a finished run. -/
theorem writeBlock_wrote (step : Block → Block → Block × Block) (iv : Block) (bs : List Block)
    (p : Block) {dst : Bytes} (hcap : 8 * bs.length + 8 ≤ dst.length) :
    writeBlock (wrote dst (run step iv bs)) (8 * bs.length) (step (final step iv bs) p).2
      = some (wrote dst (run step iv (bs ++ [p]))) := by
  rw [wrote, writeBlock_append (by simp) (by simp; omega)]
  simp only [wrote, run_append, run, bytes_append, bytes_cons, bytes_nil, List.append_nil,
    List.length_append, length_run, List.length_singleton, List.drop_drop]
  rw [Nat.mul_add]

/-- Without padding nothing follows the whole blocks. -/
theorem encResult_unpadded (rnd : Nat → UInt8) (step : Block → Block → Block × Block) (iv : Block)
    (bs : List Block) (dst : Bytes) :
    encResult step iv dst (paddedBlocks rnd bs [] .noPadding) =
      ⟨.ok, bytes (run step iv bs) ++ dst.drop (8 * bs.length), 8 * bs.length⟩ := by
  rw [paddedBlocks, isNeedPadding, if_neg Bool.false_ne_true, encResult, wrote, length_run]

/-- With padding the last block is written behind them. -/
theorem encResult_padded (rnd : Nat → UInt8) (step : Block → Block → Block × Block) (iv : Block)
    {bs : List Block} {dst : Bytes} (hcap : 8 * bs.length + 8 ≤ dst.length) (tail : Bytes)
    {pad : Padding} (hneed : isNeedPadding pad = true) :
    (writeBlock (bytes (run step iv bs) ++ dst.drop (8 * bs.length)) (8 * bs.length)
        (step (final step iv bs) (paddingBlock rnd tail pad)).2).bind
        (fun dst => some (⟨.ok, dst, 8 * bs.length + 8⟩ : Result)) =
      some (encResult step iv dst (paddedBlocks rnd bs tail pad)) := by
  have hwrote := writeBlock_wrote step iv bs (paddingBlock rnd tail pad) hcap
  rw [wrote, length_run] at hwrote
  rw [hwrote, Option.bind_some, paddedBlocks, if_pos hneed, encResult, List.length_append,
    List.length_singleton, Nat.mul_add]

/-- A message that cannot be padded has no tail. -/
def TailOk (tail : Bytes) (pad : Padding) : Prop :=
  tail.length < 8 ∧ (pad = .noPadding → tail = [])

section Bodies

variable (ks : List api.KeySchedule) (rnd : Nat → UInt8) {src dst tail : Bytes}
  {bs : List Block} {pad : Padding} (hsrc : src = bytes bs ++ tail) (ht : TailOk tail pad)
  (hdst : 8 * bs.length + 8 ≤ dst.length)

include hsrc in
theorem length_src : src.length = 8 * bs.length + tail.length := by
  rw [hsrc, List.length_append, length_bytes]

include hsrc in
theorem readN_tail : readN src (8 * bs.length) tail.length = some tail :=
  readN_append' (bytes bs) [] (by simp [hsrc]) (by simp) rfl

include hsrc in
/-- The feedback modes count blocks and read the tail only if it is
there. -/
theorem remainBytes_tail : remainBytes src (bs.length * 8) tail.length = some tail := by
  unfold remainBytes
  split
  · rw [Nat.mul_comm]; exact readN_tail hsrc
  · rename_i h
    have htail : tail = [] := List.length_eq_zero_iff.mp (by omega)
    rw [htail]

include ht in
theorem need_cases : (pad = .noPadding ∧ tail = []) ∨
    (pad ≠ .noPadding ∧ isNeedPadding pad = true) := by
  by_cases hp : pad = .noPadding
  · exact .inl ⟨hp, ht.2 hp⟩
  · refine .inr ⟨hp, ?_⟩
    cases pad <;> first | rfl | exact absurd rfl hp

include hsrc ht in
theorem ctrPaddedLen_eq :
    ctrPaddedLen src.length pad = 8 * (paddedBlocks rnd bs tail pad).length := by
  have hlen := length_src hsrc
  have ht8 := ht.1
  rcases need_cases ht with ⟨rfl, rfl⟩ | ⟨hp, hneed⟩
  · simp [ctrPaddedLen, paddedBlocks, isNeedPadding, hlen]
  · simp only [ctrPaddedLen, paddedBlocks, hneed, if_true, List.length_append,
      List.length_singleton]
    split <;> omega

include hsrc ht in
/-- The block the counter body takes at byte `8 * j` is the j-th padded
block. -/
theorem ctrBlock_eq {j : Nat} {b : Block} (hj : (paddedBlocks rnd bs tail pad)[j]? = some b) :
    ctrBlock rnd src pad (8 * j) = some b := by
  have hlen := length_src hsrc
  have ht8 := ht.1
  by_cases hlt : j < bs.length
  · have hb : bs[j]? = some b := by
      unfold paddedBlocks at hj
      split at hj
      · rwa [List.getElem?_append_left hlt] at hj
      · exact hj
    rw [ctrBlock, if_pos (by omega), readBlock_bytes hsrc hb]
  · -- past the whole blocks there is only the padded tail
    rcases need_cases ht with ⟨rfl, rfl⟩ | ⟨hp, hneed⟩
    · simp only [paddedBlocks, isNeedPadding, Bool.false_eq_true, if_false] at hj
      rw [List.getElem?_eq_none (by omega)] at hj
      cases hj
    · simp only [paddedBlocks, hneed, if_true] at hj
      rw [List.getElem?_append_right (by omega)] at hj
      obtain ⟨hl1, hb⟩ := List.getElem?_eq_some_iff.mp hj
      have hjeq : j = bs.length := by simp at hl1; omega
      subst hjeq
      simp only [Nat.sub_self, List.getElem_cons_zero] at hb
      have hread := readN_tail hsrc
      have hremain : src.length - 8 * bs.length = tail.length := by omega
      rw [ctrBlock, if_neg (by omega)]
      split
      · rw [hremain, hread, ← hb]; rfl
      · have : tail = [] := List.length_eq_zero_iff.mp (by omega)
        rw [← hb, this]

include hsrc ht hdst

theorem encryptEcb_eq (iv : Block) :
    encryptEcb api ks rnd dst src pad
      = some (encResult (encStep (edeEncrypt api ks) .ecb) iv dst
          (paddedBlocks rnd bs tail pad)) := by
  have hlen := length_src hsrc
  have ht8 := ht.1
  have hloop := loop_blocks (fun s => decide (s.1 + 8 ≤ src.length))
    (ecbEncBody api ks src) (encStep (edeEncrypt api ks) .ecb)
    (fun i d _ => (i, d)) (8 * ·) bs dst iv (by omega)
    (fun j d v hj => by simp only [decide_eq_decide]; omega)
    (fun j b d d' v hj hw _ => by
      have hw' : writeBlock d (8 * j) (edeEncrypt api ks b) = some d' := hw
      simp [ecbEncBody, readBlock_bytes hsrc hj, hw', Nat.mul_add])
    (src.length + 1) (by omega)
  have hremain : src.length - 8 * bs.length = tail.length := by omega
  have hread := readN_tail hsrc
  simp only [Nat.mul_zero] at hloop
  simp only [encryptEcb, hloop, Option.bind_eq_bind, Option.bind_some, hremain, hread]
  rcases need_cases ht with ⟨rfl, rfl⟩ | ⟨hp, hneed⟩
  · rw [encResult_unpadded]
    simp [isNeedPadding]
  · rw [← encResult_padded rnd _ iv hdst tail hneed]
    simp only [hp, false_and, if_false, hneed, or_true, if_true]
    rfl

theorem encryptCbc_eq (iv : Block) :
    encryptCbc api ks rnd dst src pad iv.val
      = some (encResult (encStep (edeEncrypt api ks) .cbc) iv dst
          (paddedBlocks rnd bs tail pad)) := by
  have hlen := length_src hsrc
  have ht8 := ht.1
  have hloop := loop_blocks (fun s => decide (s.idx + 8 ≤ src.length))
    (cbcEncBody api ks src) (encStep (edeEncrypt api ks) .cbc)
    Cursor.mk (8 * ·) bs dst iv (by omega)
    (fun j d v hj => by simp only [decide_eq_decide]; omega)
    (fun j b d d' v hj hw _ => by
      have hw' : writeBlock d (8 * j) (edeEncrypt api ks (b.xor v)) = some d' := hw
      simp [cbcEncBody, readBlock_bytes hsrc hj, hw', Nat.mul_add, encStep, cbcEnc])
    (src.length + 1) (by omega)
  have hremain : src.length - 8 * bs.length = tail.length := by omega
  have hread := readN_tail hsrc
  simp only [Nat.mul_zero] at hloop
  simp only [encryptCbc, readBlock_val, hloop, Option.bind_eq_bind, Option.bind_some, hremain,
    hread]
  rcases need_cases ht with ⟨rfl, rfl⟩ | ⟨hp, hneed⟩
  · rw [encResult_unpadded]
    simp [isNeedPadding]
  · rw [← encResult_padded rnd _ iv hdst tail hneed]
    simp only [hp, false_and, if_false, hneed, or_true, if_true]
    rfl

theorem encryptCfb_eq (iv : Block) :
    encryptCfb api ks rnd dst src pad iv.val
      = some (encResult (encStep (edeEncrypt api ks) .cfb) iv dst
          (paddedBlocks rnd bs tail pad)) := by
  have hlen := length_src hsrc
  have ht8 := ht.1
  have hfull : src.length / 8 = bs.length := by omega
  have hmod : src.length % 8 = tail.length := by omega
  have hloop := loop_blocks (fun s => decide (s.idx < bs.length))
    (cfbEncBody api ks src) (encStep (edeEncrypt api ks) .cfb)
    Cursor.mk id bs dst iv (by omega) (fun j d v hj => rfl)
    (fun j b d d' v hj hw hr => by
      have hw' : writeBlock d (8 * j) (b.xor (edeEncrypt api ks v)) = some d' := hw
      have hr' : readBlock d' (8 * j) = some (b.xor (edeEncrypt api ks v)) := hr
      simp [cfbEncBody, Nat.mul_comm j 8, readBlock_bytes hsrc hj, hw', hr', encStep, cfbEnc])
    (bs.length + 1) (by omega)
  have hread := remainBytes_tail hsrc
  simp only [id] at hloop
  simp only [encryptCfb, readBlock_val, hfull, hmod, hloop, Option.bind_eq_bind,
    Option.bind_some, hread]
  rcases need_cases ht with ⟨rfl, rfl⟩ | ⟨hp, hneed⟩
  · rw [encResult_unpadded]
    simp [isNeedPadding, Nat.mul_comm]
  · rw [← encResult_padded rnd _ iv hdst tail hneed]
    simp only [hneed, if_true, Nat.mul_comm bs.length 8]
    rfl

theorem encryptOfb_eq (iv : Block) :
    encryptOfb api ks rnd dst src pad iv.val
      = some (encResult (encStep (edeEncrypt api ks) .ofb) iv dst
          (paddedBlocks rnd bs tail pad)) := by
  have hlen := length_src hsrc
  have ht8 := ht.1
  have hfull : src.length / 8 = bs.length := by omega
  have hmod : src.length % 8 = tail.length := by omega
  have hloop := loop_blocks (fun s => decide (s.idx < bs.length))
    (ofbBody api ks src) (encStep (edeEncrypt api ks) .ofb)
    Cursor.mk id bs dst iv (by omega) (fun j d v hj => rfl)
    (fun j b d d' v hj hw _ => by
      have hw' : writeBlock d (8 * j) (b.xor (edeEncrypt api ks v)) = some d' := hw
      simp [ofbBody, Nat.mul_comm j 8, readBlock_bytes hsrc hj, hw', encStep, BlockModes.ofb])
    (bs.length + 1) (by omega)
  have hread := remainBytes_tail hsrc
  simp only [id] at hloop
  simp only [encryptOfb, readBlock_val, hfull, hmod, hloop, Option.bind_eq_bind,
    Option.bind_some, hread]
  rcases need_cases ht with ⟨rfl, rfl⟩ | ⟨hp, hneed⟩
  · rw [encResult_unpadded]
    simp [isNeedPadding, Nat.mul_comm]
  · rw [← encResult_padded rnd _ iv hdst tail hneed]
    simp only [hp, false_and, if_false, hneed, if_true, Nat.mul_comm bs.length 8]
    rfl

theorem encryptCtr_eq (iv : Block) :
    encryptCtr api ks rnd dst src pad iv.val
      = some (encResult (encStep (edeEncrypt api ks) .ctr) iv dst
          (paddedBlocks rnd bs tail pad)) := by
  have hplen := ctrPaddedLen_eq rnd hsrc ht
  have hle : (paddedBlocks rnd bs tail pad).length ≤ bs.length + 1 := by
    unfold paddedBlocks; split <;> simp
  have hloop := loop_blocks (fun s => decide (s.idx < ctrPaddedLen src.length pad))
    (ctrEncBody api ks rnd src pad) (encStep (edeEncrypt api ks) .ctr)
    Cursor.mk (8 * ·) (paddedBlocks rnd bs tail pad) dst iv (by omega)
    (fun j d v hj => by simp only [decide_eq_decide]; omega)
    (fun j b d d' v hj hw _ => by
      have hw' : writeBlock d (8 * j) (b.xor (edeEncrypt api ks v)) = some d' := hw
      simp [ctrEncBody, ctrBlock_eq rnd hsrc ht hj, hw', Nat.mul_add, encStep,
        BlockModes.ctr])
    (ctrPaddedLen src.length pad + 1) (by omega)
  simp only [Nat.mul_zero] at hloop
  simp only [encryptCtr, readBlock_val, hloop, Option.bind_eq_bind, Option.bind_some]
  rw [hplen, encResult, wrote, length_run]

end Bodies

/-! ## The decryption bodies -/

/-- The result of decrypting `cs` under a mode step, before unpadding. -/
def decResult (step : Block → Block → Block × Block) (iv : Block) (dst : Bytes)
    (cs : List Block) : Bytes × Nat :=
  (wrote dst (run step iv cs), 8 * cs.length)

section DecBodies

variable (ks : List api.KeySchedule) {dst : Bytes} {cs : List Block}
  (hdst : 8 * cs.length ≤ dst.length)

include hdst

theorem decryptEcb_eq (iv : Block) :
    decryptEcb api ks dst (bytes cs)
      = some (decResult (decStep (edeEncrypt api ks) (edeDecrypt api ks) .ecb) iv dst cs) := by
  have hloop := loop_blocks (fun s => decide (s.1 < (bytes cs).length))
    (ecbDecBody api ks (bytes cs)) (decStep (edeEncrypt api ks) (edeDecrypt api ks) .ecb)
    (fun i d _ => (i, d)) (8 * ·) cs dst iv hdst
    (fun j d v hj => by simp only [decide_eq_decide, length_bytes]; omega)
    (fun j b d d' v hj hw _ => by
      have hw' : writeBlock d (8 * j) (edeDecrypt api ks b) = some d' := hw
      simp [ecbDecBody, readBlock_self hj, hw',
        Nat.mul_add])
    ((bytes cs).length + 1) (by simp; omega)
  simp only [Nat.mul_zero] at hloop
  simp only [decryptEcb, hloop, Option.bind_eq_bind, Option.bind_some, decResult, wrote,
    length_run]

theorem decryptCbc_eq (iv : Block) :
    decryptCbc api ks dst (bytes cs) iv.val
      = some (decResult (decStep (edeEncrypt api ks) (edeDecrypt api ks) .cbc) iv dst cs) := by
  have hloop := loop_blocks (fun s => decide (s.idx < (bytes cs).length))
    (cbcDecBody api ks (bytes cs)) (decStep (edeEncrypt api ks) (edeDecrypt api ks) .cbc)
    Cursor.mk (8 * ·) cs dst iv hdst
    (fun j d v hj => by simp only [decide_eq_decide, length_bytes]; omega)
    (fun j b d d' v hj hw _ => by
      have hw' : writeBlock d (8 * j) ((edeDecrypt api ks b).xor v) = some d' := hw
      simp [cbcDecBody, readBlock_self hj, hw',
        Nat.mul_add, decStep, cbcDec])
    ((bytes cs).length + 1) (by simp; omega)
  simp only [Nat.mul_zero] at hloop
  simp only [decryptCbc, readBlock_val, hloop, Option.bind_eq_bind, Option.bind_some, decResult,
    wrote, length_run]

end DecBodies

/-! The feedback modes take any number of bytes: the last ones, fewer than
a block, are added to the beginning of one more block of the keystream. -/

/-- The result of decrypting `cs` and a tail under a feedback mode, before
unpadding. -/
def feedResult (step : Block → Block → Block × Block) (E : Block → Block) (iv : Block)
    (dst : Bytes) (cs : List Block) (tail : Bytes) : Bytes × Nat :=
  (bytes (run step iv cs) ++ List.zipWith (· ^^^ ·) tail (E (final step iv cs)).val ++
    dst.drop (8 * cs.length + tail.length), 8 * cs.length + tail.length)

theorem feedResult_nil (step : Block → Block → Block × Block) (E : Block → Block) (iv : Block)
    (dst : Bytes) (cs : List Block) : feedResult step E iv dst cs [] = decResult step iv dst cs := by
  simp [feedResult, decResult, wrote]

section FeedBodies

variable (ks : List api.KeySchedule) {src dst tail : Bytes} {cs : List Block}
  (hsrc : src = bytes cs ++ tail) (ht : tail.length < 8) (hdst : src.length ≤ dst.length)

include hsrc ht hdst

theorem xorTail_run (step : Block → Block → Block × Block) (iv k : Block) :
    xorTail (bytes (run step iv cs) ++ dst.drop (8 * cs.length)) src (8 * cs.length) tail.length k =
      some (bytes (run step iv cs) ++ List.zipWith (· ^^^ ·) tail k.val ++
        dst.drop (8 * cs.length + tail.length)) := by
  have hlen := length_src hsrc
  have hzip : (List.zipWith (· ^^^ ·) tail k.val).length = tail.length := by
    rw [List.length_zipWith, k.property]
    omega
  have hrest : tail.length ≤ (dst.drop (8 * cs.length)).length := by
    rw [List.length_drop]
    omega
  rw [xorTail, readN_tail hsrc, Option.bind_eq_bind, Option.bind_some,
    writeN_append' rfl (by rw [length_bytes, length_run]) (by omega), hzip, List.drop_drop]

/-- The tail, if there is one, after the loop of a feedback mode. -/
theorem feedResult_tail (step : Block → Block → Block × Block) (E : Block → Block) (iv : Block) :
    (if tail.length > 0 then
        (xorTail (bytes (run step iv cs) ++ dst.drop (8 * cs.length)) src (8 * cs.length)
          tail.length (E (final step iv cs))).bind fun dst => some (dst, 8 * cs.length + tail.length)
      else some (bytes (run step iv cs) ++ dst.drop (8 * cs.length), 8 * cs.length)) =
      some (feedResult step E iv dst cs tail) := by
  by_cases h0 : tail.length > 0
  · rw [if_pos h0, xorTail_run hsrc ht hdst]
    rfl
  · rw [if_neg h0, List.length_eq_zero_iff.mp (Nat.eq_zero_of_not_pos h0), feedResult_nil,
      decResult, wrote, length_run]

theorem decryptCfb_eq (iv : Block) :
    decryptCfb api ks dst src iv.val =
      some (feedResult (decStep (edeEncrypt api ks) (edeDecrypt api ks) .cfb) (edeEncrypt api ks) iv
        dst cs tail) := by
  have hlen := length_src hsrc
  have hfull : src.length / 8 = cs.length := by omega
  have hmod : src.length % 8 = tail.length := by omega
  have hloop := loop_blocks (fun s => decide (s.idx < cs.length))
    (cfbDecBody api ks src) (decStep (edeEncrypt api ks) (edeDecrypt api ks) .cfb)
    Cursor.mk id cs dst iv (by omega) (fun j d v hj => rfl)
    (fun j b d d' v hj hw _ => by
      have hw' : writeBlock d (8 * j) (b.xor (edeEncrypt api ks v)) = some d' := hw
      simp [cfbDecBody, Nat.mul_comm j 8, readBlock_bytes hsrc hj, hw', decStep, cfbDec])
    (cs.length + 1) (by omega)
  simp only [id] at hloop
  simp only [decryptCfb, readBlock_val, hfull, hmod, hloop, Option.bind_eq_bind, Option.bind_some,
    Nat.mul_comm cs.length 8]
  exact feedResult_tail hsrc ht hdst _ _ iv

theorem decryptOfb_eq (iv : Block) :
    decryptOfb api ks dst src iv.val =
      some (feedResult (decStep (edeEncrypt api ks) (edeDecrypt api ks) .ofb) (edeEncrypt api ks) iv
        dst cs tail) := by
  have hlen := length_src hsrc
  have hfull : src.length / 8 = cs.length := by omega
  have hmod : src.length % 8 = tail.length := by omega
  have hloop := loop_blocks (fun s => decide (s.idx < cs.length))
    (ofbBody api ks src) (decStep (edeEncrypt api ks) (edeDecrypt api ks) .ofb)
    Cursor.mk id cs dst iv (by omega) (fun j d v hj => rfl)
    (fun j b d d' v hj hw _ => by
      have hw' : writeBlock d (8 * j) (b.xor (edeEncrypt api ks v)) = some d' := hw
      simp [ofbBody, Nat.mul_comm j 8, readBlock_bytes hsrc hj, hw', decStep, BlockModes.ofb])
    (cs.length + 1) (by omega)
  simp only [id] at hloop
  simp only [decryptOfb, readBlock_val, hfull, hmod, hloop, Option.bind_eq_bind, Option.bind_some,
    Nat.mul_comm cs.length 8]
  exact feedResult_tail hsrc ht hdst _ _ iv

omit ht hdst in
/-- A whole block of the counter body. -/
theorem ctrDecBody_block {j : Nat} {b v : Block} {d d' : Bytes} (hj : cs[j]? = some b)
    (hw : writeBlock d (8 * j) (b.xor (edeEncrypt api ks v)) = some d') :
    ctrDecBody api ks src ⟨8 * j, d, v⟩ = some ⟨8 * (j + 1), d', incCtr v⟩ := by
  obtain ⟨hlt, -⟩ := List.getElem?_eq_some_iff.mp hj
  have hlen := length_src hsrc
  have hchunk : (if src.length - 8 * j ≥ 8 then 8 else src.length - 8 * j) = 8 :=
    if_pos (by omega)
  have hdata := readBlock_bytes hsrc hj
  have hread : readN src (8 * j) 8 = some b.val := by
    simp only [readBlock] at hdata
    split at hdata
    · rename_i hle
      rw [readN, if_pos hle, ← Option.some.inj hdata]
    · cases hdata
  have hw' : writeN d (8 * j) (List.zipWith (· ^^^ ·) b.val (edeEncrypt api ks v).val)
      = some d' := hw
  simp only [ctrDecBody, xorTail, hchunk, hread, Option.bind_eq_bind, Option.bind_some, hw']
  rfl

/-- The counter body on what is left after the whole blocks. -/
theorem ctrLoop_tail (iv : Block) (fuel : Nat) (hfuel : tail.length < fuel) :
    ∃ v, loop (fun s => decide (s.idx < src.length)) (ctrDecBody api ks src) fuel
        (afterBlocks (decStep (edeEncrypt api ks) (edeDecrypt api ks) .ctr) Cursor.mk (8 * ·) cs dst
          iv cs.length) =
      some ⟨src.length, (feedResult (decStep (edeEncrypt api ks) (edeDecrypt api ks) .ctr)
        (edeEncrypt api ks) iv dst cs tail).1, v⟩ := by
  have hlen := length_src hsrc
  have htail := xorTail_run hsrc ht hdst
    (decStep (edeEncrypt api ks) (edeDecrypt api ks) .ctr) iv
  obtain ⟨f, rfl⟩ : ∃ f, fuel = f + 1 := ⟨fuel - 1, by omega⟩
  rw [loop, afterBlocks, List.take_length]
  by_cases h0 : tail = []
  · have hstop : ¬ 8 * cs.length < src.length := by rw [hlen, h0, List.length_nil]; omega
    have hend : 8 * cs.length = src.length := by rw [hlen, h0, List.length_nil]; omega
    refine ⟨final (decStep (edeEncrypt api ks) (edeDecrypt api ks) .ctr) iv cs, ?_⟩
    rw [if_neg (by simpa using hstop), h0, feedResult_nil, decResult, wrote, length_run, hend]
  · have hpos : 0 < tail.length := List.length_pos_iff.mpr h0
    obtain ⟨f, rfl⟩ : ∃ f', f = f' + 1 := ⟨f - 1, by omega⟩
    have hchunk : (if src.length - 8 * cs.length ≥ 8 then 8 else src.length - 8 * cs.length) =
        tail.length := by
      rw [if_neg (by omega)]
      omega
    have hend : 8 * cs.length + tail.length = src.length := hlen.symm
    refine ⟨incCtr (final (decStep (edeEncrypt api ks) (edeDecrypt api ks) .ctr) iv cs), ?_⟩
    rw [if_pos (decide_eq_true (by show 8 * cs.length < src.length; omega))]
    simp only [ctrDecBody, hchunk, htail, Option.bind_eq_bind, Option.bind_some, loop, hend,
      Nat.lt_irrefl, decide_false, Bool.false_eq_true, if_false, feedResult]

theorem decryptCtr_eq (iv : Block) :
    decryptCtr api ks dst src iv.val =
      some (feedResult (decStep (edeEncrypt api ks) (edeDecrypt api ks) .ctr) (edeEncrypt api ks) iv
        dst cs tail) := by
  have hlen := length_src hsrc
  obtain ⟨f, hf⟩ : ∃ f, src.length + 1 = cs.length + (f + 1) :=
    ⟨7 * cs.length + tail.length, by omega⟩
  have hloop := loop_afterBlocks (fun s => decide (s.idx < src.length))
    (decStep (edeEncrypt api ks) (edeDecrypt api ks) .ctr) Cursor.mk (8 * ·) cs dst iv (by omega)
    (fun j b d d' v hj hw _ => ctrDecBody_block ks hsrc hj hw)
    (fun j d v hj => decide_eq_true (by show 8 * j < src.length; omega)) (f + 1) cs.length 0
    (by omega)
  obtain ⟨v, htail⟩ := ctrLoop_tail ks hsrc ht hdst iv (f + 1) (by omega)
  have hstart : afterBlocks (decStep (edeEncrypt api ks) (edeDecrypt api ks) .ctr) Cursor.mk (8 * ·)
      cs dst iv 0 = ⟨0, dst, iv⟩ := rfl
  rw [hstart, htail] at hloop
  simp only [decryptCtr, readBlock_val, hf, hloop, Option.bind_eq_bind, Option.bind_some]
  rw [hlen]
  rfl

end FeedBodies

/-! ## The two overloads -/

variable (api) in
theorem exists_multipleKey (key : Bytes) :
    ∃ ks, multipleKey api key = some ks := by
  suffices h : ∀ l : List Nat, (∀ i ∈ l, i * 8 + 8 ≤ key.length) →
      ∃ ks, l.mapM (fun i => (readBlock key (i * 8)).map api.setKeyUnchecked) = some ks by
    refine h _ fun i hi => ?_
    have hi8 : i < key.length / 8 := List.mem_range.mp hi
    omega
  intro l
  induction l with
  | nil => intro _; exact ⟨[], rfl⟩
  | cons i l ih =>
    intro hl
    obtain ⟨ks, hks⟩ := ih fun j hj => hl j (List.mem_cons_of_mem _ hj)
    have hread : readBlock key (i * 8) = some ⟨(key.drop (i * 8)).take 8, _⟩ :=
      dif_pos (hl i List.mem_cons_self)
    exact ⟨_ :: ks, by rw [List.mapM_cons, hread, hks]; rfl⟩

/-- An iv that passes `is_iv_valid` is a block, unless the mode reads
none. -/
theorem iv_cases {mod : Mode} {iv : Option Bytes} (h : isIvValid mod iv = true) :
    mod = .ecb ∨ ∃ v : Block, iv = some v.val := by
  by_cases hm : mod = .ecb
  · exact .inl hm
  · refine .inr ?_
    cases iv with
    | none => simp [isIvValid, hm] at h
    | some l =>
      have hl : l.length = 8 := by simpa [isIvValid, hm] using h
      exact ⟨⟨l, hl⟩, rfl⟩

theorem chainOf_val (v : Block) : chainOf (some v.val) = ⟨v, v⟩ := by
  simp [chainOf, readBlock_val]

/-- A plaintext that passes `is_plain_valid`, cut into blocks. -/
theorem exists_tailOk {src : Bytes} {pad : Padding} (h : isPlainValid (some src) pad = true) :
    ∃ bs tail, src = bytes bs ++ tail ∧ TailOk tail pad := by
  obtain ⟨bs, tail, heq, ht⟩ := exists_blocks src.length src (Nat.le_refl _)
  refine ⟨bs, tail, heq, ht, fun hp => ?_⟩
  have hlen : src.length = 8 * bs.length + tail.length := length_src heq
  simp only [isPlainValid, hp] at h
  apply List.length_eq_zero_iff.mp
  simp at h
  omega

/-- **Buffer encryption.** With valid arguments and the reserve the class
asks for, `encrypt` writes the mode's run over the padded message. -/
theorem encrypt_eq (rnd : Nat → UInt8) {dst src tail key : Bytes} (n : Nat) {bs : List Block}
    {mod : Mode} {pad : Padding} {iv : Option Bytes} {ks : List api.KeySchedule}
    (hkey : isKeyValid (some key) = true) (hks : multipleKey api key = some ks)
    (hiv : isIvValid mod iv = true) (hplain : isPlainValid (some src) pad = true)
    (hsrc : src = bytes bs ++ tail) (ht : TailOk tail pad)
    (hdst : encryptLenReserve src.length ≤ dst.length) :
    encrypt api rnd (some dst) n (some src) (some key) mod pad iv
      = some (encResult (encStep (edeEncrypt api ks) mod) (chainOf iv).iv dst
          (paddedBlocks rnd bs tail pad)) := by
  have hcap : 8 * bs.length + 8 ≤ dst.length := by
    have := length_src hsrc
    simp only [encryptLenReserve] at hdst
    omega
  simp only [encrypt, hkey, hiv, hplain, Bool.not_true, Bool.false_eq_true, if_false,
    Option.bind_some, hks, Option.bind_eq_bind]
  rcases iv_cases hiv with rfl | ⟨v, rfl⟩
  · exact encryptEcb_eq ks rnd hsrc ht hcap _
  · rw [chainOf_val]
    cases mod with
    | ecb => exact encryptEcb_eq ks rnd hsrc ht hcap v
    | cbc => exact encryptCbc_eq ks rnd hsrc ht hcap v
    | cfb => exact encryptCfb_eq ks rnd hsrc ht hcap v
    | ofb => exact encryptOfb_eq ks rnd hsrc ht hcap v
    | ctr => exact encryptCtr_eq ks rnd hsrc ht hcap v

/-- **Buffer decryption.** On whole blocks, `decrypt` is the mode's run
followed by the unpadding of the whole buffer. -/
theorem decrypt_eq {dst key : Bytes} (n : Nat) {cs : List Block} {mod : Mode} (pad : Padding)
    {iv : Option Bytes} {ks : List api.KeySchedule} (hkey : isKeyValid (some key) = true)
    (hks : multipleKey api key = some ks) (hiv : isIvValid mod iv = true)
    (hdst : 8 * cs.length ≤ dst.length) :
    decrypt api (some dst) n (bytes cs) (some key) mod pad iv
      = (unpaddingBlock
          (wrote dst (run (decStep (edeEncrypt api ks) (edeDecrypt api ks) mod) (chainOf iv).iv cs))
          (8 * cs.length) pad).map fun p => ⟨.ok, p.1, p.2⟩ := by
  simp only [decrypt, hkey, hiv, Bool.not_true, Bool.false_eq_true, if_false,
    Option.bind_some, hks, Option.bind_eq_bind, Option.map_eq_bind]
  rcases iv_cases hiv with rfl | ⟨v, rfl⟩
  · rw [decryptEcb_eq ks hdst (chainOf iv).iv]; rfl
  · have hsrc : bytes cs = bytes cs ++ [] := (List.append_nil _).symm
    have hfeed : (bytes cs).length ≤ dst.length := by rwa [length_bytes]
    rw [chainOf_val]
    cases mod with
    | ecb => dsimp only; rw [decryptEcb_eq ks hdst v]; rfl
    | cbc => dsimp only; rw [decryptCbc_eq ks hdst v]; rfl
    | cfb => dsimp only; rw [decryptCfb_eq ks hsrc (by simp) hfeed v, feedResult_nil]; rfl
    | ofb => dsimp only; rw [decryptOfb_eq ks hsrc (by simp) hfeed v, feedResult_nil]; rfl
    | ctr => dsimp only; rw [decryptCtr_eq ks hsrc (by simp) hfeed v, feedResult_nil]; rfl

end HighJump.Crypto.Des
