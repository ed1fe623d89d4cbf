/-
HighJump.Compress.GzipTheorems — when `hj::gzip` says ok.

The loops are followed with `Feeding`: a loop over a decoder that owes
`m` bytes takes `m / w + 1` turns of room `w`, writes `w` bytes in each
but the last, and ends with the answer of the last call. On a complete
member that answer is `Z_STREAM_END`. On an unfinished one it is `Z_OK`
unless the last call could do nothing, and `Z_OK` has the value of
`err::ok`: the theorems about truncated input say exactly when the last
call could do nothing.
-/
import HighJump.Compress.Gzip
import HighJump.Compress.SampleMember

namespace HighJump.Compress.Gzip

open HighJump.Lib HighJump.Lib.Zlib

variable {F : Format} {I : Inflater} {K : InflateContract F I}

/-! ## The last answer -/

/-- The answer of the last call on an unfinished member: `i` was unread
and `m` bytes were due when the loop began. -/
def lastRet (w : Nat) (i : Bytes) (m : Nat) : Ret :=
  if m % w = 0 ∧ (m ≠ 0 ∨ i = []) then .bufError else .ok

/-- A turn that fills its room leaves the last answer to the rest. -/
theorem lastRet_sub {w m : Nat} {i i' : Bytes} (hw : 0 < w) (hm : w ≤ m)
    (hi : m = w → i' = []) : lastRet w i' (m - w) = lastRet w i m := by
  have hmod : (m - w) % w = m % w := (Nat.mod_eq_sub_mod hm).symm
  unfold lastRet
  refine if_congr ?_ rfl rfl
  rw [hmod]
  refine and_congr_right fun hz => ?_
  have hm0 : m ≠ 0 := by omega
  by_cases heq : m = w
  · simp [hi heq, hm0]
  · have hsub : m - w ≠ 0 := by omega
    simp [hsub, hm0]

theorem lastRet_short {w m : Nat} {i : Bytes} (hm : m < w) :
    (if i = [] ∧ m = 0 then Ret.bufError else Ret.ok) = lastRet w i m := by
  unfold lastRet
  refine if_congr ?_ rfl rfl
  rw [Nat.mod_eq_of_lt hm]
  by_cases h0 : m = 0 <;> simp [h0]

theorem lastRet_ne_streamEnd (w : Nat) (i : Bytes) (m : Nat) : lastRet w i m ≠ .streamEnd := by
  unfold lastRet
  split <;> simp

theorem more_of_ne {T : Bytes} (h1 : F.status T ≠ .done) (h2 : F.status T ≠ .bad) :
    F.status T = .more := by
  cases hT : F.status T with
  | more => rfl
  | done => exact absurd hT h1
  | bad => exact absurd hT h2

/-! ## The buffer loop -/

/-- What the loop of `decompress` comes to. -/
def bufferResult (F : Format) (maxOutputSz : Nat) (T unread dst : Bytes) (m : Nat) : Err × Bytes :=
  if 0 < maxOutputSz ∧ maxOutputSz < dst.length + m then (.maxOutputSzExceeded, [])
  else if F.status T = .done then (.ok, dst ++ (F.dec T).drop ((F.dec T).length - m))
  else (.ofRet (lastRet chunkSize unread m), [])

/-- A turn whose answer is none of the three errors. -/
theorem decompressTurn_eq (maxOutputSz : Nat) (b : Buffers I.State)
    (hret : (I.inflate b.state b.unread chunkSize).ret = .ok ∨
      (I.inflate b.state b.unread chunkSize).ret = .bufError ∨
      (I.inflate b.state b.unread chunkSize).ret = .streamEnd)
    (hlen : (I.inflate b.state b.unread chunkSize).out.length ≤ chunkSize) :
    decompressTurn I maxOutputSz b =
      let r := I.inflate b.state b.unread chunkSize
      if maxOutputSz > 0 ∧ b.dst.length + r.out.length > maxOutputSz then
        .exit (.maxOutputSzExceeded, [])
      else if r.out.length = chunkSize then
        .again ⟨r.state, b.unread.drop r.used, b.dst ++ r.out⟩
      else if r.ret ≠ .streamEnd then .exit (.ofRet r.ret, [])
      else .exit (.ok, b.dst ++ r.out) := by
  have hu : toUInt chunkSize = chunkSize := rfl
  have hhave : chunkSize - (chunkSize - (I.inflate b.state b.unread chunkSize).out.length)
      = (I.inflate b.state b.unread chunkSize).out.length := by omega
  have hzero : (chunkSize - (I.inflate b.state b.unread chunkSize).out.length = 0)
      = ((I.inflate b.state b.unread chunkSize).out.length = chunkSize) := by
    apply propext; omega
  unfold decompressTurn
  rw [hu]
  dsimp only
  rcases hret with h | h | h <;> simp only [h, hhave, hzero]

theorem chunkSize_pos : 0 < chunkSize := by decide

/-- **The buffer loop**, on input that is not broken. -/
theorem decompressLoop_eq (maxOutputSz : Nat) {T : Bytes} (hst : F.status T ≠ .bad) :
    ∀ (fuel m : Nat) (b : Buffers I.State), Feeding K T b.state b.unread m →
      m / chunkSize < fuel →
      repeatUntil (fun _ b => some (decompressTurn I maxOutputSz b)) fuel b
        = some (bufferResult F maxOutputSz T b.unread b.dst m) := by
  intro fuel
  induction fuel with
  | zero => intro m b _ hf; exact absurd hf (Nat.not_lt_zero _)
  | succ fuel ih =>
    intro m b hfeed hf
    have hout := length_call_out hfeed chunkSize
    have hturn := decompressTurn_eq maxOutputSz b (call_ret hfeed chunkSize chunkSize_pos hst)
      (by rw [hout]; omega)
    dsimp only at hturn
    by_cases hfull : chunkSize ≤ m
    · -- a full chunk: over the limit, or on to the next turn
      have hlen : (I.inflate b.state b.unread chunkSize).out.length = chunkSize := by
        rw [hout]; omega
      rw [hlen] at hturn
      by_cases hlim : maxOutputSz > 0 ∧ b.dst.length + chunkSize > maxOutputSz
      · rw [if_pos hlim] at hturn
        rw [repeatUntil_exit (congrArg some hturn), bufferResult, if_pos (by omega)]
      · rw [if_neg hlim, if_pos rfl] at hturn
        have hdiv : (m - chunkSize) / chunkSize < fuel := by
          rw [Nat.div_eq_sub_div chunkSize_pos hfull] at hf
          omega
        rw [repeatUntil_again (congrArg some hturn), ih _ _ (call_step hfeed chunkSize) hdiv]
        have hsum : (b.dst ++ (I.inflate b.state b.unread chunkSize).out).length
            + (m - chunkSize) = b.dst.length + m := by
          rw [List.length_append, hlen]; omega
        have hdst := call_out_append hfeed chunkSize
        unfold bufferResult
        rw [hsum, List.append_assoc, hdst]
        by_cases hdone : F.status T = .done
        · simp only [hdone, if_true]
        · rw [lastRet_sub chunkSize_pos hfull fun heq =>
            (call_more hfeed chunkSize (by omega) (more_of_ne hdone hst)).1]
    · -- room to spare: the loop ends here
      have hlen : (I.inflate b.state b.unread chunkSize).out.length = m := by rw [hout]; omega
      rw [hlen, if_neg (c := m = chunkSize) (by omega)] at hturn
      unfold bufferResult
      by_cases hlim : maxOutputSz > 0 ∧ b.dst.length + m > maxOutputSz
      · rw [if_pos hlim] at hturn
        rw [repeatUntil_exit (congrArg some hturn), if_pos hlim]
      · rw [if_neg hlim] at hturn
        rw [if_neg hlim]
        by_cases hdone : F.status T = .done
        · rw [call_streamEnd hfeed chunkSize (by omega) hdone, if_neg (by simp),
            call_out_all hfeed chunkSize (by omega)] at hturn
          rw [repeatUntil_exit (congrArg some hturn), if_pos hdone]
        · have hret := (call_more hfeed chunkSize (by omega) (more_of_ne hdone hst)).2
          have hlt : m < chunkSize := by omega
          rw [lastRet_short hlt] at hret
          rw [hret, if_pos (lastRet_ne_streamEnd _ _ _)] at hturn
          rw [repeatUntil_exit (congrArg some hturn), if_neg hdone]

/-- What the buffer overload of `decompress` comes to on input that is not
broken, with enough fuel. `T` is as much of the input as `avail_in` can
say. -/
theorem decompress_eq (K : InflateContract F I) (maxOutputSz : Nat) (dst : Bytes) {src T : Bytes}
    (hsrc : src ≠ []) (hT : T = src.take (toUInt src.length))
    (hst : F.status T ≠ .bad) {fuel : Nat} (hfuel : (F.dec T).length / chunkSize < fuel) :
    decompress I maxOutputSz fuel dst (some src)
      = some (bufferResult F maxOutputSz T T [] (F.dec T).length) := by
  have hlen : src.length ≠ 0 := fun h => hsrc (List.length_eq_zero_iff.mp h)
  have hfeed := (feeding_init K).offer T
  rw [List.nil_append, F.dec_nil, List.length_nil, Nat.sub_zero] at hfeed
  rw [decompress, if_neg hlen, if_neg (by simp [K.init_ok]), ← hT]
  exact decompressLoop_eq maxOutputSz hst fuel _ _ hfeed hfuel

/-- Every answer of `decompress` is the one enough fuel gives. -/
theorem decompress_unique {maxOutputSz n m : Nat} {dst : Bytes} {src : Option Bytes}
    {a b : Err × Bytes} (ha : decompress I maxOutputSz n dst src = some a)
    (hb : decompress I maxOutputSz m dst src = some b) : a = b := by
  unfold decompress at ha hb
  cases src with
  | none => exact Option.some.inj (ha.symm.trans hb)
  | some src =>
    dsimp only at ha hb
    split at ha
    · rename_i h
      rw [if_pos h] at hb
      exact Option.some.inj (ha.symm.trans hb)
    · rename_i h
      rw [if_neg h] at hb
      split at ha
      · rename_i h'
        rw [if_pos h'] at hb
        exact Option.some.inj (ha.symm.trans hb)
      · rename_i h'
        rw [if_neg h'] at hb
        exact (turns_mono _).unique ha hb

/-! ## Compression -/

section Compression

variable {D : Deflater} (L : DeflateContract F D)

/-- The loop of `compress` on the input `x`: what was written so far, and
the phase of the compression. -/
def Deflating (x : Bytes) (b : Buffers D.State) (ph : Phase) : Prop :=
  ∃ c, L.At b.state c b.dst ph ∧ c ++ b.unread = x ∧ ph.Allows .finish b.unread ∧
    (ph = .done → F.Member b.dst x)

variable {L}

/-- One call: it never answers an error, keeps the invariant, and either
fills its room or has read everything, and with `Z_FINISH` completed the
member. -/
theorem deflating_call {x : Bytes} {b : Buffers D.State} {ph : Phase} {flush : Flush}
    (h : Deflating L x b ph) (ha : ph.Allows flush b.unread) (n : Nat) :
    let r := D.deflate b.state flush b.unread n
    r.ret ≠ .streamError ∧ r.out.length ≤ n ∧
      Deflating L x ⟨r.state, b.unread.drop r.used, b.dst ++ r.out⟩
        (Phase.after flush b.unread r) ∧
      (Phase.after flush b.unread r).Allows flush (b.unread.drop r.used) ∧
      (r.out.length < n → b.unread.drop r.used = [] ∧ (flush = .finish → r.ret = .streamEnd)) := by
  intro r
  obtain ⟨c, hat, hx, -, -⟩ := h
  obtain ⟨hused, hlen, hrets, hat'⟩ := L.step hat flush b.unread n ha
  have hend := L.streamEnd hat flush b.unread n ha
  have hafter : ∀ flush', (flush = .finish → flush' = .finish) →
      (Phase.after flush b.unread r).Allows flush' (b.unread.drop r.used) := by
    intro flush' hf
    unfold Phase.after
    split
    next hret =>
      obtain ⟨hfin, hall, -⟩ := hend hret
      exact ⟨hf hfin, by rw [hall]; exact List.drop_length⟩
    next =>
      split
      next hfin => exact ⟨hf hfin, rfl⟩
      next => trivial
  refine ⟨?_, hlen, ⟨_, hat', ?_, hafter .finish fun _ => rfl, ?_⟩, hafter flush id, fun hroom =>
    ⟨?_, ?_⟩⟩
  · rcases hrets with h | h | h <;> rw [h] <;> simp
  · rw [List.append_assoc, List.take_append_drop, hx]
  · intro hdone
    unfold Phase.after at hdone
    split at hdone
    next hret =>
      have hmem := (hend hret).2.2
      rwa [hx] at hmem
    next => split at hdone <;> cases hdone
  · rw [L.reads hat flush b.unread n ha hroom]
    exact List.drop_length
  · rintro rfl
    exact L.finishes hat b.unread n ha hroom

/-- **The compression loop** ends, and with a complete member. -/
theorem compressLoop_eq {x : Bytes} : ∀ (fuel : Nat) (b : Buffers D.State) (ph : Phase),
    Deflating L x b ph → L.bound x.length - b.dst.length < fuel →
    ∃ z, repeatUntil (fun _ b => some (compressTurn D b)) fuel b = some (.ok, z) ∧
      F.Member z x := by
  intro fuel
  induction fuel with
  | zero => intro b ph _ hf; omega
  | succ fuel ih =>
    intro b ph h hf
    obtain ⟨-, -, -, hallow, -⟩ := id h
    obtain ⟨herr, hle, hnext, -, hfull⟩ := deflating_call h hallow chunkSize
    have hu : toUInt chunkSize = chunkSize := rfl
    by_cases hroom : (D.deflate b.state .finish b.unread chunkSize).out.length < chunkSize
    · -- room to spare: the member is complete
      have hend := (hfull hroom).2 rfl
      have hturn : compressTurn D b
          = .exit (.ok, b.dst ++ (D.deflate b.state .finish b.unread chunkSize).out) := by
        have hne : chunkSize - (D.deflate b.state .finish b.unread chunkSize).out.length ≠ 0 := by
          omega
        simp [compressTurn, hu, hend, hne]
      obtain ⟨-, -, -, -, hmem⟩ := hnext
      exact ⟨_, repeatUntil_exit (congrArg some hturn), hmem (by simp [Phase.after, hend])⟩
    · have hlen : (D.deflate b.state .finish b.unread chunkSize).out.length = chunkSize := by omega
      have hturn : compressTurn D b
          = .again ⟨(D.deflate b.state .finish b.unread chunkSize).state,
              b.unread.drop (D.deflate b.state .finish b.unread chunkSize).used,
              b.dst ++ (D.deflate b.state .finish b.unread chunkSize).out⟩ := by
        simp [compressTurn, hu, herr, hlen]
      have hbound : b.dst.length + chunkSize ≤ L.bound x.length := by
        obtain ⟨c, hat, hx, -⟩ := hnext
        have hc := L.bounded hat x.length (by rw [← hx, List.length_append]; omega)
        rwa [List.length_append, hlen] at hc
      rw [repeatUntil_again (congrArg some hturn)]
      refine ih _ _ hnext ?_
      have hpos := chunkSize_pos
      simp only [List.length_append, hlen]
      omega

/-- What the buffer overload of `compress` comes to: a member of as much
of the input as `avail_in` can say. -/
theorem compress_eq (L : DeflateContract F D) (dst : Bytes) {x : Bytes} {lvl mem : Int}
    (hinit : (D.init lvl mem).1 = .ok) (hx : x ≠ []) {fuel : Nat}
    (hfuel : L.bound (x.take (toUInt x.length)).length < fuel) :
    ∃ z, compress D fuel dst (some x) lvl mem = some (.ok, z) ∧
      F.Member z (x.take (toUInt x.length)) := by
  have hlen : x.length ≠ 0 := fun h => hx (List.length_eq_zero_iff.mp h)
  rw [compress, if_neg hlen]
  simp only [hinit, ne_eq, not_true_eq_false, if_false]
  refine compressLoop_eq fuel _ .writing ⟨[], L.init lvl mem hinit, rfl, trivial, by simp⟩ ?_
  simp only [List.length_nil]
  omega

/-- An ok answer of `compress` is such a member. -/
theorem member_of_compress (L : DeflateContract F D) {fuel : Nat} {dst x z : Bytes} {lvl mem : Int}
    (h : compress D fuel dst (some x) lvl mem = some (.ok, z)) :
    F.Member z (x.take (toUInt x.length)) := by
  have hlen : x.length ≠ 0 := by
    intro h0
    rw [compress, if_pos h0] at h
    cases h
  have hinit : (D.init lvl mem).1 = .ok := by
    by_contra hne
    rw [compress, if_neg hlen] at h
    simp only [hne, ne_eq, not_false_eq_true, if_true, Option.some.injEq, Prod.mk.injEq] at h
    cases hret : (D.init lvl mem).1 <;> simp [hret, Err.ofRet, Err.ok, Ret.value] at h hne
  have hx : x ≠ [] := fun h0 => hlen (by rw [h0]; rfl)
  obtain ⟨z', hz', hmem⟩ := compress_eq L dst hinit hx (Nat.lt_succ_self _)
  rw [compress, if_neg hlen] at h hz'
  simp only [hinit, ne_eq, not_true_eq_false, if_false] at h hz'
  have heq := (turns_mono (compressTurn D)).unique h hz'
  rw [(Prod.mk.inj heq).2]
  exact hmem

/-- **The buffer round trip.** Whenever `compress` is ok and its output is
shorter than 2^32 bytes, `decompress` is ok, and what it gives back is
the input exactly when the input is shorter than 2^32 bytes. -/
theorem decompress_compress_iff (K : InflateContract F I) (L : DeflateContract F D)
    {fuel : Nat} {dst dst' x z : Bytes} {lvl mem : Int}
    (hz : compress D fuel dst (some x) lvl mem = some (.ok, z)) (hlen : z.length < 2 ^ 32) :
    (∃ fuel', decompress I 0 fuel' dst' (some z) = some (.ok, x)) ↔ x.length < 2 ^ 32 := by
  have hmem := member_of_compress L hz
  have hT : z = z.take (toUInt z.length) := by
    rw [toUInt, Nat.mod_eq_of_lt hlen, List.take_length]
  have hdec := decompress_eq K 0 dst' hmem.ne_nil hT (by rw [hmem.done]; simp)
    (Nat.lt_succ_self _)
  have hres : bufferResult F 0 z z [] (F.dec z).length = (.ok, x.take (toUInt x.length)) := by
    simp [bufferResult, hmem.done, hmem.dec]
  rw [hres] at hdec
  constructor
  · rintro ⟨fuel', h⟩
    have heq := (Prod.mk.inj (decompress_unique h hdec)).2
    have hl := congrArg List.length heq
    have hmod : toUInt x.length < 2 ^ 32 := Nat.mod_lt _ (Nat.two_pow_pos 32)
    rw [List.length_take] at hl
    omega
  · intro hx
    rw [toUInt, Nat.mod_eq_of_lt hx, List.take_length] at hdec
    exact ⟨_, hdec⟩

end Compression

/-! ## At the boundary -/

/-- One byte more than `avail_in` can say. -/
def longInput : Bytes := List.replicate (2 ^ 32 + 1) 0x61

theorem length_longInput : longInput.length = 2 ^ 32 + 1 := List.length_replicate

theorem take_longInput : longInput.take (toUInt longInput.length) = [0x61] := by
  rw [length_longInput, longInput, List.take_replicate]
  rfl

theorem compress_longInput :
    compress sampleDeflater 1 [] (some longInput) (-1) 8 = some (.ok, aMember) := by
  have hlen : longInput.length ≠ 0 := by rw [length_longInput]; omega
  rw [compress, if_neg hlen, take_longInput]
  decide

theorem decompress_aMember :
    decompress sampleInflater 0 1 [] (some aMember) = some (.ok, [0x61]) := by
  decide

/-- `compress` is ok on 2^32 + 1 bytes, and what it wrote is the member of
one. -/
theorem decompress_compress_long :
    compress sampleDeflater 1 [] (some longInput) (-1) 8 = some (.ok, aMember) ∧
      aMember.length < 2 ^ 32 ∧ longInput.length < 2 ^ 64 ∧
      ¬ ∃ fuel, decompress sampleInflater 0 fuel [] (some aMember) = some (.ok, longInput) := by
  refine ⟨compress_longInput, by decide, by rw [length_longInput]; decide, ?_⟩
  rintro ⟨fuel, h⟩
  have heq := (Prod.mk.inj (decompress_unique h decompress_aMember)).2
  have hlen := congrArg List.length heq
  rw [length_longInput] at hlen
  exact absurd hlen (by decide)

theorem compress_one :
    compress sampleDeflater 1 [] (some [0x61]) (-1) 8 = some (.ok, aMember) := by
  decide

/-- One byte goes there and back. -/
theorem decompress_compress_iff_one :
    (∃ fuel, decompress sampleInflater 0 fuel [] (some aMember) = some (.ok, [0x61])) ↔
      ([0x61] : Bytes).length < 2 ^ 32 :=
  decompress_compress_iff sampleInflater_contract sampleDeflater_contract compress_one (by decide)

end HighJump.Compress.Gzip
