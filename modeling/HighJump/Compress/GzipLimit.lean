/-
HighJump.Compress.GzipLimit — the limit on the output of `decompress`.

Both overloads test the limit before they deliver a chunk. The buffer
overload adds what the chunk holds to what the vector holds; the stream
overload keeps a count of its own, a `size_t` of what `avail_out` leaves
of `chunk_size`. The two agree, and agree with the output, as long as
nothing is narrowed: the member has a length `avail_in` can say, the
chunk one that `avail_out` can say, and the count does not come round.
Past that the limit is exact at some values only, and
`limitExact_iff` says when it is exact at all of them.
-/
import HighJump.Compress.GzipRoundTrip

namespace HighJump.Compress.Gzip

open HighJump.Lib HighJump.Lib.Zlib

/-! ## An exact limit -/

/-- The buffer overload on the member `z` of `x`: all of `x` within the
limit, nothing past it. -/
def BufferExact (I : Inflater) (limit : Nat) (z x : Bytes) : Prop :=
  ∀ dst,
    (x.length ≤ limit → Returns (fun fuel => decompress I limit fuel dst (some z)) (.ok, x)) ∧
    (limit < x.length →
      Returns (fun fuel => decompress I limit fuel dst (some z)) (.maxOutputSzExceeded, []))

/-- The stream overload: all of `x` within the limit, no more than the
limit past it. -/
def StreamExact (I : Inflater) (limit chunk : Nat) (z x : Bytes) : Prop :=
  ∀ (out : OStream) (inp : IStream), out.Open → inp.Good → inp.rest = z →
    (x.length ≤ limit → ∃ o,
      Returns (fun fuel => decompressStream I limit chunk fuel out inp) (.ok, o) ∧
        o.written = out.written ++ x) ∧
    (limit < x.length → ∃ o y,
      Returns (fun fuel => decompressStream I limit chunk fuel out inp) (.maxOutputSzExceeded, o) ∧
        o.written = out.written ++ y ∧ y.length ≤ limit)

/-- The limit is exact in both, whatever it is set to. -/
def LimitExact (I : Inflater) (chunk : Nat) (z x : Bytes) : Prop :=
  ∀ limit, 0 < limit → limit < 2 ^ 64 → BufferExact I limit z x ∧ StreamExact I limit chunk z x

variable {F : Format} {I : Inflater} {limit chunk : Nat} {z x : Bytes}

/-! ## The buffer overload -/

/-- As much of the member as `avail_in` can say is a start of it. -/
theorem decompress_returns (K : InflateContract F I) (limit : Nat) (hz : F.Member z x)
    (dst : Bytes) {T : Bytes} (hT : T = z.take (toUInt z.length)) :
    Returns (fun fuel => decompress I limit fuel dst (some z))
      (bufferResult F limit T T [] (F.dec T).length) := by
  have hst : F.status T ≠ .bad := by
    refine hz.status_ne_bad (t := z.drop (toUInt z.length)) ?_
    rw [hT, List.take_append_drop]
  exact ⟨(F.dec T).length / chunkSize + 1, fun fuel hle =>
    decompress_eq K limit dst hz.ne_nil hT hst hle⟩

/-- A member whose length `avail_in` can say: exact at every limit. -/
theorem bufferExact_of_lt (K : InflateContract F I) (hz : F.Member z x) (hlen : z.length < 2 ^ 32)
    (h0 : 0 < limit) : BufferExact I limit z x := by
  intro dst
  have hT : z = z.take (toUInt z.length) := by rw [toUInt_eq hlen, List.take_length]
  have hrun := decompress_returns K limit hz dst hT
  have hres : bufferResult F limit z z [] (F.dec z).length
      = if limit < x.length then (.maxOutputSzExceeded, []) else (.ok, x) := by
    simp [bufferResult, hz.done, hz.dec, h0]
  rw [hres] at hrun
  constructor
  · intro hle
    rwa [if_neg (Nat.not_lt_of_le hle)] at hrun
  · intro hlt
    rwa [if_pos hlt] at hrun

/-- A longer one, within the limit: the part that is offered is
unfinished, and its answer is ok, with nothing in `dst`, if there was a
part at all. -/
theorem decompress_narrowed (K : InflateContract F I) (hz : F.Member z x) (hlen : 2 ^ 32 ≤ z.length)
    (hle : x.length ≤ limit) (dst : Bytes) :
    Returns (fun fuel => decompress I limit fuel dst (some z)) (.ok, x) ↔
      x = [] ∧ z.length % 2 ^ 32 ≠ 0 := by
  obtain ⟨T, hT⟩ : ∃ T, T = z.take (toUInt z.length) := ⟨_, rfl⟩
  have hlenT : T.length = z.length % 2 ^ 32 := by
    rw [hT, List.length_take, toUInt]
    omega
  have hpre : T <+: z := hT ▸ List.take_prefix _ _
  have hmore := hz.more T hpre (by rintro rfl; omega)
  have hdec : F.dec T <+: x := by
    obtain ⟨t, ht⟩ := hpre
    rw [← hz.dec, ← ht]
    exact F.dec_mono T t
  have hrun := decompress_returns K limit hz dst hT
  have hlim : ¬ (0 < limit ∧ limit < (F.dec T).length) := by
    have := hdec.length_le
    omega
  have hres : bufferResult F limit T T [] (F.dec T).length
      = (.ofRet (lastRet chunkSize T (F.dec T).length), []) := by
    simp [bufferResult, hmore, hlim]
  rw [hres] at hrun
  constructor
  · intro h
    obtain ⟨hcode, hnil⟩ := Prod.mk.inj (hrun.unique h)
    refine ⟨hnil.symm, fun h0 => ?_⟩
    rw [ofRet_lastRet_eq_ok, List.length_eq_zero_iff.mp (hlenT.trans h0), F.dec_nil] at hcode
    exact hcode ⟨Nat.zero_mod _, .inr rfl⟩
  · rintro ⟨rfl, h0⟩
    have hcode : Err.ofRet (lastRet chunkSize T (F.dec T).length) = .ok := by
      rw [ofRet_lastRet_eq_ok, List.prefix_nil.mp hdec]
      rintro ⟨-, h | h⟩
      · exact h rfl
      · rw [h] at hlenT
        exact h0 hlenT.symm
    rwa [hcode] at hrun

/-- The buffer overload within the limit. -/
theorem bufferExact_iff (K : InflateContract F I) (hz : F.Member z x) (h0 : 0 < limit)
    (hle : x.length ≤ limit) :
    BufferExact I limit z x ↔ z.length < 2 ^ 32 ∨ x = [] ∧ z.length % 2 ^ 32 ≠ 0 := by
  by_cases hlen : z.length < 2 ^ 32
  · exact iff_of_true (bufferExact_of_lt K hz hlen h0) (.inl hlen)
  · have hnarrow := decompress_narrowed K hz (Nat.le_of_not_lt hlen) hle
    constructor
    · intro h
      exact .inr ((hnarrow []).mp ((h []).1 hle))
    · rintro (h | h) dst
      · exact absurd h hlen
      · exact ⟨fun _ => (hnarrow dst).mpr h, fun hlt => absurd hle (Nat.not_le_of_lt hlt)⟩

/-! ## The stream overload -/

/-- Chunks `avail_out` can say, and a count that does not come round. -/
theorem streamExact_of_lt (K : InflateContract F I) (hz : F.Member z x) (hc0 : 0 < chunk)
    (hc : chunk < 2 ^ 32) (hx : x.length < 2 ^ 64) (h0 : 0 < limit) :
    StreamExact I limit chunk z x := by
  intro out inp hout hinp hrest
  subst hrest
  obtain ⟨⟨e, o⟩, hr, ⟨rfl, hw, hle⟩ | ⟨rfl, hstop⟩⟩ :=
    decompressStream_ends K limit hc0 hc hinp hz hout
  · have hle := hle h0
    rw [Nat.mod_eq_of_lt hx] at hle
    exact ⟨fun _ => ⟨o, hr, hw⟩, fun hlt => absurd hle (Nat.not_le_of_lt hlt)⟩
  · -- the count that passed the limit is a count of bytes of `x`
    obtain ⟨-, k, n, hw, hkn, hn, hk, hlim⟩ := hstop
    simp only at hw
    rw [hz.dec] at hn hw
    rw [Nat.mod_eq_of_lt (by omega)] at hk hlim
    refine ⟨fun hle => absurd hle (by omega), fun _ => ⟨o, x.take k, hr, hw, ?_⟩⟩
    rw [List.length_take]
    omega

theorem ofRet_ne_exceeded (ret : Ret) : Err.ofRet ret ≠ .maxOutputSzExceeded := by
  cases ret <;> decide

/-- What leaves the inner loop when no count can pass the limit. -/
theorem innerLoop_unlimited (hlim : 2 ^ 64 - 1 ≤ limit) {fuel : Nat} {p : Pump I.State}
    {r : Err × OStream}
    (h : repeatUntil (fun _ p => some (inflateTurn I limit chunk p)) fuel p = some (.error r)) :
    r.1 ≠ .maxOutputSzExceeded := by
  refine repeatUntil_sound (fun _ => True) (fun e => ∀ r, e = .error r → r.1 ≠ .maxOutputSzExceeded)
    (fun _ _ _ _ _ => trivial) (fun _ _ _ _ hexit r hr => ?_) fuel p _ trivial h r rfl
  obtain ⟨ret, -, rfl⟩ | ⟨n, hpast, hn, -⟩ | ⟨o, rfl⟩ | ⟨q, -, rfl⟩ :=
    inflateTurn_exit_cases (Option.some.inj hexit)
  · rw [← Except.error.inj hr]
    exact ofRet_ne_exceeded ret
  · omega
  · rw [← Except.error.inj hr]
    exact (by decide : Err.writeBufferError ≠ .maxOutputSzExceeded)
  · cases hr

theorem readTurn_unlimited (hlim : 2 ^ 64 - 1 ≤ limit) {fuel : Nat} {s : IStream × Pump I.State}
    {r : Err × OStream} (h : readTurn I limit chunk fuel s = some (.exit r)) :
    r.1 ≠ .maxOutputSzExceeded := by
  have hfinish : (decompressFinish I s.2).1 ≠ .maxOutputSzExceeded := by
    unfold decompressFinish
    dsimp only
    split
    · exact ofRet_ne_exceeded _
    · decide
  unfold readTurn at h
  split at h
  · rwa [← Turn.exit.inj (Option.some.inj h)]
  · dsimp only at h
    split at h
    · rwa [← Turn.exit.inj (Option.some.inj h)]
    · split at h
      · cases h
      · rename_i hloop
        obtain rfl := Turn.exit.inj (Option.some.inj h)
        exact innerLoop_unlimited hlim hloop
      · cases h

/-- The limit of all ones is never passed. -/
theorem decompressStream_unlimited (K : InflateContract F I) (hlim : 2 ^ 64 - 1 ≤ limit)
    {inp : IStream} {out : OStream} (hinp : inp.Good) (hout : out.fail = false) {fuel : Nat}
    {r : Err × OStream} (h : decompressStream I limit chunk fuel out inp = some r) :
    r.1 ≠ .maxOutputSzExceeded := by
  rw [decompressStream_eq limit chunk K hinp hout] at h
  split at h
  · cases h
  · exact repeatUntil_sound (fun _ => True) (fun r => r.1 ≠ .maxOutputSzExceeded)
      (fun _ _ _ _ _ => trivial) (fun _ _ _ _ hexit => readTurn_unlimited hlim hexit) _ _ _ trivial h

/-- What the counts add to the output: at least the part of the buffer
that `avail_out` cannot say. -/
theorem le_sum_havesOf (chunk m : Nat) :
    m + (chunk - toUInt chunk) ≤ (havesOf chunk m).sum := by
  have hdiv := Nat.div_add_mod m (toUInt chunk)
  have hmul : toUInt chunk * (m / toUInt chunk) ≤ m / toUInt chunk * chunk := by
    rw [Nat.mul_comm]
    exact Nat.mul_le_mul_left _ (toUInt_le chunk)
  rw [havesOf, List.sum_append, List.sum_replicate_nat, List.sum_singleton]
  omega

/-- A run on a member that is ok with all of it: the chunk was one
`avail_out` can say. -/
theorem chunk_lt_of_ok (K : InflateContract F I) (hz : F.Member z x) (hc : 1 ≤ chunk)
    (hlen : z.length < 2 ^ 32 ∨ x = []) {inp : IStream} {out o : OStream} (hinp : inp.Good)
    (hrest : inp.rest = z) (hout : out.fail = false) {fuel : Nat}
    (h : decompressStream I limit chunk fuel out inp = some (.ok, o))
    (hw : o.written = out.written ++ x) : chunk < 2 ^ 32 := by
  subst hrest
  have hsum := decompressStream_written K hc hinp hz.ne_nil hout h
  rw [hw, List.length_append, pieces_cons hc hz.ne_nil, counts, List.sum_append] at hsum
  generalize hi : (inp.rest.take chunk).take (toUInt (inp.rest.take chunk).length) = i at hsum
  have hfirst := le_sum_havesOf chunk (due F [] i)
  by_contra hge
  have hrem : toUInt chunk < 2 ^ 32 := Nat.mod_lt _ (Nat.two_pow_pos 32)
  -- all of `x` is due with the first piece
  have hall : x.length ≤ due F [] i := by
    rcases hlen with hlen | rfl
    · have htake : inp.rest.take chunk = inp.rest := List.take_of_length_le (by omega)
      rw [htake, toUInt_eq hlen, List.take_length] at hi
      rw [due, ← hi, List.nil_append, F.dec_nil, hz.dec]
      exact Nat.le_refl _
    · exact Nat.zero_le _
  omega

/-! ## Both -/

/-- **The limit.** For every member `z` of `x` and every chunk size: the
limit is exact in both overloads, whatever it is set to, exactly when the
member is offered whole (or is empty and offered at all), the chunk is
one that `avail_out` can say, and the count cannot come round. -/
theorem limitExact_iff (K : InflateContract F I) (hc : 1 ≤ chunk) (hz : F.Member z x) :
    LimitExact I chunk z x ↔
      (z.length < 2 ^ 32 ∨ x = [] ∧ z.length % 2 ^ 32 ≠ 0) ∧ chunk < 2 ^ 32 ∧ x.length < 2 ^ 64 := by
  constructor
  · intro h
    have hx : x.length < 2 ^ 64 := by
      -- a longer output passes no limit of 64 bits that is all ones
      by_contra hge
      obtain ⟨-, hs⟩ := h (2 ^ 64 - 1) (by decide) (by decide)
      obtain ⟨-, hpast⟩ := hs OStream.empty (IStream.ofBytes z) OStream.open_empty
        (IStream.good_ofBytes z) rfl
      obtain ⟨o, -, ⟨N, hN⟩, -⟩ := hpast (by omega)
      exact decompressStream_unlimited K (Nat.le_refl _) (IStream.good_ofBytes z) rfl
        (hN N (Nat.le_refl _)) rfl
    -- the least limit that `x` keeps to
    obtain ⟨hb, hs⟩ := h (max 1 x.length) (by omega) (by omega)
    have hle : x.length ≤ max 1 x.length := Nat.le_max_right _ _
    have hlen := (bufferExact_iff K hz (by omega) hle).mp hb
    obtain ⟨hok, -⟩ := hs OStream.empty (IStream.ofBytes z) OStream.open_empty
      (IStream.good_ofBytes z) rfl
    obtain ⟨o, ⟨N, hN⟩, hw⟩ := hok hle
    exact ⟨hlen, chunk_lt_of_ok K hz hc (hlen.imp_right And.left) (IStream.good_ofBytes z) rfl rfl
      (hN N (Nat.le_refl _)) hw, hx⟩
  · rintro ⟨hlen, hc', hx⟩ limit h0 -
    refine ⟨?_, streamExact_of_lt K hz hc hc' hx h0⟩
    rcases hlen with hlen | ⟨rfl, hlen⟩
    · exact bufferExact_of_lt K hz hlen h0
    · exact (bufferExact_iff K hz h0 (Nat.zero_le _)).mpr (.inr ⟨rfl, hlen⟩)

/-- Read three bytes at a time, the member of one byte. -/
theorem limitExact_iff_three :
    sampleFormat.Member aMember [0x61] ∧ LimitExact sampleInflater 3 aMember [0x61] :=
  ⟨sampleEnc_member [0x61],
    (limitExact_iff sampleInflater_contract (by decide) (sampleEnc_member [0x61])).mpr (by decide)⟩

/-- One byte, a limit of one byte and a chunk of 2^32: `avail_out` says
none, and `have` says all of it. -/
theorem limit_exceeded_by_chunk :
    sampleFormat.Member aMember [0x61] ∧ ([0x61] : Bytes).length ≤ 1 ∧
      decompressStream sampleInflater 1 (2 ^ 32) 2 OStream.empty (IStream.ofBytes aMember)
        = some (.maxOutputSzExceeded, OStream.empty) ∧
      ¬ StreamExact sampleInflater 1 (2 ^ 32) aMember [0x61] := by
  have hz := sampleEnc_member [0x61]
  refine ⟨hz, by decide, by decide +kernel, fun h => ?_⟩
  obtain ⟨hok, -⟩ := h OStream.empty (IStream.ofBytes aMember) OStream.open_empty
    (IStream.good_ofBytes _) rfl
  obtain ⟨o, ⟨N, hN⟩, hw⟩ := hok (by decide)
  have hc := chunk_lt_of_ok sampleInflater_contract hz (by decide) (.inl (by decide))
    (IStream.good_ofBytes _) rfl rfl (hN N (Nat.le_refl _)) hw
  exact absurd hc (by decide)

end HighJump.Compress.Gzip
