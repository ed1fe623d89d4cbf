/-
HighJump.Compress.GzipRoundTrip — what the stream overload of `compress`
writes, that of `decompress` reads back.

Both directions have an inner loop that moves output and an outer one
that moves input, with chunk sizes of their own. The end of the input is
met in two ways. A short read raises `eofbit`, so the inner loop asks for
`Z_FINISH` and completes the member; an input that is a multiple of the
chunk ends with a read of nothing, and the loop after the outer one
completes it. Either way that last loop runs, from a compression that has
not been finished or from one that has.

Chunk sizes are below 2^32, so zlib is told them as they are. Decompression
is followed with a limit on the output (`Ends`); the round trip sets none.
-/
import HighJump.Compress.GzipStream

namespace HighJump.Compress.Gzip

open HighJump.Lib HighJump.Lib.Zlib

variable {F : Format}

theorem toUInt_eq {n : Nat} (h : n < 2 ^ 32) : toUInt n = n := Nat.mod_eq_of_lt h

theorem take_fill (buf out : Bytes) : (fill buf out).take out.length = out := by
  rw [fill, List.take_left]

theorem length_fill {buf out : Bytes} (h : out.length ≤ buf.length) :
    (fill buf out).length = buf.length := by
  rw [fill, List.length_append, List.length_drop]
  omega

/-! ## Compression -/

section Press

variable {D : Deflater} {L : DeflateContract F D} {chunk : Nat}

/-- The press in the middle of compressing `x`: beyond the `w` that was
there before, `z` has been written. -/
structure Pressing (L : DeflateContract F D) (chunk : Nat) (w x : Bytes) (p : Press D.State)
    (ph : Phase) (z : Bytes) : Prop where
  deflating : Deflating L x ⟨p.state, p.unread, z⟩ ph
  outbuf : p.outbuf.length = chunk
  out : p.out.Open
  written : p.out.written = w ++ z

variable {w x : Bytes} {p : Press D.State} {ph : Phase} {z : Bytes} {flush : Flush}

/-- What has been written is never more than `deflateBound` allows. -/
theorem Pressing.bounded (h : Pressing L chunk w x p ph z) : z.length ≤ L.bound x.length := by
  obtain ⟨c, hat, hx, -⟩ := h.deflating
  refine L.bounded hat x.length ?_
  rw [← hx, List.length_append]
  exact Nat.le_add_right _ _

/-- New input for a press that has read everything. -/
theorem Pressing.offer (h : Pressing L chunk w x p .writing z) (hunread : p.unread = [])
    (i : Bytes) : Pressing L chunk w (x ++ i) { p with unread := i } .writing z := by
  obtain ⟨c, hat, hx, -, -⟩ := h.deflating
  rw [hunread, List.append_nil] at hx
  exact ⟨⟨c, hat, by rw [hx], trivial, nofun⟩, h.outbuf, h.out, h.written⟩

/-- One call: it fills the chunk, or it has read everything, and with
`Z_FINISH` completed the member. -/
theorem Pressing.call (h : Pressing L chunk w x p ph z) (ha : ph.Allows flush p.unread)
    (hc : chunk < 2 ^ 32) :
    ∃ ret out q ph', deflateCall D chunk flush p = (ret, chunk - out.length, q) ∧
      ret ≠ .streamError ∧ out.length ≤ chunk ∧ Pressing L chunk w x q ph' (z ++ out) ∧
      ph'.Allows flush q.unread ∧ (ret = .streamEnd ↔ ph' = .done) ∧
      (out.length < chunk → q.unread = [] ∧ (flush = .finish → ret = .streamEnd)) := by
  obtain ⟨herr, hlen, hnext, hallows, hroom⟩ := deflating_call h.deflating ha chunk
  let r := D.deflate p.state flush p.unread chunk
  have hhave : chunk - (chunk - r.out.length) = r.out.length := Nat.sub_sub_self hlen
  obtain ⟨hopen, hwritten⟩ := OStream.write_open h.out r.out
  refine ⟨r.ret, r.out, ⟨r.state, p.unread.drop r.used, fill p.outbuf r.out, p.out.write r.out⟩,
    Phase.after flush p.unread r, ?_, herr, hlen, ⟨hnext, ?_, hopen, ?_⟩, hallows, ?_, hroom⟩
  · simp only [deflateCall, toUInt_eq hc]
    rw [hhave, take_fill]
  · rw [length_fill (by rw [h.outbuf]; exact hlen), h.outbuf]
  · rw [hwritten, h.written, List.append_assoc]
  · unfold Phase.after
    split
    next hret => exact iff_of_true hret rfl
    next hret => split <;> exact iff_of_false hret nofun

/-- What the press has written, as a measure of the loops: `deflateBound`
is not passed, and a turn that fills the chunk comes nearer. -/
def Press.left (L : DeflateContract F D) (w x : Bytes) (p : Press D.State) : Nat :=
  w.length + L.bound x.length - p.out.written.length

theorem Pressing.left_lt (h : Pressing L chunk w x p ph z) {q : Press D.State} {ph' : Phase}
    {out : Bytes} (hq : Pressing L chunk w x q ph' (z ++ out)) (hout : 0 < out.length) :
    q.left L w x < p.left L w x := by
  have hbound := hq.bounded
  unfold Press.left
  rw [h.written, hq.written]
  simp only [List.length_append] at hbound ⊢
  omega

/-- The press when its piece is read; with `Z_FINISH` the member is
complete. -/
def Pressed (L : DeflateContract F D) (chunk : Nat) (w x : Bytes) (flush : Flush)
    (q : Press D.State) : Prop :=
  ∃ ph z, Pressing L chunk w x q ph z ∧ q.unread = [] ∧ (flush = .finish → ph = .done) ∧
    ph.Allows flush []

/-- One turn of the inner loop. -/
theorem deflateTurn_cases (hc0 : 0 < chunk) (hc : chunk < 2 ^ 32)
    (h : Pressing L chunk w x p ph z) (ha : ph.Allows flush p.unread) :
    (∃ q ph' z', deflateTurn D chunk flush p = .again q ∧ Pressing L chunk w x q ph' z' ∧
      ph'.Allows flush q.unread ∧ q.left L w x < p.left L w x) ∨
    ∃ q, deflateTurn D chunk flush p = .exit (.ok q) ∧ Pressed L chunk w x flush q := by
  obtain ⟨ret, out, q, ph', hcall, herr, hlen, hq, hallows, hend, hroom⟩ := h.call ha hc
  have hok : q.out.ok = true := by simp [OStream.ok, hq.out.fail]
  have hturn : deflateTurn D chunk flush p
      = if chunk - out.length = 0 then .again q else .exit (.ok q) := by
    unfold deflateTurn
    rw [hcall]
    cases ret with
    | streamError => exact absurd rfl herr
    | ok | streamEnd | needDict | dataError | memError | bufError | versionError => simp [hok]
  by_cases hfull : chunk - out.length = 0
  · rw [if_pos hfull] at hturn
    exact .inl ⟨q, ph', _, hturn, hq, hallows, h.left_lt hq (by omega)⟩
  · rw [if_neg hfull] at hturn
    obtain ⟨hunread, hfin⟩ := hroom (by omega)
    rw [hunread] at hallows
    exact .inr ⟨q, hturn, ph', _, hq, hunread, fun hf => hend.mp (hfin hf), hallows⟩

/-- **The inner loop** of `compress` reads all of its piece; with
`Z_FINISH` it completes the member. -/
theorem deflateLoop_returns (flush : Flush) (hc0 : 0 < chunk) (hc : chunk < 2 ^ 32)
    (h : Pressing L chunk w x p ph z) (ha : ph.Allows flush p.unread) :
    ∃ q, Returns (fun fuel => repeatUntil (fun _ p => some (deflateTurn D chunk flush p)) fuel p)
      (.ok q) ∧ Pressed L chunk w x flush q := by
  obtain ⟨e, he, q, rfl, hq⟩ := repeatUntil_spec
    (fun p => ∃ ph z, Pressing L chunk w x p ph z ∧ ph.Allows flush p.unread)
    (fun e : Except (Err × OStream) (Press D.State) =>
      ∃ q, e = .ok q ∧ Pressed L chunk w x flush q) (Press.left L w x)
    (fun (_ : Nat) p hI => by
      obtain ⟨ph, z, hp, ha⟩ := hI
      rcases deflateTurn_cases hc0 hc hp ha with
        ⟨q, ph', z', hturn, hq, hallows, hlt⟩ | ⟨q, hturn, hq⟩
      · exact .inl ⟨q, congrArg some hturn, ⟨ph', z', hq, hallows⟩, hlt⟩
      · exact .inr ⟨_, congrArg some hturn, q, rfl, hq⟩)
    _ p ⟨ph, z, h, ha⟩ (Nat.lt_succ_self _)
  exact ⟨q, (turns_mono _).returns he, hq⟩

/-- One turn of the last loop. -/
theorem finishTurn_cases (hc0 : 0 < chunk) (hc : chunk < 2 ^ 32)
    (h : Pressing L chunk w x p ph z) :
    (∃ q ph' z', finishTurn D chunk p = .again q ∧ Pressing L chunk w x q ph' z' ∧
      q.left L w x < p.left L w x) ∨
    ∃ o z', finishTurn D chunk p = .exit (.ok, o) ∧ F.Member z' x ∧ o.Open ∧
      o.written = w ++ z' := by
  obtain ⟨-, -, -, ha, -⟩ := h.deflating
  obtain ⟨ret, out, q, ph', hcall, -, hlen, hq, -, hend, hroom⟩ := h.call ha hc
  have hturn : finishTurn D chunk p
      = if ret = .streamEnd then .exit (.ok, q.out) else .again q := by
    unfold finishTurn
    rw [hcall]
    cases ret <;> rfl
  by_cases hret : ret = .streamEnd
  · rw [if_pos hret] at hturn
    obtain ⟨-, -, -, -, hmem⟩ := hq.deflating
    exact .inr ⟨q.out, _, hturn, hmem (hend.mp hret), hq.out, hq.written⟩
  · rw [if_neg hret] at hturn
    -- the member is not complete, so the chunk was filled
    have hfull : ¬ out.length < chunk := fun hlt => hret ((hroom hlt).2 rfl)
    exact .inl ⟨q, ph', _, hturn, hq, h.left_lt hq (by omega)⟩

/-- **The last loop** completes the member, or finds it complete. -/
theorem finishLoop_returns (hc0 : 0 < chunk) (hc : chunk < 2 ^ 32)
    (h : Pressing L chunk w x p ph z) :
    ∃ o z', Returns (fun fuel => repeatUntil (fun _ p => some (finishTurn D chunk p)) fuel p)
        (.ok, o) ∧ F.Member z' x ∧ o.Open ∧ o.written = w ++ z' := by
  obtain ⟨r, hr, o, z', rfl, hz⟩ := repeatUntil_spec
    (fun p => ∃ ph z, Pressing L chunk w x p ph z)
    (fun r : Err × OStream => ∃ o z, r = (.ok, o) ∧ F.Member z x ∧ o.Open ∧ o.written = w ++ z)
    (Press.left L w x)
    (fun (_ : Nat) p hI => by
      obtain ⟨ph, z, hp⟩ := hI
      rcases finishTurn_cases hc0 hc hp with ⟨q, ph', z', hturn, hq, hlt⟩ | ⟨o, z', hturn, hz⟩
      · exact .inl ⟨q, congrArg some hturn, ⟨ph', z', hq⟩, hlt⟩
      · exact .inr ⟨_, congrArg some hturn, o, z', rfl, hz⟩)
    _ p ⟨ph, z, h⟩ (Nat.lt_succ_self _)
  exact ⟨o, z', (turns_mono _).returns hr, hz⟩

/-! ## The outer loop of `compress` -/

/-- With nothing left to read the last loop decides. -/
theorem pressTurn_nil {inp : IStream} (hholds : inp.Holds []) (hc0 : 0 < chunk) {r : Err × OStream}
    (h : Returns (fun fuel => repeatUntil (fun _ p => some (finishTurn D chunk p)) fuel p) r) :
    Returns (fun fuel => pressTurn D chunk fuel (inp, p)) (.exit r) := by
  obtain ⟨N, hN⟩ := h
  refine ⟨N, fun fuel hle => ?_⟩
  have hfin : compressFinish D chunk fuel p = some (.exit r) :=
    congrArg (Option.map Turn.exit) (hN fuel hle)
  rcases IStream.read_none hholds hc0 with hok | ⟨hok, inp', hread⟩
  · simp [pressTurn, hok, hfin]
  · simp [pressTurn, hok, hread, hfin]

/-- A piece that the inner loop reads. -/
theorem pressTurn_again {inp inp' : IStream} {got : Bytes} {q : Press D.State}
    (hok : inp.ok = true) (hread : inp.read chunk = (inp', got)) (hgot : got ≠ [])
    (hlen : got.length < 2 ^ 32)
    (h : Returns (fun fuel => repeatUntil (fun _ p => some (deflateTurn D chunk
      (if inp'.eof then .finish else .noFlush) p)) fuel { p with unread := got }) (.ok q)) :
    Returns (fun fuel => pressTurn D chunk fuel (inp, p)) (.again (inp', q)) := by
  obtain ⟨N, hN⟩ := h
  refine ⟨N, fun fuel hle => ?_⟩
  have hN := hN fuel hle
  have htake : got.take (toUInt got.length) = got := by rw [toUInt_eq hlen, List.take_length]
  simp only [pressTurn, hok, hread, htake, hN, List.length_eq_zero_iff, hgot, Bool.not_true,
    Bool.false_eq_true, if_false]

/-- **The outer loop** of `compress`: from a press that has read `fed`,
with the rest of the stream still to come, it ends with one member of
both. -/
theorem pressLoop_returns (hc0 : 0 < chunk) (hc : chunk < 2 ^ 32) {rest fed : Bytes}
    {inp : IStream} (hgood : inp.Good) (hrest : inp.rest = rest)
    (hp : Pressing L chunk w fed p .writing z) (hunread : p.unread = []) :
    ∃ o z', Returns (fun fuel => repeatUntil (pressTurn D chunk) fuel (inp, p)) (.ok, o) ∧
      F.Member z' (fed ++ rest) ∧ o.Open ∧ o.written = w ++ z' := by
  induction hn : rest.length using Nat.strongRecOn generalizing rest fed inp p z with
  | ind n ih =>
    have hok : inp.ok = true := by simp [IStream.ok, hgood.fail]
    by_cases hne : rest = []
    · -- a read of nothing: the last loop finishes
      subst hne
      obtain ⟨o, z', hr, hz⟩ := finishLoop_returns hc0 hc hp
      rw [List.append_nil]
      exact ⟨o, z', .repeat_exit (pressTurn_nil (.inl ⟨hgood, hrest⟩) hc0 hr), hz⟩
    by_cases hfull : chunk ≤ rest.length
    · -- a full read: the stream stays good and the compression goes on
      obtain ⟨inp', hread, hgood', hrest'⟩ := IStream.read_take hgood (hrest ▸ hfull)
      rw [hrest] at hread hrest'
      have hlen : (rest.take chunk).length = chunk := by
        rw [List.length_take, Nat.min_eq_left hfull]
      have hgot : rest.take chunk ≠ [] := by
        intro h0
        rw [h0, List.length_nil] at hlen
        omega
      obtain ⟨q, hloop, ph, z', hq, hqun, -, hallows⟩ := deflateLoop_returns .noFlush
        hc0 hc (hp.offer hunread (rest.take chunk)) trivial
      obtain rfl := hallows.writing
      have hturn := pressTurn_again (D := D) (p := p) hok hread hgot (by omega)
        (by rw [hgood'.eof]; exact hloop)
      obtain ⟨o, z'', hr, hz⟩ := ih (rest.drop chunk).length (by rw [List.length_drop]; omega)
        hgood' hrest' hq hqun rfl
      rw [List.append_assoc, List.take_append_drop] at hz
      exact ⟨o, z'', .repeat_again hturn hr, hz⟩
    · -- a short read: the inner loop finishes
      obtain ⟨inp', hread, hfail, heof⟩ := IStream.read_short hgood (n := chunk)
        (by rw [hrest]; omega)
      rw [hrest] at hread
      obtain ⟨q, hloop, ph, z', hq, -, -, -⟩ := deflateLoop_returns .finish
        hc0 hc (hp.offer hunread rest) trivial
      have hturn := pressTurn_again (D := D) (p := p) hok hread hne (by omega)
        (by rw [heof]; exact hloop)
      obtain ⟨o, z'', hr, hz⟩ := finishLoop_returns hc0 hc hq
      exact ⟨o, z'', .repeat_again hturn
        (.repeat_exit (pressTurn_nil (.inr ⟨hfail, rfl⟩) hc0 hr)), hz⟩

/-- **The stream overload of `compress`** writes one complete member and
returns ok. -/
theorem compressStream_returns (L : DeflateContract F D) (hc0 : 0 < chunk) (hc : chunk < 2 ^ 32)
    {lvl mem : Int} (hinit : (D.init lvl mem).1 = .ok) {inp : IStream} (hinp : inp.Good)
    {out : OStream} (hout : out.Open) :
    ∃ o z, Returns (fun fuel => compressStream D chunk fuel out inp lvl mem) (.ok, o) ∧
      F.Member z inp.rest ∧ o.Open ∧ o.written = out.written ++ z := by
  have hstart : Pressing L chunk out.written [] ⟨(D.init lvl mem).2, [], List.replicate chunk 0, out⟩
      .writing [] :=
    ⟨⟨[], L.init lvl mem hinit, rfl, trivial, nofun⟩, List.length_replicate, hout,
      (List.append_nil _).symm⟩
  obtain ⟨o, z, hr, hz⟩ := pressLoop_returns hc0 hc hinp rfl hstart rfl
  refine ⟨o, z, ?_, hz⟩
  have hvec : ¬ chunk > maxVector := by
    have : maxVector = 2 ^ 63 - 1 := rfl
    omega
  simpa [compressStream, IStream.ok, OStream.ok, hinp.fail, hout.fail, hinit, hvec] using hr

end Press

/-! ## Decompression -/

section Pump

variable {I : Inflater} {K : InflateContract F I} {chunk : Nat}

/-- The pump after the decoder was offered `T`: beyond `w`, all of its
output but the last `m` bytes has been written and counted, and the limit
has not been passed. -/
structure Pumping (K : InflateContract F I) (limit chunk : Nat) (w T : Bytes) (p : Pump I.State)
    (m : Nat) : Prop where
  feeding : Feeding K T p.state p.unread m
  outbuf : p.outbuf.length = chunk
  out : p.out.Open
  written : p.out.written ++ (F.dec T).drop ((F.dec T).length - m) = w ++ F.dec T
  totalOut : p.totalOut = ((F.dec T).length - m) % 2 ^ 64
  within : 0 < limit → p.totalOut ≤ limit

variable {limit : Nat} {w T : Bytes} {p : Pump I.State} {m : Nat}

/-- The pump when all that its input determines is written: new input can
be offered, and at the end of the member the last answer says so. -/
structure Pumped (K : InflateContract F I) (limit chunk : Nat) (w T : Bytes) (q : Pump I.State) :
    Prop where
  feeding : Feeding K T q.state [] 0
  outbuf : q.outbuf.length = chunk
  out : q.out.Open
  written : q.out.written = w ++ F.dec T
  totalOut : q.totalOut = (F.dec T).length % 2 ^ 64
  within : 0 < limit → q.totalOut ≤ limit
  ret : F.status T = .done → q.ret = .streamEnd

/-- The limit stopped the run: a count that passed it was not written. -/
structure Stopped (F : Format) (limit : Nat) (w T : Bytes) (o : OStream) : Prop where
  limited : 0 < limit
  passed : ∃ k n, o.written = w ++ (F.dec T).take k ∧ k ≤ n ∧ n ≤ (F.dec T).length ∧
    k % 2 ^ 64 ≤ limit ∧ limit < n % 2 ^ 64

/-- New input. -/
theorem Pumped.offer (h : Pumped K limit chunk w T p) (i : Bytes) :
    Pumping K limit chunk w (T ++ i) { p with unread := i } (due F T i) := by
  have hmono := F.dec_mono T i
  have hlen : (F.dec (T ++ i)).length - due F T i = (F.dec T).length := by
    have := hmono.length_le
    unfold due
    omega
  refine ⟨h.feeding.offer i, h.outbuf, h.out, ?_, by rw [hlen]; exact h.totalOut, h.within⟩
  rw [hlen, h.written, List.append_assoc]
  congr 1
  obtain ⟨t, ht⟩ := hmono
  rw [← ht, List.drop_left]

/-- What has been written is what is not due. -/
theorem Pumping.written_eq (h : Pumping K limit chunk w T p m) :
    p.out.written = w ++ (F.dec T).take ((F.dec T).length - m) := by
  have hsplit := h.written
  conv at hsplit => rhs; rw [← List.take_append_drop ((F.dec T).length - m) (F.dec T)]
  rw [← List.append_assoc] at hsplit
  exact List.append_cancel_right hsplit

/-- What is passed stays passed when more is read. -/
theorem Stopped.mono {o : OStream} (h : Stopped F limit w T o) {t z : Bytes} (hz : T ++ t = z) :
    Stopped F limit w z o := by
  obtain ⟨h0, k, n, hwritten, hkn, hn, hk, hlim⟩ := h
  obtain ⟨d, hd⟩ := F.dec_mono T t
  rw [hz] at hd
  refine ⟨h0, k, n, ?_, hkn, ?_, hk, hlim⟩
  · rw [hwritten, ← hd, List.take_append_of_le_length (by omega)]
  · rw [← hd, List.length_append]
    omega

/-- One turn of the inner loop: it fills the chunk, or all is written, or
the limit is passed. -/
theorem inflateTurn_cases (hc0 : 0 < chunk) (hc : chunk < 2 ^ 32)
    (h : Pumping K limit chunk w T p m) (hst : F.status T ≠ .bad) :
    (chunk ≤ m ∧ inflateTurn I limit chunk p = .again (p.next chunk) ∧
      Pumping K limit chunk w T (p.next chunk) (m - chunk)) ∨
    (inflateTurn I limit chunk p = .exit (.ok (p.next chunk)) ∧
      Pumped K limit chunk w T (p.next chunk)) ∨
    ∃ o, inflateTurn I limit chunk p = .exit (.error (.maxOutputSzExceeded, o)) ∧
      Stopped F limit w T o := by
  have hu := toUInt_eq hc
  have hlen := length_call_out h.feeding chunk
  have hdue : m ≤ (F.dec T).length := by
    obtain ⟨c, d, -, -, -, hsum⟩ := h.feeding
    omega
  obtain ⟨hopen, hwritten⟩ :=
    OStream.write_open h.out (I.inflate p.state p.unread chunk).out
  have hnext : p.next chunk = ⟨(I.inflate p.state p.unread chunk).state,
      p.unread.drop (I.inflate p.state p.unread chunk).used,
      fill p.outbuf (I.inflate p.state p.unread chunk).out,
      p.out.write (I.inflate p.state p.unread chunk).out,
      (p.totalOut + (I.inflate p.state p.unread chunk).out.length) % 2 ^ 64,
      (I.inflate p.state p.unread chunk).ret⟩ := by
    simp only [Pump.next, hu, Nat.sub_self, Nat.zero_add]
    rw [take_fill]
  have hfill : (fill p.outbuf (I.inflate p.state p.unread chunk).out).length = chunk := by
    rw [length_fill (by rw [h.outbuf, hlen]; exact Nat.min_le_left _ _), h.outbuf]
  -- the count after the turn
  have htotal : (p.totalOut + (I.inflate p.state p.unread chunk).out.length) % 2 ^ 64
      = ((F.dec T).length - (m - chunk)) % 2 ^ 64 := by
    rw [h.totalOut, hlen]
    omega
  have hturn := inflateTurn_of_ret limit (by rw [hu]; exact call_ret h.feeding chunk hc0 hst)
    (show (I.inflate p.state p.unread (toUInt chunk)).out.length = min chunk m by rw [hu, hlen])
    (by rw [hu]; exact Nat.min_le_left _ _)
  rw [hu, Nat.sub_self, Nat.zero_add, ← hlen, htotal] at hturn
  have hok : (p.next chunk).out.ok = true := by rw [hnext]; simp [OStream.ok, hopen.fail]
  by_cases hlim : limit > 0 ∧ ((F.dec T).length - (m - chunk)) % 2 ^ 64 > limit
  · rw [if_pos hlim] at hturn
    refine .inr (.inr ⟨p.out, hturn, hlim.1, (F.dec T).length - m, (F.dec T).length - (m - chunk),
      h.written_eq, by omega, by omega, ?_, hlim.2⟩)
    rw [← h.totalOut]
    exact h.within hlim.1
  rw [if_neg hlim, hok, if_neg (by simp)] at hturn
  have hwithin (h0 : 0 < limit) : ((F.dec T).length - (m - chunk)) % 2 ^ 64 ≤ limit :=
    Nat.le_of_not_lt fun hgt => hlim ⟨h0, hgt⟩
  have hstep := call_step h.feeding chunk
  have happend := call_out_append h.feeding chunk
  by_cases hfull : chunk ≤ m
  · rw [if_pos (by omega)] at hturn
    refine .inl ⟨hfull, hturn, ?_⟩
    rw [hnext]
    refine ⟨hstep, hfill, hopen, ?_, htotal, fun h0 => ?_⟩
    · rw [hwritten, List.append_assoc, happend, h.written]
    · rw [htotal]
      exact hwithin h0
  · rw [if_neg (by omega)] at hturn
    have hle : m ≤ chunk := by omega
    rw [Nat.sub_eq_zero_of_le hle, Nat.sub_zero] at htotal hwithin
    refine .inr (.inl ⟨hturn, ?_⟩)
    rw [hnext]
    refine ⟨call_last h.feeding chunk hle hst, hfill, hopen, ?_, htotal, fun h0 => ?_,
      call_streamEnd h.feeding chunk hle⟩
    · rw [hwritten, call_out_all h.feeding chunk hle, h.written]
    · rw [htotal]
      exact hwithin h0

/-- **The inner loop** of `decompress` writes all that its input
determines, or stops at the limit. -/
theorem inflateLoop_returns (hc0 : 0 < chunk) (hc : chunk < 2 ^ 32) (hst : F.status T ≠ .bad)
    (h : Pumping K limit chunk w T p m) :
    (∃ q, Returns (fun fuel => repeatUntil (fun _ p => some (inflateTurn I limit chunk p)) fuel p)
      (.ok q) ∧ Pumped K limit chunk w T q) ∨
    ∃ o, Returns (fun fuel => repeatUntil (fun _ p => some (inflateTurn I limit chunk p)) fuel p)
      (.error (.maxOutputSzExceeded, o)) ∧ Stopped F limit w T o := by
  induction m using Nat.strongRecOn generalizing p with
  | ind m ih =>
    rcases inflateTurn_cases hc0 hc h hst with ⟨hfull, hturn, hnext⟩ | ⟨hturn, hnext⟩ |
      ⟨o, hturn, hstop⟩
    · have hagain : Returns (fun _ => some (inflateTurn I limit chunk p)) (.again (p.next chunk)) :=
        ⟨0, fun _ _ => congrArg some hturn⟩
      rcases ih (m - chunk) (by omega) hnext with ⟨q, hrest, hq⟩ | ⟨o, hrest, hstop⟩
      · exact .inl ⟨q, .repeat_again hagain hrest, hq⟩
      · exact .inr ⟨o, .repeat_again hagain hrest, hstop⟩
    · exact .inl ⟨_, .repeat_exit ⟨0, fun _ _ => congrArg some hturn⟩, hnext⟩
    · exact .inr ⟨o, .repeat_exit ⟨0, fun _ _ => congrArg some hturn⟩, hstop⟩

/-- How `decompress` ends on a member `z` of `x`. -/
def Ends (F : Format) (limit : Nat) (w z x : Bytes) (r : Err × OStream) : Prop :=
  (r.1 = .ok ∧ r.2.written = w ++ x ∧ (0 < limit → x.length % 2 ^ 64 ≤ limit)) ∨
    (r.1 = .maxOutputSzExceeded ∧ Stopped F limit w z r.2)

/-- **The outer loop** of `decompress` on the rest of a member. -/
theorem readLoop_returns (hc0 : 0 < chunk) (hc : chunk < 2 ^ 32) {z x : Bytes}
    (hz : F.Member z x) {rest fed : Bytes} {inp : IStream} (hfed : fed ++ rest = z)
    (hholds : inp.Holds rest) (hp : Pumped K limit chunk w fed p) :
    ∃ r, Returns (fun fuel => repeatUntil (readTurn I limit chunk) fuel (inp, p)) r ∧
      Ends F limit w z x r := by
  induction hn : rest.length using Nat.strongRecOn generalizing rest fed inp p with
  | ind n ih =>
    by_cases hne : rest = []
    · -- the member has been read, and its end was the last answer
      subst hne
      rw [List.append_nil] at hfed
      subst hfed
      refine ⟨(.ok, p.out), .repeat_exit ⟨0, fun fuel _ => ?_⟩, .inl ⟨rfl, ?_, ?_⟩⟩
      · have hret := hp.ret hz.done
        have hturn : readTurn I limit chunk fuel (inp, p) = some (.exit (decompressFinish I p)) :=
          readTurn_nil hholds hc0 fuel p
        rwa [decompressFinish, if_neg fun h => h hret] at hturn
      · rw [hp.written, hz.dec]
      · rw [← hz.dec, ← hp.totalOut]
        exact hp.within
    · obtain ⟨hok, inp', hread, hholds'⟩ := IStream.read_chunk chunk hholds hne
      have hpos : 0 < rest.length := List.length_pos_of_ne_nil hne
      have hlen : (rest.take chunk).length ≤ chunk := List.length_take_le _ _
      have hgot : rest.take chunk ≠ [] := by
        intro h0
        have h0 := congrArg List.length h0
        rw [List.length_take, List.length_nil] at h0
        omega
      have hfed' : (fed ++ rest.take chunk) ++ rest.drop chunk = z := by
        rw [List.append_assoc, List.take_append_drop, hfed]
      have htake : (rest.take chunk).take (toUInt (rest.take chunk).length) = rest.take chunk := by
        rw [toUInt_eq (by omega), List.take_length]
      rcases inflateLoop_returns hc0 hc (hz.status_ne_bad hfed') (hp.offer (rest.take chunk)) with
        ⟨q, ⟨N, hN⟩, hq⟩ | ⟨o, ⟨N, hN⟩, hstop⟩
      · have hturn : Returns (fun fuel => readTurn I limit chunk fuel (inp, p))
            (.again (inp', q)) := by
          refine ⟨N, fun fuel hle => ?_⟩
          have hN := hN fuel hle
          simp only [readTurn, hok, hread, htake, hN, List.length_eq_zero_iff, hgot, Bool.not_true,
            Bool.false_eq_true, if_false]
        obtain ⟨r, hrest, hr⟩ := ih (rest.drop chunk).length (by rw [List.length_drop]; omega) hfed'
          hholds' hq rfl
        exact ⟨r, .repeat_again hturn hrest, hr⟩
      · refine ⟨(.maxOutputSzExceeded, o), .repeat_exit ⟨N, fun fuel hle => ?_⟩,
          .inr ⟨rfl, hstop.mono hfed'⟩⟩
        have hN := hN fuel hle
        simp only [readTurn, hok, hread, htake, hN, List.length_eq_zero_iff, hgot, Bool.not_true,
          Bool.false_eq_true, if_false]

/-- **The stream overload of `decompress`** on a member. -/
theorem decompressStream_ends (K : InflateContract F I) (limit : Nat) (hc0 : 0 < chunk)
    (hc : chunk < 2 ^ 32) {x : Bytes} {inp : IStream} (hinp : inp.Good) (hz : F.Member inp.rest x)
    {out : OStream} (hout : out.Open) :
    ∃ r, Returns (fun fuel => decompressStream I limit chunk fuel out inp) r ∧
      Ends F limit out.written inp.rest x r := by
  have hstart : Pumped K limit chunk out.written []
      ⟨I.init.2, [], List.replicate chunk 0, out, 0, .ok⟩ := by
    refine ⟨feeding_init K, List.length_replicate, hout, ?_, ?_, fun _ => Nat.zero_le _,
      fun hdone => ?_⟩
    · rw [F.dec_nil, List.append_nil]
    · rw [F.dec_nil]
      rfl
    · rw [F.status_nil] at hdone
      cases hdone
  obtain ⟨r, hr, hends⟩ := readLoop_returns hc0 hc hz (List.nil_append _) (.inl ⟨hinp, rfl⟩) hstart
  refine ⟨r, ?_, hends⟩
  have hvec : ¬ chunk > maxVector := by
    have : maxVector = 2 ^ 63 - 1 := rfl
    omega
  simpa [decompressStream, IStream.ok, OStream.ok, hinp.fail, hout.fail, K.init_ok, hvec] using hr

/-- Without a limit it reads back the member. -/
theorem decompressStream_returns (K : InflateContract F I) (hc0 : 0 < chunk) (hc : chunk < 2 ^ 32)
    {x : Bytes} {inp : IStream} (hinp : inp.Good) (hz : F.Member inp.rest x) {out : OStream}
    (hout : out.Open) :
    ∃ o, Returns (fun fuel => decompressStream I 0 chunk fuel out inp) (.ok, o) ∧
      o.written = out.written ++ x := by
  obtain ⟨⟨e, o⟩, hr, ⟨rfl, hw, -⟩ | ⟨-, hstop⟩⟩ := decompressStream_ends K 0 hc0 hc hinp hz hout
  · exact ⟨o, hr, hw⟩
  · exact absurd hstop.limited (Nat.lt_irrefl 0)

end Pump

/-! ## The round trip -/

/-- **The stream round trip.** For every input and all chunk sizes from 1
up to 2^32, `compress` returns ok and writes one complete member of the
input, and `decompress` without a limit returns ok on that member and
writes the input. -/
theorem decompressStream_compressStream {I : Inflater} {D : Deflater} (K : InflateContract F I)
    (L : DeflateContract F D) {c d : Nat} (hc0 : 1 ≤ c) (hc : c < 2 ^ 32) (hd0 : 1 ≤ d)
    (hd : d < 2 ^ 32) {lvl mem : Int} (hinit : (D.init lvl mem).1 = .ok) {inp : IStream}
    (hinp : inp.Good) {out : OStream} (hout : out.Open) :
    ∃ o z, Returns (fun fuel => compressStream D c fuel out inp lvl mem) (.ok, o) ∧
      o.written = out.written ++ z ∧ F.Member z inp.rest ∧
      ∀ (inp' : IStream) (out' : OStream), inp'.Good → inp'.rest = z → out'.Open →
        ∃ o', Returns (fun fuel => decompressStream I 0 d fuel out' inp') (.ok, o') ∧
          o'.written = out'.written ++ inp.rest := by
  obtain ⟨o, z, hr, hz, -, hw⟩ := compressStream_returns L hc0 hc hinit hinp hout
  refine ⟨o, z, hr, hw, hz, fun inp' out' hinp' hrest hout' => ?_⟩
  subst hrest
  exact decompressStream_returns K hd0 hd hinp' hz hout'

/-- One byte, written a byte at a time and read three at a time. -/
theorem decompressStream_compressStream_one :
    ∃ o z, Returns (fun fuel => compressStream sampleDeflater 1 fuel OStream.empty
        (IStream.ofBytes [0x61]) (-1) 8) (.ok, o) ∧
      o.written = [] ++ z ∧ sampleFormat.Member z [0x61] ∧
      ∀ (inp : IStream) (out : OStream), inp.Good → inp.rest = z → out.Open →
        ∃ o', Returns (fun fuel => decompressStream sampleInflater 0 3 fuel out inp) (.ok, o') ∧
          o'.written = out.written ++ [0x61] :=
  decompressStream_compressStream sampleInflater_contract sampleDeflater_contract (by decide)
    (by decide) (by decide) (by decide) rfl (IStream.good_ofBytes _) OStream.open_empty

end HighJump.Compress.Gzip
