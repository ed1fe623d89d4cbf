/-
HighJump.Compress.GzipWrites — what the stream overload of `compress`
reports when the output stream stops taking bytes.

zlib does not see the output stream, so a run offers the same bytes to
every stream: `Gm` from the loop that reads, which looks at the stream
after every write, and then `Gf` from the loop that ends the compression,
which never does. `compressStream_writes` is that run for all streams at
once. A stream that takes `Gm` and not all of `Gf` ends with ok, and what
it holds then is no member; so the code is right for every stream exactly
if there is no `Gf`.

Chunk sizes from 2^32 on are told to zlib modulo 2^32, while the whole
`chunk_size - avail_out` bytes of the buffer are written.
-/
import HighJump.Compress.GzipRoundTrip

namespace HighJump.Compress.Gzip

open HighJump.Lib HighJump.Lib.Zlib

variable {F : Format}

/-! ## One call, whatever the stream -/

/-- A press with another output stream. -/
def Press.onto {σ : Type} (p : Press σ) (o : OStream) : Press σ := { p with out := o }

section Writes

variable {D : Deflater} {L : DeflateContract F D} {chunk : Nat}

/-- The press in the middle of compressing `x`, the output stream left
aside: zlib has put out `z`. -/
structure Running (L : DeflateContract F D) (chunk : Nat) (x : Bytes) (p : Press D.State)
    (ph : Phase) (z : Bytes) : Prop where
  deflating : Deflating L x ⟨p.state, p.unread, z⟩ ph
  outbuf : p.outbuf.length = chunk

variable {x : Bytes} {p : Press D.State} {ph : Phase} {z : Bytes} {flush : Flush}

theorem Running.bounded (h : Running L chunk x p ph z) : z.length ≤ L.bound x.length := by
  obtain ⟨c, hat, hx, -⟩ := h.deflating
  refine L.bounded hat x.length ?_
  rw [← hx, List.length_append]
  exact Nat.le_add_right _ _

/-- New input for a press that has read everything. -/
theorem Running.offer (h : Running L chunk x p .writing z) (hunread : p.unread = []) (i : Bytes) :
    Running L chunk (x ++ i) { p with unread := i } .writing z := by
  obtain ⟨c, hat, hx, -, -⟩ := h.deflating
  rw [hunread, List.append_nil] at hx
  exact ⟨⟨c, hat, by rw [hx], trivial, nofun⟩, h.outbuf⟩

/-- One call writes `G`, which is what zlib has put out if the chunk size is
told as it is, and more than nothing if not. -/
theorem Running.call (h : Running L chunk x p ph z) (ha : ph.Allows flush p.unread) :
    ∃ ret out G q ph',
      (∀ o, deflateCall D chunk flush (p.onto o) =
        (ret, toUInt chunk - out.length, q.onto (o.write G))) ∧
      ret ≠ .streamError ∧ Running L chunk x q ph' (z ++ out) ∧ ph'.Allows flush q.unread ∧
      (ret = .streamEnd ↔ ph' = .done) ∧ out.length ≤ toUInt chunk ∧
      (out.length < toUInt chunk → q.unread = [] ∧ (flush = .finish → ret = .streamEnd)) ∧
      (chunk < 2 ^ 32 → G = out) ∧ (2 ^ 32 ≤ chunk → G ≠ []) := by
  obtain ⟨herr, hlen, hnext, hallows, hroom⟩ := deflating_call h.deflating ha (toUInt chunk)
  let r := D.deflate p.state flush p.unread (toUInt chunk)
  have hle : toUInt chunk ≤ chunk := Nat.mod_le _ _
  have hfill : (fill p.outbuf r.out).length = chunk := by
    rw [length_fill (by rw [h.outbuf]; exact Nat.le_trans hlen hle), h.outbuf]
  refine ⟨r.ret, r.out, (fill p.outbuf r.out).take (chunk - (toUInt chunk - r.out.length)),
    ⟨r.state, p.unread.drop r.used, fill p.outbuf r.out, p.out⟩, Phase.after flush p.unread r,
    fun o => rfl, herr, ⟨hnext, hfill⟩, hallows, ?_, hlen, hroom, ?_, ?_⟩
  · unfold Phase.after
    split
    next hret => exact iff_of_true hret rfl
    next hret => split <;> exact iff_of_false hret nofun
  · intro hc
    have hhave : chunk - (toUInt chunk - r.out.length) = r.out.length := by
      have hput : r.out.length ≤ toUInt chunk := hlen
      have hw := toUInt_eq hc
      omega
    rw [hhave, take_fill]
  · intro hc hnil
    have hlt : toUInt chunk < 2 ^ 32 := Nat.mod_lt _ (by decide)
    have hzero := congrArg List.length hnil
    rw [List.length_take, hfill, List.length_nil] at hzero
    omega

/-! ## The inner loop -/

/-- The inner loop takes `p` to `q` and offers `G` to the stream: it goes on
if the stream takes that, and returns from the function if not. -/
def Feeds (D : Deflater) (chunk : Nat) (flush : Flush) (p q : Press D.State) (G : Bytes) : Prop :=
  ∀ o, ((o.write G).ok = true →
      Returns (fun fuel => repeatUntil (fun _ p => some (deflateTurn D chunk flush p)) fuel
        (p.onto o)) (.ok (q.onto (o.write G)))) ∧
    ((o.write G).ok = false → ∃ o',
      Returns (fun fuel => repeatUntil (fun _ p => some (deflateTurn D chunk flush p)) fuel
        (p.onto o)) (.error (.writeBufferError, o')))

/-- One turn that writes `G` and leaves `left` bytes of the room. -/
def FeedTurn (D : Deflater) (chunk : Nat) (flush : Flush) (p q : Press D.State) (G : Bytes)
    (left : Nat) : Prop :=
  ∀ o, deflateTurn D chunk flush (p.onto o) =
    if !(o.write G).ok then .exit (.error (.writeBufferError, o.write G))
    else if left = 0 then .again (q.onto (o.write G))
    else .exit (.ok (q.onto (o.write G)))

section FeedTurn

variable {q q' : Press D.State} {G G' : Bytes} {left : Nat}

theorem FeedTurn.refused (h : FeedTurn D chunk flush p q G left) {o : OStream}
    (hok : (o.write G).ok = false) :
    Returns (fun fuel => repeatUntil (fun _ p => some (deflateTurn D chunk flush p)) fuel
      (p.onto o)) (.error (.writeBufferError, o.write G)) := by
  refine .repeat_exit ⟨0, fun _ _ => congrArg some ?_⟩
  rw [h, hok]
  rfl

/-- Room was left: the last turn. -/
theorem FeedTurn.feeds (h : FeedTurn D chunk flush p q G left) (hleft : left ≠ 0) :
    Feeds D chunk flush p q G := by
  refine fun o => ⟨fun hok => ?_, fun hok => ⟨_, h.refused hok⟩⟩
  refine .repeat_exit ⟨0, fun _ _ => congrArg some ?_⟩
  rw [h, hok, if_neg hleft]
  rfl

/-- The room was filled: another turn. -/
theorem FeedTurn.trans (h : FeedTurn D chunk flush p q G 0) (hrest : Feeds D chunk flush q q' G') :
    Feeds D chunk flush p q' (G ++ G') := by
  have hagain : ∀ o, (o.write G).ok = true →
      deflateTurn D chunk flush (p.onto o) = .again (q.onto (o.write G)) := by
    intro o hok
    rw [h, hok, if_pos rfl]
    rfl
  intro o
  constructor
  · intro hok
    rw [OStream.write_append] at hok ⊢
    refine .repeat_again ⟨0, fun _ _ => congrArg some ?_⟩ ((hrest (o.write G)).1 hok)
    exact hagain o (OStream.ok_of_write hok)
  · intro hok
    rw [OStream.write_append] at hok
    cases hfirst : (o.write G).ok with
    | false => exact ⟨_, h.refused hfirst⟩
    | true =>
      obtain ⟨o', hret⟩ := (hrest (o.write G)).2 hok
      exact ⟨o', .repeat_again ⟨0, fun _ _ => congrArg some (hagain o hfirst)⟩ hret⟩

end FeedTurn

/-- **The inner loop** reads all of its piece. -/
theorem deflateLoop_writes (flush : Flush) (hw : 0 < toUInt chunk)
    (h : Running L chunk x p ph z) (ha : ph.Allows flush p.unread) :
    ∃ G q ph' z', Running L chunk x q ph' z' ∧ q.unread = [] ∧ (flush = .finish → ph' = .done) ∧
      ph'.Allows flush [] ∧ (chunk < 2 ^ 32 → z' = z ++ G) ∧ Feeds D chunk flush p q G := by
  -- on what `deflateBound` still allows zlib to put out
  induction hn : L.bound x.length - z.length using Nat.strongRecOn generalizing p ph z with
  | ind n ih =>
    obtain ⟨ret, out, G, q, ph', hcall, herr, hq, hallows, hend, hlen, hroom, hG, -⟩ := h.call ha
    have hturn : FeedTurn D chunk flush p q G (toUInt chunk - out.length) := by
      intro o
      rw [deflateTurn, hcall o]
      cases ret <;> first | rfl | exact absurd rfl herr
    by_cases hfull : toUInt chunk - out.length = 0
    · have hless : L.bound x.length - (z ++ out).length < n := by
        have hbound := hq.bounded
        rw [List.length_append] at hbound ⊢
        omega
      obtain ⟨G', q', ph'', z', hq', hunread, hdone, hallows', hz, hfeeds⟩ :=
        ih _ hless hq hallows rfl
      rw [hfull] at hturn
      refine ⟨G ++ G', q', ph'', z', hq', hunread, hdone, hallows', ?_, hturn.trans hfeeds⟩
      intro hc
      rw [hz hc, hG hc, List.append_assoc]
    · obtain ⟨hunread, hfin⟩ := hroom (by omega)
      rw [hunread] at hallows
      exact ⟨G, q, ph', z ++ out, hq, hunread, fun hf => hend.mp (hfin hf), hallows,
        fun hc => by rw [hG hc], hturn.feeds hfull⟩

/-! ## The last loop -/

/-- **The last loop** offers `G` to the stream and does not look whether it
is taken. -/
theorem finishLoop_writes (hw : 0 < toUInt chunk) (h : Running L chunk x p ph z) :
    ∃ G, (∀ o, Returns (fun fuel => repeatUntil (fun _ p => some (finishTurn D chunk p)) fuel
        (p.onto o)) (.ok, o.write G)) ∧
      (chunk < 2 ^ 32 → F.Member (z ++ G) x) ∧ (2 ^ 32 ≤ chunk → G ≠ []) := by
  induction hn : L.bound x.length - z.length using Nat.strongRecOn generalizing p ph z with
  | ind n ih =>
    obtain ⟨-, -, -, ha, -⟩ := h.deflating
    obtain ⟨ret, out, G, q, ph', hcall, -, hq, -, hend, hlen, hroom, hG, hmore⟩ := h.call ha
    have hturn : ∀ o, finishTurn D chunk (p.onto o) =
        if ret = .streamEnd then .exit (.ok, o.write G) else .again (q.onto (o.write G)) := by
      intro o
      rw [finishTurn, hcall o]
      cases ret <;> rfl
    by_cases hret : ret = .streamEnd
    · obtain ⟨-, -, -, -, hmem⟩ := hq.deflating
      refine ⟨G, fun o => .repeat_exit ⟨0, fun _ _ => congrArg some ?_⟩, fun hc => ?_, hmore⟩
      · rw [hturn, if_pos hret]
      · rw [hG hc]
        exact hmem (hend.mp hret)
    · -- the member is not complete, so the room was filled
      have hfull : ¬ out.length < toUInt chunk := fun hlt => hret ((hroom hlt).2 rfl)
      have hless : L.bound x.length - (z ++ out).length < n := by
        have hbound := hq.bounded
        rw [List.length_append] at hbound ⊢
        omega
      obtain ⟨G', hrun, hmem, -⟩ := ih _ hless hq rfl
      refine ⟨G ++ G', fun o => ?_, fun hc => ?_, fun hc => ?_⟩
      · rw [OStream.write_append]
        refine .repeat_again ⟨0, fun _ _ => congrArg some ?_⟩ (hrun (o.write G))
        rw [hturn, if_neg hret]
      · rw [hG hc, ← List.append_assoc]
        exact hmem hc
      · exact List.append_ne_nil_of_left_ne_nil (hmore hc) _

/-- Before `Z_FINISH` the member is not complete: the compression could still
go on with another byte. -/
theorem Running.not_member (h : Running L chunk x p .writing z) (hunread : p.unread = []) :
    ¬ F.Member z x := by
  intro hz
  obtain ⟨c, hat, hx, -, -⟩ := h.deflating
  rw [hunread, List.append_nil] at hx
  subst hx
  obtain ⟨hused, -, -, hat'⟩ := L.step hat .finish [0] (L.bound (c.length + 1) + 1) trivial
  have hbound := L.bounded hat' (c.length + 1) (by
    rw [List.length_append, List.length_take, List.length_singleton]
    omega)
  rw [List.length_append] at hbound
  have hret := L.finishes hat [0] (L.bound (c.length + 1) + 1) trivial (by omega)
  obtain ⟨-, -, hlonger⟩ := L.streamEnd hat .finish [0] _ trivial hret
  have heq := hz.eq_of_isPrefix hlonger (List.prefix_append _ _)
  have hdec := hlonger.dec
  rw [← heq, hz.dec] at hdec
  have hlen := congrArg List.length hdec
  rw [List.length_append, List.length_singleton] at hlen
  omega

/-! ## The outer loop -/

/-- A piece that the inner loop reads, or returns from. -/
theorem pressTurn_piece {inp inp' : IStream} {got : Bytes}
    {e : Except (Err × OStream) (Press D.State)} (hok : inp.ok = true)
    (hread : inp.read chunk = (inp', got)) (hgot : got ≠ [])
    (h : Returns (fun fuel => repeatUntil (fun _ p => some (deflateTurn D chunk
      (if inp'.eof then .finish else .noFlush) p)) fuel
        { p with unread := got.take (toUInt got.length) }) e) :
    Returns (fun fuel => pressTurn D chunk fuel (inp, p))
      (match e with
        | .error r => .exit r
        | .ok q => .again (inp', q)) := by
  obtain ⟨N, hN⟩ := h
  refine ⟨N, fun fuel hle => ?_⟩
  have hN := hN fuel hle
  simp only [pressTurn, hok, hread, hN, List.length_eq_zero_iff, hgot, Bool.not_true,
    Bool.false_eq_true, if_false]
  cases e <;> rfl

/-- What a run offers to every stream in good state: `Gm` while it looks,
then `Gf`. -/
def Offers (run : OStream → Nat → Option (Err × OStream)) (Gm Gf : Bytes) : Prop :=
  ∀ o, o.ok = true → ((o.write Gm).ok = true → Returns (run o) (.ok, o.write (Gm ++ Gf))) ∧
    ((o.write Gm).ok = false → ∃ o', Returns (run o) (.writeBufferError, o'))

/-- Another piece in front. -/
theorem offers_piece {inp inp' : IStream} {got G Gm Gf : Bytes} {q : Press D.State}
    (hok : inp.ok = true) (hread : inp.read chunk = (inp', got)) (hgot : got ≠ [])
    (hpiece : Feeds D chunk (if inp'.eof then .finish else .noFlush)
      { p with unread := got.take (toUInt got.length) } q G)
    (hrest : Offers (fun o fuel => repeatUntil (pressTurn D chunk) fuel (inp', q.onto o)) Gm Gf) :
    Offers (fun o fuel => repeatUntil (pressTurn D chunk) fuel (inp, p.onto o)) (G ++ Gm) Gf := by
  intro o _
  constructor
  · intro hall
    rw [OStream.write_append] at hall
    rw [List.append_assoc, OStream.write_append]
    have hturn := pressTurn_piece (p := p.onto o) hok hread hgot
      ((hpiece o).1 (OStream.ok_of_write hall))
    exact .repeat_again hturn ((hrest (o.write G) (OStream.ok_of_write hall)).1 hall)
  · intro hall
    rw [OStream.write_append] at hall
    cases hfirst : (o.write G).ok with
    | false =>
      obtain ⟨o', hloop⟩ := (hpiece o).2 hfirst
      exact ⟨o', .repeat_exit (pressTurn_piece (p := p.onto o) hok hread hgot hloop)⟩
    | true =>
      obtain ⟨o', hret⟩ := (hrest (o.write G) hfirst).2 hall
      have hturn := pressTurn_piece (p := p.onto o) hok hread hgot ((hpiece o).1 hfirst)
      exact ⟨o', .repeat_again hturn hret⟩

/-- At the end of the input only the last loop is left. -/
theorem offers_end {inp : IStream} (hholds : inp.Holds []) (hc0 : 0 < chunk) {G : Bytes}
    (hlast : ∀ o, Returns (fun fuel => repeatUntil (fun _ p => some (finishTurn D chunk p)) fuel
      (p.onto o)) (.ok, o.write G)) :
    Offers (fun o fuel => repeatUntil (pressTurn D chunk) fuel (inp, p.onto o)) [] G := by
  intro o hok
  refine ⟨fun _ => .repeat_exit (pressTurn_nil hholds hc0 (hlast o)), fun hnil => ?_⟩
  -- nothing is offered before the last loop, and nothing is refused
  have hsame : (o.write []).ok = true := by
    cases hroom : o.room <;> simp_all [OStream.write, OStream.ok]
  rw [hsame] at hnil
  cases hnil

/-- What the bytes of a run are, where zlib has put out `z` for `fed` before
and `rest` is still to be read: chunk sizes below 2^32 make a member of the
input, completed by the last loop exactly if the chunk size divides its
length; with a larger one the last loop always writes. -/
structure Completes (F : Format) (chunk : Nat) (z fed rest Gm Gf : Bytes) : Prop where
  wide : 2 ^ 32 ≤ chunk → Gf ≠ []
  narrow : chunk < 2 ^ 32 → F.Member (z ++ Gm ++ Gf) (fed ++ rest) ∧
    (Gf = [] ↔ ¬ chunk ∣ rest.length)

section Completes

variable {rest fed z' Gm Gf G : Bytes} {q : Press D.State}

/-- Nothing is left: the last loop completes the member. -/
theorem completes_end (hp : Running L chunk fed p .writing z) (hunread : p.unread = [])
    (hmem : chunk < 2 ^ 32 → F.Member (z ++ G) fed) (hmore : 2 ^ 32 ≤ chunk → G ≠ []) :
    Completes F chunk z fed [] [] G := by
  refine ⟨hmore, fun hc => ?_⟩
  rw [List.append_nil, List.append_nil]
  refine ⟨hmem hc, iff_of_false (fun hnil => ?_) (fun h => h (Nat.dvd_zero chunk))⟩
  have hearly := hmem hc
  rw [hnil, List.append_nil] at hearly
  exact hp.not_member hunread hearly

/-- A full chunk in front. -/
theorem completes_full (hfull : chunk ≤ rest.length) (hz : chunk < 2 ^ 32 → z' = z ++ G)
    (h : Completes F chunk z' (fed ++ (rest.take chunk).take (toUInt (rest.take chunk).length))
      (rest.drop chunk) Gm Gf) : Completes F chunk z fed rest (G ++ Gm) Gf := by
  refine ⟨h.wide, fun hc => ?_⟩
  have hlen : (rest.take chunk).length = chunk := by
    rw [List.length_take, Nat.min_eq_left hfull]
  obtain ⟨hmember, hdvd⟩ := h.narrow hc
  rw [hz hc, toUInt_eq (by rw [hlen]; exact hc), List.take_length, List.append_assoc fed,
    List.take_append_drop, List.append_assoc z] at hmember
  refine ⟨hmember, hdvd.trans (not_congr ?_)⟩
  rw [List.length_drop]
  exact Nat.dvd_sub_iff_left hfull (Nat.dvd_refl chunk)

/-- A short chunk is the last: the inner loop has completed the member. -/
theorem completes_short (hne : rest ≠ []) (hshort : rest.length < chunk)
    (hz : chunk < 2 ^ 32 → z' = z ++ G)
    (hq : Running L chunk (fed ++ rest.take (toUInt rest.length)) q .done z')
    (hmem : chunk < 2 ^ 32 → F.Member (z' ++ Gf) (fed ++ rest.take (toUInt rest.length)))
    (hmore : 2 ^ 32 ≤ chunk → Gf ≠ []) : Completes F chunk z fed rest (G ++ []) Gf := by
  refine ⟨hmore, fun hc => ?_⟩
  have hmember := hmem hc
  obtain ⟨-, -, -, -, hcomplete⟩ := hq.deflating
  rw [toUInt_eq (by omega), List.take_length] at hmember hcomplete
  have hnil := (hcomplete rfl).eq_of_isPrefix hmember (List.prefix_append _ _)
  rw [List.append_nil, ← hz hc]
  refine ⟨hmember, iff_of_true (List.self_eq_append_right.mp hnil) fun hdvd => ?_⟩
  exact Nat.not_le.mpr hshort (Nat.le_of_dvd (List.length_pos_of_ne_nil hne) hdvd)

end Completes

/-- **The run**, for all streams at once. -/
theorem pressLoop_writes (hw : 0 < toUInt chunk) {rest fed : Bytes} {inp : IStream}
    (hgood : inp.Good) (hrest : inp.rest = rest) (hp : Running L chunk fed p .writing z)
    (hunread : p.unread = []) :
    ∃ Gm Gf,
      Offers (fun o fuel => repeatUntil (pressTurn D chunk) fuel (inp, p.onto o)) Gm Gf ∧
      Completes F chunk z fed rest Gm Gf := by
  have hc0 : 0 < chunk := Nat.lt_of_lt_of_le hw (Nat.mod_le _ _)
  induction hn : rest.length using Nat.strongRecOn generalizing rest fed inp p z with
  | ind n ih =>
    have hok : inp.ok = true := by simp [IStream.ok, hgood.fail]
    by_cases hne : rest = []
    · subst hne
      obtain ⟨G, hlast, hmem, hmore⟩ := finishLoop_writes hw hp
      exact ⟨[], G, offers_end (.inl ⟨hgood, hrest⟩) hc0 hlast,
        completes_end hp hunread hmem hmore⟩
    by_cases hfull : chunk ≤ rest.length
    · -- a full read: the stream stays good and the compression goes on
      obtain ⟨inp', hread, hgood', hrest'⟩ := IStream.read_take hgood (hrest ▸ hfull)
      rw [hrest] at hread hrest'
      have hlen : (rest.take chunk).length = chunk := by
        rw [List.length_take, Nat.min_eq_left hfull]
      have hgot : rest.take chunk ≠ [] := List.ne_nil_of_length_pos (by omega)
      obtain ⟨G, q, ph, z', hq, hqun, -, hallows, hz, hpiece⟩ := deflateLoop_writes .noFlush
        hw (hp.offer hunread ((rest.take chunk).take (toUInt (rest.take chunk).length))) trivial
      obtain rfl := hallows.writing
      obtain ⟨Gm, Gf, hoffers, hcompletes⟩ := ih (rest.drop chunk).length
        (by rw [List.length_drop]; omega) hgood' hrest' hq hqun rfl
      refine ⟨G ++ Gm, Gf, offers_piece hok hread hgot ?_ hoffers,
        completes_full hfull hz hcompletes⟩
      rw [hgood'.eof]
      exact hpiece
    · -- a short read: the inner loop completes the member
      have hshort : rest.length < chunk := Nat.not_le.mp hfull
      obtain ⟨inp', hread, hfail, heof⟩ := IStream.read_short hgood (n := chunk)
        (by rw [hrest]; exact hshort)
      rw [hrest] at hread
      obtain ⟨G, q, ph, z', hq, -, hdone, -, hz, hpiece⟩ := deflateLoop_writes .finish
        hw (hp.offer hunread (rest.take (toUInt rest.length))) trivial
      obtain rfl : ph = .done := hdone rfl
      obtain ⟨Gf, hlast, hmem, hmore⟩ := finishLoop_writes hw hq
      refine ⟨G ++ [], Gf, offers_piece hok hread hne ?_
        (offers_end (.inr ⟨hfail, rfl⟩) hc0 hlast),
        completes_short hne hshort hz hq hmem hmore⟩
      rw [heof]
      exact hpiece

/-- The call, once both streams are in good state, zlib is set up and the
buffers are there. -/
theorem compressStream_eq {inp : IStream} {out : OStream} {lvl mem : Int}
    (hin : inp.ok = true) (hout : out.ok = true)
    (hinit : (D.init lvl mem).1 = .ok) (hvec : chunk ≤ maxVector) (fuel : Nat) :
    compressStream D chunk fuel out inp lvl mem = repeatUntil (pressTurn D chunk) fuel
      (inp, ⟨(D.init lvl mem).2, [], List.replicate chunk 0, out⟩) := by
  simp only [compressStream, hin, hout, hinit, Nat.not_lt.mpr hvec, Bool.not_true, Bool.or_self,
    Bool.false_eq_true, if_false, ne_eq, not_true_eq_false]

theorem running_start (L : DeflateContract F D) (chunk : Nat) {lvl mem : Int}
    (hinit : (D.init lvl mem).1 = .ok) (out : OStream) :
    Running L chunk [] ⟨(D.init lvl mem).2, [], List.replicate chunk 0, out⟩ .writing [] :=
  ⟨⟨[], L.init lvl mem hinit, rfl, trivial, nofun⟩, List.length_replicate⟩

/-- **The stream overload of `compress`**, for all output streams at once. -/
theorem compressStream_writes (L : DeflateContract F D) (hw : 0 < toUInt chunk)
    (hvec : chunk ≤ maxVector) {lvl mem : Int} (hinit : (D.init lvl mem).1 = .ok) {inp : IStream}
    (hinp : inp.Good) :
    ∃ Gm Gf, Offers (fun o fuel => compressStream D chunk fuel o inp lvl mem) Gm Gf ∧
      Completes F chunk [] [] inp.rest Gm Gf := by
  have hin : inp.ok = true := by simp [IStream.ok, hinp.fail]
  obtain ⟨Gm, Gf, hoffers, hcompletes⟩ := pressLoop_writes hw hinp rfl
    (running_start L chunk hinit OStream.empty) rfl
  refine ⟨Gm, Gf, fun o hok => ?_, hcompletes⟩
  simp only [compressStream_eq hin hok hinit hvec]
  exact hoffers o hok

/-! ## Chunk sizes that zlib is told as zero -/

section Zero

variable (hw : toUInt chunk = 0)

include hw

/-- Without room zlib puts out nothing, and completes nothing. -/
theorem Running.call_zero (h : Running L chunk x p ph []) (ha : ph.Allows flush p.unread) :
    ∃ ret q ph', deflateCall D chunk flush p = (ret, 0, q) ∧ ret ≠ .streamEnd ∧
      ret ≠ .streamError ∧ Running L chunk x q ph' [] ∧ ph'.Allows flush q.unread := by
  obtain ⟨ret, out, G, q, ph', hcall, herr, hq, hallows, hend, hlen, -, -, -⟩ := h.call ha
  obtain rfl : out = [] := List.eq_nil_of_length_eq_zero (by omega)
  have hcall := hcall p.out
  rw [hw] at hcall
  refine ⟨ret, q.onto (p.out.write G), ph', hcall, ?_, herr, ⟨hq.deflating, hq.outbuf⟩, hallows⟩
  intro hret
  obtain ⟨-, -, -, -, hmem⟩ := hq.deflating
  exact (hmem (hend.mp hret)).ne_nil rfl

/-- A turn without room writes the buffer and gets nowhere. -/
theorem Running.feed_zero (h : Running L chunk x p ph []) (ha : ph.Allows flush p.unread) :
    ∃ G q ph', FeedTurn D chunk flush p q G 0 ∧ Running L chunk x q ph' [] ∧
      ph'.Allows flush q.unread ∧ (chunk ≠ 0 → G ≠ []) := by
  obtain ⟨ret, out, G, q, ph', hcall, herr, hq, hallows, -, hlen, -, -, hmore⟩ := h.call ha
  obtain rfl : out = [] := List.eq_nil_of_length_eq_zero (by omega)
  refine ⟨G, q, ph', fun o => ?_, hq, hallows, fun hc => hmore ?_⟩
  · rw [deflateTurn, hcall o, hw]
    cases ret <;> first | rfl | exact absurd rfl herr
  · by_contra hlt
    exact hc ((toUInt_eq (Nat.not_le.mp hlt)).symm.trans hw)

/-- The inner loop ends only by an error. -/
theorem deflateLoop_zero (h : Running L chunk x p ph []) (ha : ph.Allows flush p.unread)
    {fuel : Nat} {e : Except (Err × OStream) (Press D.State)}
    (hrun : repeatUntil (fun _ p => some (deflateTurn D chunk flush p)) fuel p = some e) :
    ∃ o, e = .error (.writeBufferError, o) := by
  refine repeatUntil_sound (fun p => ∃ ph, Running L chunk x p ph [] ∧ ph.Allows flush p.unread)
    (fun e => ∃ o, e = .error (.writeBufferError, o)) ?_ ?_ fuel p e ⟨ph, h, ha⟩ hrun
  · rintro _ p p' ⟨ph, h, ha⟩ hbody
    obtain ⟨G, q, ph', hturn, hq, hallows, -⟩ := h.feed_zero hw ha
    rw [show p = p.onto p.out from rfl, hturn p.out] at hbody
    split at hbody
    · cases hbody
    · cases hbody
      exact ⟨ph', ⟨hq.deflating, hq.outbuf⟩, hallows⟩
  · rintro _ p e ⟨ph, h, ha⟩ hbody
    obtain ⟨G, q, ph', hturn, hq, hallows, -⟩ := h.feed_zero hw ha
    rw [show p = p.onto p.out from rfl, hturn p.out] at hbody
    split at hbody
    · cases hbody
      exact ⟨_, rfl⟩
    · cases hbody

/-- The last loop does not end. -/
theorem finishLoop_zero (h : Running L chunk x p ph []) (fuel : Nat) :
    repeatUntil (fun _ p => some (finishTurn D chunk p)) fuel p = none := by
  induction fuel generalizing p ph with
  | zero => rfl
  | succ fuel ih =>
    obtain ⟨-, -, -, ha, -⟩ := h.deflating
    obtain ⟨ret, q, ph', hcall, hret, -, hq, -⟩ := h.call_zero hw ha
    have hturn : finishTurn D chunk p = .again q := by
      rw [finishTurn, hcall]
      cases ret <;> first | rfl | exact absurd rfl hret
    rw [repeatUntil_again (congrArg some hturn)]
    exact ih hq

/-- The first turn of the outer loop is the last. -/
theorem pressTurn_zero {fed : Bytes} (h : Running L chunk fed p .writing [])
    (hunread : p.unread = []) {inp : IStream} {fuel : Nat}
    {r : Turn (IStream × Press D.State) (Err × OStream)}
    (hr : pressTurn D chunk fuel (inp, p) = some r) : ∃ o, r = .exit (.writeBufferError, o) := by
  have hfin : compressFinish D chunk fuel p = none := by
    rw [compressFinish, finishLoop_zero hw h]
    rfl
  simp only [pressTurn, hfin] at hr
  split at hr
  · cases hr
  · split at hr
    · cases hr
    · split at hr
      · cases hr
      · next e hloop =>
        obtain ⟨o, heq⟩ := deflateLoop_zero hw (h.offer hunread _) trivial hloop
        cases heq
        cases hr
        exact ⟨o, rfl⟩
      · next hloop =>
        obtain ⟨o, heq⟩ := deflateLoop_zero hw (h.offer hunread _) trivial hloop
        cases heq

theorem pressLoop_zero {fed : Bytes} (h : Running L chunk fed p .writing [])
    (hunread : p.unread = []) {inp : IStream} {fuel : Nat} {o : OStream} :
    repeatUntil (pressTurn D chunk) fuel (inp, p) ≠ some (.ok, o) := by
  intro hrun
  cases fuel with
  | zero => cases hrun
  | succ fuel =>
    rw [repeatUntil] at hrun
    cases hbody : pressTurn D chunk fuel (inp, p) with
    | none =>
      rw [hbody] at hrun
      cases hrun
    | some r =>
      obtain ⟨o', rfl⟩ := pressTurn_zero hw h hunread hbody
      rw [hbody] at hrun
      cases hrun

/-- `compress` does not return ok. -/
theorem compressStream_zero (L : DeflateContract F D) {fuel : Nat} {out : OStream} {inp : IStream}
    {lvl mem : Int} (hinit : (D.init lvl mem).1 = .ok) {o : OStream} :
    compressStream D chunk fuel out inp lvl mem ≠ some (.ok, o) := by
  intro hrun
  have hstart := running_start L chunk hinit out
  simp only [compressStream, hinit, ne_eq, not_true_eq_false, if_false] at hrun
  split at hrun
  · cases hrun
  · split at hrun
    · cases hrun
    · exact pressLoop_zero hw hstart rfl hrun

end Zero

/-! ## Which runs report a failure -/

/-- If the run is right for every stream, the last loop writes nothing:
a stream that takes `Gm` and one that takes a byte more do not both hold a
member. -/
theorem nil_of_members {x Gm Gf : Bytes} (h : ∀ n, Gm.length ≤ n → F.Member ((Gm ++ Gf).take n) x) :
    Gf = [] := by
  have hshort := h Gm.length (Nat.le_refl _)
  have hlonger := h (Gm.length + 1) (Nat.le_succ _)
  have heq := hshort.eq_of_isPrefix hlonger (List.take_prefix_take_left (Nat.le_succ _))
  cases Gf with
  | nil => rfl
  | cons b Gf =>
    have hlen := congrArg List.length heq
    rw [List.length_take, List.length_take, List.length_append, List.length_cons] at hlen
    omega

/-- A run is right for every stream if it offers a member before it stops
looking, and nothing after. -/
theorem reports_iff_of_offers {run : OStream → Nat → Option (Err × OStream)} {x Gm Gf : Bytes}
    (h : Offers run Gm Gf) {out : OStream} (hout : out.fail = false) :
    (∀ (room : Nat) (o : OStream), Returns (run { out with room := some room }) (.ok, o) →
      ∃ z, F.Member z x ∧ o.written = out.written ++ z) ↔ F.Member Gm x ∧ Gf = [] := by
  have hlimited (room : Nat) (bs : Bytes) :=
    OStream.write_limited (s := { out with room := some room }) hout rfl bs
  have hok (room : Nat) : ({ out with room := some room } : OStream).ok = true := by
    simp [OStream.ok, hout]
  constructor
  · intro hall
    have hmember : ∀ n, Gm.length ≤ n → F.Member ((Gm ++ Gf).take n) x := by
      intro n hn
      obtain ⟨z, hz, hwritten⟩ := hall n _ ((h _ (hok n)).1 ((hlimited n Gm).2.mpr hn))
      rw [(hlimited n (Gm ++ Gf)).1] at hwritten
      rwa [List.append_cancel_left hwritten]
    have hnil := nil_of_members hmember
    have hall := hmember Gm.length (Nat.le_refl _)
    rw [List.take_left] at hall
    exact ⟨hall, hnil⟩
  · rintro ⟨hmember, rfl⟩ room o hreturns
    cases htakes : (OStream.write { out with room := some room } Gm).ok with
    | true =>
      have heq := hreturns.unique ((h _ (hok room)).1 htakes)
      rw [List.append_nil] at heq
      obtain ⟨hwritten, hfits⟩ := hlimited room Gm
      rw [List.take_of_length_le (hfits.mp htakes)] at hwritten
      exact ⟨Gm, hmember, by rw [(Prod.mk.inj heq).2]; exact hwritten⟩
    | false =>
      obtain ⟨o', herror⟩ := (h _ (hok room)).2 htakes
      have heq := hreturns.unique herror
      exact absurd (Prod.mk.inj heq).1 (by decide)

/-- Without an initialised compression, or without buffers, there is no
success. -/
theorem compressStream_ne_ok {fuel : Nat} {out : OStream} {inp : IStream} {lvl mem : Int}
    (h : (D.init lvl mem).1 ≠ .ok ∨ maxVector < chunk) {o : OStream} :
    compressStream D chunk fuel out inp lvl mem ≠ some (.ok, o) := by
  have hofRet : ∀ ret : Ret, ret ≠ .ok → Err.ofRet ret ≠ .ok := by
    intro ret
    cases ret <;> decide
  intro hrun
  simp only [compressStream] at hrun
  split at hrun
  · cases hrun
  · split at hrun
    · next hret => exact hofRet _ hret (Prod.mk.inj (Option.some.inj hrun)).1
    · next hret =>
      split at hrun
      · cases hrun
      · next hvec => exact (h.resolve_left hret |> hvec)

/-- **`compress` reports write failures** on every stream exactly if it cannot
succeed at all (`deflateInit2` fails, the buffers cannot be allocated, or
zlib is told a chunk size of zero), or the chunk size fits zlib's `uInt` and
does not divide the length of the input. -/
theorem compressStream_reports_iff (L : DeflateContract F D) {inp : IStream} (hinp : inp.Good)
    {out : OStream} (hout : out.fail = false) (lvl mem : Int) :
    (∀ (room : Nat) (o : OStream),
      Returns (fun fuel => compressStream D chunk fuel { out with room := some room } inp lvl mem)
        (.ok, o) → ∃ z, F.Member z inp.rest ∧ o.written = out.written ++ z) ↔
    (D.init lvl mem).1 ≠ .ok ∨ maxVector < chunk ∨ toUInt chunk = 0 ∨
      (chunk < 2 ^ 32 ∧ ¬ chunk ∣ inp.rest.length) := by
  by_cases hfails : (D.init lvl mem).1 ≠ .ok ∨ maxVector < chunk
  · refine iff_of_true ?_ ?_
    · rintro room o ⟨N, hN⟩
      exact absurd (hN N (Nat.le_refl N)) (compressStream_ne_ok hfails)
    · rcases hfails with h | h
      · exact .inl h
      · exact .inr (.inl h)
  obtain ⟨hinit, hvec⟩ := not_or.mp hfails
  rw [not_not] at hinit
  by_cases hw : toUInt chunk = 0
  · refine iff_of_true ?_ (.inr (.inr (.inl hw)))
    rintro room o ⟨N, hN⟩
    exact absurd (hN N (Nat.le_refl N)) (compressStream_zero hw L hinit)
  obtain ⟨Gm, Gf, hoffers, hcompletes⟩ :=
    compressStream_writes L (Nat.pos_of_ne_zero hw) (Nat.not_lt.mp hvec) hinit hinp
  rw [reports_iff_of_offers hoffers hout]
  constructor
  · rintro ⟨-, hnil⟩
    have hc : chunk < 2 ^ 32 := Nat.not_le.mp fun hc => hcompletes.wide hc hnil
    exact .inr (.inr (.inr ⟨hc, (hcompletes.narrow hc).2.mp hnil⟩))
  · rintro (h | h | h | ⟨hc, hdvd⟩)
    · exact absurd hinit h
    · exact absurd h hvec
    · exact absurd h hw
    · obtain ⟨hmember, hiff⟩ := hcompletes.narrow hc
      have hnil := hiff.mpr hdvd
      rw [hnil, List.append_nil] at hmember
      exact ⟨hmember, hnil⟩

end Writes

/-- The one byte `a`, in chunks of 16384. -/
theorem compressStream_reports_one :
    (IStream.ofBytes [0x61]).Good ∧ OStream.empty.fail = false ∧
    ((∀ (room : Nat) (o : OStream),
      Returns (fun fuel => compressStream sampleDeflater 16384 fuel
        { OStream.empty with room := some room } (.ofBytes [0x61]) (-1) 8) (.ok, o) →
      ∃ z, sampleFormat.Member z [0x61] ∧ o.written = [] ++ z) ↔
    (sampleDeflater.init (-1) 8).1 ≠ .ok ∨ maxVector < 16384 ∨ toUInt 16384 = 0 ∨
      (16384 < 2 ^ 32 ∧ ¬ 16384 ∣ 1)) :=
  ⟨IStream.good_ofBytes _, rfl, compressStream_reports_iff sampleDeflater_contract
    (IStream.good_ofBytes [0x61]) rfl (-1) 8⟩

/-- An empty input, and a stream that takes nothing: `compress` returns ok
and nothing has been written. -/
theorem compressStream_empty_refused :
    ¬ ∀ o : OStream,
      Returns (fun fuel => compressStream sampleDeflater 16384 fuel
        { OStream.empty with room := some 0 } (.ofBytes []) (-1) 8) (.ok, o) →
      ∃ z, sampleFormat.Member z [] ∧ o.written = [] ++ z := by
  intro h
  obtain ⟨z, hz, hwritten⟩ := h { written := [], room := some 0, fail := true } ⟨2, fun fuel hle => by
    obtain ⟨k, rfl⟩ : ∃ k, fuel = k + 2 := ⟨fuel - 2, by omega⟩
    rfl⟩
  exact hz.ne_nil hwritten.symm

end HighJump.Compress.Gzip
