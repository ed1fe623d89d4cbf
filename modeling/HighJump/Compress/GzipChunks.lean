/-
HighJump.Compress.GzipChunks — for which chunk sizes the stream overload
of `compress` comes to an end.

zlib is told the chunk size modulo 2^32. Where that is not zero every
call makes progress, up to `deflateBound`. Where it is zero no call does:
the loop that ends the compression waits for a `Z_STREAM_END` that never
comes, and the loop before it fills the room it was given every time.
That loop still writes the whole buffer in each turn, so a chunk size of
at least 2^32 and an output stream that stops taking bytes end it, with
the error of the stream.

The other loop of the library that goes by a chunk size is `append` of
`chain_buffer`; `chunked_loops_end_iff` is about both.
-/
import HighJump.Compress.GzipWrites
import HighJump.Io.ChainBufferEnds

namespace HighJump.Compress.Gzip

open HighJump.Lib HighJump.Lib.Zlib

variable {F : Format} {D : Deflater} {L : DeflateContract F D} {chunk : Nat}

/-- `compress` ends: it returns, or its buffers are larger than vectors
are. -/
def CompressEnds (D : Deflater) (chunk : Nat) (out : OStream) (inp : IStream)
    (comprLvl memLevel : Int) : Prop :=
  maxVector < chunk ∨
    ∃ r, Returns (fun fuel => compressStream D chunk fuel out inp comprLvl memLevel) r

/-! ## Reading nothing -/

/-- What a read finds to store. -/
theorem read_ne_nil_iff {inp : IStream} (hok : inp.ok = true) :
    (inp.read chunk).2 ≠ [] ↔ chunk ≠ 0 ∧ inp.eof = false ∧ inp.rest ≠ [] := by
  have hfail : inp.fail = false := by simpa [IStream.ok] using hok
  cases heof : inp.eof with
  | true => simp [IStream.read, heof]
  | false =>
    have hgot : (inp.read chunk).2 = inp.rest.take chunk := by
      simp only [IStream.read, heof, hfail, Bool.or_self, Bool.false_eq_true, if_false]
      split <;> rfl
    rw [hgot, ne_eq, List.take_eq_nil_iff, not_or]
    simp

/-- A stream that reads something is good. -/
theorem good_of_read {inp : IStream} (hok : inp.ok = true) (h : (inp.read chunk).2 ≠ []) :
    inp.Good := by
  obtain ⟨-, heof, hrest⟩ := (read_ne_nil_iff hok).mp h
  refine ⟨heof, by simpa [IStream.ok] using hok, ?_⟩
  by_contra hpos
  exact hrest (List.drop_eq_nil_of_le (by omega))

/-- With nothing read the last loop decides. -/
theorem pressTurn_of_read_nil {inp : IStream} {p : Press D.State} (hok : inp.ok = true)
    (h : (inp.read chunk).2 = []) (fuel : Nat) :
    pressTurn D chunk fuel (inp, p) = compressFinish D chunk fuel p := by
  rw [pressTurn, hok]
  simp only [h, List.length_nil, Bool.not_true, Bool.false_eq_true, if_false, if_true]

/-! ## Without room -/

section Zero

variable {x : Bytes} {p : Press D.State} {ph : Phase} {flush : Flush} (hw : toUInt chunk = 0)

include hw

/-- A stream without limit keeps the inner loop going. -/
theorem deflateLoop_open (flush : Flush) (fuel : Nat) : ∀ {p : Press D.State} {ph : Phase} {o : OStream},
    Running L chunk x p ph [] → ph.Allows flush p.unread → o.Open →
    repeatUntil (fun _ p => some (deflateTurn D chunk flush p)) fuel (p.onto o) = none := by
  induction fuel with
  | zero =>
    intro p ph o _ _ _
    rfl
  | succ fuel ih =>
    intro p ph o h ha ho
    obtain ⟨G, q, ph', hturn, hq, hallows, -⟩ := h.feed_zero hw ha
    obtain ⟨ho', -⟩ := OStream.write_open ho G
    have hagain : deflateTurn D chunk flush (p.onto o) = .again (q.onto (o.write G)) := by
      rw [hturn o]
      simp [OStream.ok, ho'.fail]
    rw [repeatUntil_again (congrArg some hagain)]
    exact ih hq hallows ho'

/-- A stream with a limit reaches it. -/
theorem deflateLoop_limited (flush : Flush) (hc : chunk ≠ 0) (n : Nat) :
    ∀ {p : Press D.State} {ph : Phase} {o : OStream}, Running L chunk x p ph [] →
    ph.Allows flush p.unread → o.fail = false → o.room = some n →
    ∃ o', Returns (fun fuel => repeatUntil (fun _ p => some (deflateTurn D chunk flush p)) fuel
      (p.onto o)) (.error (.writeBufferError, o')) := by
  induction n using Nat.strongRecOn with
  | ind n ih =>
    intro p ph o h ha hfail hroom
    obtain ⟨G, q, ph', hturn, hq, hallows, hG⟩ := h.feed_zero hw ha
    have hpos := List.length_pos_iff.mpr (hG hc)
    by_cases hfits : G.length ≤ n
    · obtain ⟨hfail', hroom', -⟩ := (OStream.write_takes hfail G).1 fun r hr => by
        rw [hroom] at hr
        exact Option.some.inj hr ▸ hfits
      rw [hroom, Option.map_some] at hroom'
      obtain ⟨o', hret⟩ := ih (n - G.length) (by omega) hq hallows hfail' hroom'
      refine ⟨o', .repeat_again ⟨0, fun _ _ => congrArg some ?_⟩ hret⟩
      rw [hturn o]
      simp [OStream.ok, hfail']
    · have hfull := (OStream.write_takes hfail G).2 fun htakes => hfits (htakes n hroom)
      exact ⟨_, hturn.refused (by simp [OStream.ok, hfull])⟩

variable {fed : Bytes} {inp : IStream}

/-- Nothing read, or nothing refused: the first turn of the outer loop
has no result. -/
theorem pressTurn_never (h : Running L chunk fed p .writing []) (hunread : p.unread = [])
    (hok : inp.ok = true) (hno : (inp.read chunk).2 = [] ∨ p.out.Open) (fuel : Nat) :
    pressTurn D chunk fuel (inp, p) = none := by
  have hfin : compressFinish D chunk fuel p = none := by
    rw [compressFinish, finishLoop_zero hw h]
    rfl
  by_cases hread : (inp.read chunk).2 = []
  · rw [pressTurn_of_read_nil hok hread, hfin]
  · have hloop := deflateLoop_open hw (if (inp.read chunk).1.eof then .finish else .noFlush) fuel
      (h.offer hunread ((inp.read chunk).2.take (toUInt (inp.read chunk).2.length))) trivial
      (hno.resolve_left hread)
    have hne : (inp.read chunk).2.length ≠ 0 := fun h => hread (List.eq_nil_of_length_eq_zero h)
    simp only [Press.onto] at hloop
    simp only [pressTurn, hok, hne, hloop, Bool.not_true, Bool.false_eq_true, if_false]

/-- Something read, and a write refused in the end: the turn returns. -/
theorem pressTurn_refused (h : Running L chunk fed p .writing []) (hunread : p.unread = [])
    (hok : inp.ok = true) (hread : (inp.read chunk).2 ≠ []) (hfail : p.out.fail = false) {n : Nat}
    (hroom : p.out.room = some n) :
    ∃ r, Returns (fun fuel => pressTurn D chunk fuel (inp, p)) (.exit r) := by
  have hc := ((read_ne_nil_iff hok).mp hread).1
  obtain ⟨o', hloop⟩ := deflateLoop_limited hw
    (if (inp.read chunk).1.eof then .finish else .noFlush) hc n
    (h.offer hunread ((inp.read chunk).2.take (toUInt (inp.read chunk).2.length))) trivial
    hfail hroom
  have hpair : inp.read chunk = ((inp.read chunk).1, (inp.read chunk).2) := rfl
  exact ⟨_, pressTurn_piece (p := p) hok hpair hread hloop⟩

end Zero

/-! ## The whole call -/

section Call

variable {inp : IStream} {out : OStream} {lvl mem : Int}

/-- **Where zlib is told some room, the call returns.** -/
theorem compressStream_ends (L : DeflateContract F D) (hw : toUInt chunk ≠ 0)
    (hvec : chunk ≤ maxVector) (hin : inp.ok = true) (hout : out.ok = true)
    (hinit : (D.init lvl mem).1 = .ok) :
    ∃ r, Returns (fun fuel => compressStream D chunk fuel out inp lvl mem) r := by
  by_cases hread : (inp.read chunk).2 = []
  · obtain ⟨G, hlast, -⟩ := finishLoop_writes (Nat.pos_of_ne_zero hw)
      (running_start L chunk hinit out)
    obtain ⟨N, hN⟩ := hlast out
    simp only [compressStream_eq hin hout hinit hvec]
    refine ⟨(.ok, out.write G), .repeat_exit ⟨N, fun fuel hle => ?_⟩⟩
    exact (pressTurn_of_read_nil hin hread fuel).trans
      (congrArg (Option.map Turn.exit) (hN fuel hle))
  · obtain ⟨Gm, Gf, hoffers, -⟩ := compressStream_writes L (Nat.pos_of_ne_zero hw) hvec hinit
      (good_of_read hin hread)
    cases htakes : (out.write Gm).ok with
    | true => exact ⟨_, (hoffers out hout).1 htakes⟩
    | false =>
      obtain ⟨o', hret⟩ := (hoffers out hout).2 htakes
      exact ⟨_, hret⟩

/-- **Where it is told none**, only a stream that refuses a write ends
the call. -/
theorem compressStream_ends_iff (L : DeflateContract F D) (hw : toUInt chunk = 0)
    (hvec : chunk ≤ maxVector) (hin : inp.ok = true) (hout : out.ok = true)
    (hinit : (D.init lvl mem).1 = .ok) :
    (∃ r, Returns (fun fuel => compressStream D chunk fuel out inp lvl mem) r) ↔
      (inp.read chunk).2 ≠ [] ∧ ∃ n, out.room = some n := by
  have hfail : out.fail = false := by simpa [OStream.ok] using hout
  have hstart := running_start L chunk hinit out
  simp only [compressStream_eq hin hout hinit hvec]
  constructor
  · rintro ⟨r, N, hN⟩
    by_contra hno
    have hnever : (inp.read chunk).2 = [] ∨ out.Open := by
      cases hroom : out.room with
      | none => exact .inr ⟨hroom, hfail⟩
      | some n => exact .inl (by_contra fun hread => hno ⟨hread, n, hroom⟩)
    have hrun := hN (N + 1) (Nat.le_succ N)
    simp only [repeatUntil, pressTurn_never hw hstart rfl hin hnever N] at hrun
    cases hrun
  · rintro ⟨hread, n, hroom⟩
    obtain ⟨r, hturn⟩ := pressTurn_refused hw hstart rfl hin hread hfail hroom
    exact ⟨r, .repeat_exit hturn⟩

/-- **When the stream overload of `compress` ends.** -/
theorem compressEnds_iff (L : DeflateContract F D) :
    CompressEnds D chunk out inp lvl mem ↔
      inp.ok = false ∨ out.ok = false ∨ (D.init lvl mem).1 ≠ .ok ∨ maxVector < chunk ∨
        toUInt chunk ≠ 0 ∨
        (chunk ≠ 0 ∧ inp.eof = false ∧ inp.rest ≠ [] ∧ ∃ n, out.room = some n) := by
  by_cases hvec : maxVector < chunk
  · exact iff_of_true (.inl hvec) (.inr (.inr (.inr (.inl hvec))))
  rw [CompressEnds, or_iff_right hvec]
  cases hin : inp.ok with
  | false =>
    refine iff_of_true ⟨(.inputInvalid, out), 0, fun fuel _ => ?_⟩ (.inl rfl)
    simp [compressStream, hin]
  | true =>
  cases hout : out.ok with
  | false =>
    refine iff_of_true ⟨(.inputInvalid, out), 0, fun fuel _ => ?_⟩ (.inr (.inl rfl))
    simp [compressStream, hout]
  | true =>
  by_cases hinit : (D.init lvl mem).1 = .ok
  · by_cases hw : toUInt chunk = 0
    · rw [compressStream_ends_iff L hw (Nat.not_lt.mp hvec) hin hout hinit, read_ne_nil_iff hin]
      simp [hvec, hinit, hw, and_assoc]
    · exact iff_of_true (compressStream_ends L hw (Nat.not_lt.mp hvec) hin hout hinit)
        (.inr (.inr (.inr (.inr (.inl hw)))))
  · refine iff_of_true ⟨(.ofRet (D.init lvl mem).1, out), 0, fun fuel _ => ?_⟩
      (.inr (.inr (.inl hinit)))
    simp [compressStream, hin, hout, hinit]

end Call

/-! ## Both loops -/

open HighJump.Io.ChainBuffer (storeLts AppendEnds Act Answer)

/-- **When the loops that go by a chunk size end.** In every run on any
number of chain buffers, an append ends exactly if there is no data, the
block size is not zero, or the last block is a stolen one that holds
something. The stream overload of `compress` ends exactly if it returns
or throws before its loops, if the chunk size is not zero modulo 2^32, or
if it is at least that, there is something to read, and the output stream
takes only so much. -/
theorem chunked_loops_end_iff {ι : Type} [DecidableEq ι] {tr : List (Act ι × Answer)}
    {s : ι → Io.ChainBuffer} (hrun : storeLts.Run tr s) (i : ι) (data : Io.Bytes)
    {F : Format} {D : Deflater} (L : DeflateContract F D) (chunk : Nat) (out : OStream)
    (inp : IStream) (lvl mem : Int) :
    (AppendEnds (s i) data ↔
      data = [] ∨ (s i).blockSize ≠ 0 ∨
        ∃ back, (s i).blocks.getLast? = some back ∧ back ≠ []) ∧
    (CompressEnds D chunk out inp lvl mem ↔
      inp.ok = false ∨ out.ok = false ∨ (D.init lvl mem).1 ≠ .ok ∨ maxVector < chunk ∨
        toUInt chunk ≠ 0 ∨
        (chunk ≠ 0 ∧ inp.eof = false ∧ inp.rest ≠ [] ∧ ∃ n, out.room = some n)) :=
  ⟨Io.ChainBuffer.appendEnds_iff (Io.ChainBuffer.storeLts_vectors hrun i), compressEnds_iff L⟩

/-- One buffer of block size 8, and one byte to compress in chunks of
16384. -/
theorem chunked_loops_end_one :
    (AppendEnds ⟨8, [[]], 0, 0, 0⟩ [7] ↔
      ([7] : Io.Bytes) = [] ∨ 8 ≠ 0 ∨
        ∃ back : Io.Bytes, [[]].getLast? = some back ∧ back ≠ []) ∧
    (CompressEnds sampleDeflater 16384 OStream.empty (.ofBytes [0x61]) (-1) 8 ↔
      (IStream.ofBytes [0x61]).ok = false ∨ OStream.empty.ok = false ∨
        (sampleDeflater.init (-1) 8).1 ≠ .ok ∨ maxVector < 16384 ∨ toUInt 16384 ≠ 0 ∨
        (16384 ≠ 0 ∧ (IStream.ofBytes [0x61]).eof = false ∧ (IStream.ofBytes [0x61]).rest ≠ [] ∧
          ∃ n, OStream.empty.room = some n)) := by
  have hrun : (storeLts (ι := Unit)).Run [] fun _ => ⟨8, [[]], 0, 0, 0⟩ :=
    .start fun _ => ⟨8, rfl⟩
  exact chunked_loops_end_iff hrun () [7] sampleDeflater_contract 16384 OStream.empty
    (.ofBytes [0x61]) (-1) 8

/-- With a block size of zero a byte is never appended, and with a chunk
size of zero a byte is never compressed. -/
theorem chunked_loops_run_on :
    (∃ b, Io.ChainBuffer.new 0 = .ok b ∧ ¬ AppendEnds b [7]) ∧
      ¬ CompressEnds sampleDeflater 0 OStream.empty (.ofBytes [0x61]) (-1) 8 := by
  refine ⟨⟨_, rfl, ?_⟩, ?_⟩
  · rintro ⟨fuel, hends⟩
    refine hends (Io.ChainBuffer.appendLoop_diverges (by decide) fuel ?_)
    rintro (h | ⟨back, hback, hne⟩)
    · exact h rfl
    · exact hne (Option.some.inj hback).symm
  · rw [compressEnds_iff sampleDeflater_contract]
    rintro (h | h | h | h | h | ⟨h, -⟩)
    · cases h
    · cases h
    · exact h rfl
    · exact absurd h (by decide)
    · exact h rfl
    · exact h rfl

end HighJump.Compress.Gzip
