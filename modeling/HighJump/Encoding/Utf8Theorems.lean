/-
HighJump.Encoding.Utf8Theorems — the stream encoder against the string
encoder.

The stream encoder converts in chunks of 4096 bytes. By
`HighJump.Lib.chunked_eq_iff` that agrees with converting the whole
exactly when every multiple of 4096 inside the text falls between two
characters.
-/
import HighJump.Encoding.Utf8
import HighJump.Lib.Chunks
import Mathlib.Data.List.TakeWhile

namespace HighJump.Encoding.Utf8

open HighJump.Lib

/-- A character that may stand in a C string. -/
abbrev TextChar := { c : Char // c ≠ '\x00' }

/-- The UTF-8 form of a character. -/
def charBytes (c : TextChar) : List UInt8 := String.utf8EncodeChar c.val

/-- The wide character of a character. -/
def wide (c : TextChar) : WChar := c.val.val

/-- The UTF-8 form of a text: every valid byte string without a zero byte. -/
def utf8 (cs : List TextChar) : List UInt8 := cs.flatMap charBytes

/-- `mbsrtowcs` in a UTF-8 locale: complete sequences are converted, a
string that ends in an incomplete one is refused. -/
def Utf8Locale (mbsrtowcs : List UInt8 → Option (List WChar)) : Prop :=
  Converts charBytes wide mbsrtowcs

/-! ## No zero bytes -/

theorem ofNat_ne_zero {n : Nat} (hpos : 0 < n) (hlt : n < 256) : UInt8.ofNat n ≠ 0 := by
  intro h
  have hn := congrArg UInt8.toNat h
  rw [UInt8.toNat_ofNat', Nat.mod_eq_of_lt hlt] at hn
  exact absurd hn (by simp; omega)

/-- Only the zero character has a zero byte. -/
theorem zero_notMem_charBytes (c : TextChar) : (0 : UInt8) ∉ charBytes c := by
  have hpos : 0 < c.val.val.toNat := by
    rw [Nat.pos_iff_ne_zero]
    intro hzero
    exact c.property (Char.ext (UInt32.toNat_inj.mp hzero))
  intro hmem
  rw [charBytes, String.utf8EncodeChar] at hmem
  split at hmem
  · rw [List.mem_singleton] at hmem
    exact ofNat_ne_zero hpos (by omega) hmem.symm
  · split at hmem
    · simp only [List.mem_cons, List.not_mem_nil, or_false] at hmem
      rcases hmem with h | h
      all_goals exact ofNat_ne_zero (by omega) (by omega) h.symm
    · split at hmem
      · simp only [List.mem_cons, List.not_mem_nil, or_false] at hmem
        rcases hmem with h | h | h
        all_goals exact ofNat_ne_zero (by omega) (by omega) h.symm
      · simp only [List.mem_cons, List.not_mem_nil, or_false] at hmem
        rcases hmem with h | h | h | h
        all_goals exact ofNat_ne_zero (by omega) (by omega) h.symm

theorem zero_notMem_utf8 (cs : List TextChar) : (0 : UInt8) ∉ utf8 cs := by
  rw [utf8, List.mem_flatMap]
  rintro ⟨c, _, hc⟩
  exact zero_notMem_charBytes c hc

theorem cString_eq {bs : List UInt8} (h : (0 : UInt8) ∉ bs) : cString bs = bs := by
  rw [cString, List.takeWhile_eq_self_iff]
  intro b hb
  rw [bne_iff_ne]
  rintro rfl
  exact h hb

/-! ## The loop -/

section Loop

variable {mbsrtowcs : List UInt8 → Option (List WChar)}

/-- A chunk that is converted is written. -/
theorem encodeTurn_again {out : WOStream} {inp inp' : IStream} {chunk : List UInt8} (fuel : Nat)
    (hread : inp.read utf8BufSz = (inp', chunk)) (hne : chunk ≠ []) (hzero : (0 : UInt8) ∉ chunk)
    {ws : List WChar} (hws : mbsrtowcs chunk = some ws) :
    encodeTurn mbsrtowcs fuel (out, inp) = some (.again (out.write ws, inp')) := by
  have hlen : 0 < chunk.length := List.length_pos_iff.mpr hne
  simp [encodeTurn, hread, hlen, encodeEc, cString_eq hzero, hws]

/-- A chunk that is refused ends the loop. -/
theorem encodeTurn_refused {out : WOStream} {inp inp' : IStream} {chunk : List UInt8} (fuel : Nat)
    (hread : inp.read utf8BufSz = (inp', chunk)) (hne : chunk ≠ []) (hzero : (0 : UInt8) ∉ chunk)
    (hws : mbsrtowcs chunk = none) :
    encodeTurn mbsrtowcs fuel (out, inp) = some (.exit out) := by
  have hlen : 0 < chunk.length := List.length_pos_iff.mpr hne
  simp [encodeTurn, hread, hlen, encodeEc, cString_eq hzero, hws]

/-- On a stream that has come to its end the loop stops. -/
theorem encodeTurn_end {out : WOStream} {inp inp' : IStream} (fuel : Nat)
    (hread : inp.read utf8BufSz = (inp', [])) (hfail : inp'.fail = true) :
    encodeTurn mbsrtowcs fuel (out, inp) = some (.exit out.flush) := by
  simp [encodeTurn, hread, IStream.ok, hfail]

/-- One read takes a chunk and leaves a good stream, or the end. -/
theorem read_chunk {inp : IStream} (hin : inp.Good) :
    ∃ inp', inp.read utf8BufSz = (inp', inp.rest.take utf8BufSz) ∧
      (inp'.Good ∧ inp'.rest = inp.rest.drop utf8BufSz ∨
        inp'.fail = true ∧ inp.rest.drop utf8BufSz = []) := by
  by_cases hshort : inp.rest.length < utf8BufSz
  · obtain ⟨inp', hread, hfail, _⟩ := IStream.read_short hin hshort
    refine ⟨inp', ?_, .inr ⟨hfail, List.drop_eq_nil_of_le (Nat.le_of_lt hshort)⟩⟩
    rw [hread, List.take_of_length_le (Nat.le_of_lt hshort)]
  · obtain ⟨inp', hread, hin', hrest'⟩ := IStream.read_take hin (Nat.not_lt.mp hshort)
    exact ⟨inp', hread, .inl ⟨hin', hrest'⟩⟩

/-- The loop converts the rest of the stream chunk by chunk. -/
theorem encodeTurn_chunked (fuel : Nat) :
    ∀ {out : WOStream} {inp : IStream}, inp.Good → (0 : UInt8) ∉ inp.rest →
      inp.rest.length < fuel →
      ∃ out', repeatUntil (encodeTurn mbsrtowcs) fuel (out, inp) = some out' ∧
        out'.written = out.written ++ chunked mbsrtowcs utf8BufSz fuel inp.rest := by
  induction fuel with
  | zero => intro out inp _ _ hfuel; omega
  | succ fuel ih =>
      intro out inp hin hzero hfuel
      have htakezero : (0 : UInt8) ∉ inp.rest.take utf8BufSz :=
        fun h => hzero (List.mem_of_mem_take h)
      by_cases hnil : inp.rest = []
      · obtain ⟨inp', hread, hfail, _⟩ :=
          IStream.read_short hin (n := utf8BufSz) (by rw [hnil]; decide)
        rw [hnil] at hread
        refine ⟨out.flush, repeatUntil_exit (encodeTurn_end fuel hread hfail), ?_⟩
        rw [hnil]
        simp [chunked, WOStream.flush]
      have hempty : inp.rest.isEmpty = false := by
        rw [List.isEmpty_eq_false_iff]
        exact hnil
      have hchunk : inp.rest.take utf8BufSz ≠ [] := by
        intro h
        rcases List.take_eq_nil_iff.mp h with h | h
        · exact absurd h (by decide)
        · exact hnil h
      obtain ⟨inp', hread, hrest⟩ := read_chunk hin
      cases hws : mbsrtowcs (inp.rest.take utf8BufSz) with
      | none =>
          refine ⟨out, repeatUntil_exit (encodeTurn_refused fuel hread hchunk htakezero hws), ?_⟩
          simp [chunked, hempty, hws]
      | some ws =>
          have hturn : encodeTurn mbsrtowcs fuel (out, inp) = some (.again (out.write ws, inp')) :=
            encodeTurn_again fuel hread hchunk htakezero hws
          have hshort : (inp.rest.drop utf8BufSz).length < fuel := by
            have hpos : 0 < inp.rest.length := List.length_pos_iff.mpr hnil
            rw [List.length_drop, utf8BufSz]
            omega
          have hwritten : chunked mbsrtowcs utf8BufSz (fuel + 1) inp.rest =
              ws ++ chunked mbsrtowcs utf8BufSz fuel (inp.rest.drop utf8BufSz) := by
            simp only [chunked, hempty, Bool.false_eq_true, if_false, hws]
          rcases hrest with ⟨hin', hrest'⟩ | ⟨hfail, hdrop⟩
          · obtain ⟨out', hrun, hout⟩ := @ih (out.write ws) inp' hin'
              (by rw [hrest']; exact fun h => hzero (List.mem_of_mem_drop h))
              (by rw [hrest']; exact hshort)
            refine ⟨out', (repeatUntil_again hturn).trans hrun, ?_⟩
            rw [hout, hrest', hwritten, WOStream.write, List.append_assoc]
          · obtain ⟨fuel, rfl⟩ : ∃ n, fuel = n + 1 := ⟨fuel - 1, by omega⟩
            have hend : inp'.read utf8BufSz = ({ inp' with fail := true }, []) := by
              simp [IStream.read, hfail]
            refine ⟨(out.write ws).flush,
              (repeatUntil_again hturn).trans (repeatUntil_exit (encodeTurn_end fuel hend rfl)), ?_⟩
            rw [hwritten, hdrop]
            simp [chunked, WOStream.flush, WOStream.write]

/-- **The stream encoder, chunk by chunk.** -/
theorem encodeStream_written (out : WOStream) {inp : IStream} (hin : inp.Good)
    (hzero : (0 : UInt8) ∉ inp.rest) :
    ∃ out', encodeStream mbsrtowcs out inp = some out' ∧
      out'.written = out.written ++
        chunked mbsrtowcs utf8BufSz (inp.rest.length + 1) inp.rest :=
  encodeTurn_chunked (inp.rest.length + 1) hin hzero (Nat.lt_succ_self _)

end Loop

/-! ## A UTF-8 locale -/

/-- Decoding with the standard library's decoder. -/
def decodeAll (bs : List UInt8) : Option (List WChar) :=
  (bs.toByteArray.utf8Decode?).map fun cs => cs.toList.map Char.val

theorem toByteArray_utf8 (cs : List TextChar) :
    (utf8 cs).toByteArray = (cs.map Subtype.val).utf8Encode := by
  rw [List.utf8Encode, List.flatMap_map]
  rfl

/-- No character's bytes go on behind those of another. -/
theorem charBytes_prefix {c d : Char} {rest : List UInt8}
    (h : String.utf8EncodeChar d ++ rest = String.utf8EncodeChar c) : rest = [] := by
  have hd : ((String.utf8EncodeChar d ++ rest).toByteArray).utf8DecodeChar? 0 = some d := by
    rw [List.toByteArray_append]
    exact ByteArray.utf8DecodeChar?_utf8EncodeChar_append
  have hc : ((String.utf8EncodeChar c ++ []).toByteArray).utf8DecodeChar? 0 = some c := by
    rw [List.toByteArray_append]
    exact ByteArray.utf8DecodeChar?_utf8EncodeChar_append
  rw [List.append_nil, ← h, hd] at hc
  obtain rfl : d = c := Option.some.inj hc
  exact List.append_right_eq_self.mp h

/-- A beginning of a character is no text. -/
theorem utf8Decode?_beginning {c : Char} {pre post : List UInt8} (hpre : pre ≠ []) (hpost : post ≠ [])
    (h : pre ++ post = String.utf8EncodeChar c) : pre.toByteArray.utf8Decode? = none := by
  by_contra hsome
  obtain ⟨l, hl⟩ := ByteArray.isSome_utf8Decode?_iff.mp (Option.isSome_iff_ne_none.mpr hsome)
  have hbytes : pre = l.flatMap String.utf8EncodeChar := by
    rw [List.utf8Encode] at hl
    have hdata := congrArg (fun b : ByteArray => b.data.toList) hl
    simpa using hdata
  cases l with
  | nil => exact hpre hbytes
  | cons d l =>
      rw [hbytes, List.flatMap_cons, List.append_assoc] at h
      have hrest := charBytes_prefix h
      exact hpost (List.append_eq_nil_iff.mp hrest).2

theorem utf8Decode?_append (l : List Char) (b : ByteArray) :
    (l.utf8Encode ++ b).utf8Decode? = b.utf8Decode?.map (l.toArray ++ ·) := by
  induction l with
  | nil => simp
  | cons c l ih =>
      rw [List.utf8Encode_cons, ByteArray.append_assoc,
        ByteArray.utf8Decode?_utf8Encode_singleton_append, ih, Option.map_map]
      congr 1
      funext cs
      apply Array.toList_inj.mp
      simp

theorem decodeAll_utf8Locale : Utf8Locale decodeAll where
  word_ne_nil := fun c => String.utf8EncodeChar_ne_nil
  complete := by
    intro cs
    have hbytes := toByteArray_utf8 cs
    rw [utf8] at hbytes
    rw [decodeAll, hbytes, List.utf8Decode?_utf8Encode]
    simp [wide]
  incomplete := by
    intro cs c pre post hpre hpost h
    have hbytes := toByteArray_utf8 cs
    rw [utf8] at hbytes
    rw [decodeAll, List.toByteArray_append, hbytes, utf8Decode?_append,
      utf8Decode?_beginning hpre hpost h]
    rfl

/-! ## The two encoders -/

theorem encode_utf8 {mbsrtowcs : List UInt8 → Option (List WChar)} (hloc : Utf8Locale mbsrtowcs)
    (cs : List TextChar) : encode mbsrtowcs (utf8 cs) = cs.map wide := by
  have hcomplete : mbsrtowcs (utf8 cs) = some (cs.map wide) := hloc.complete cs
  simp only [encode, encodeEc, cString_eq (zero_notMem_utf8 cs), hcomplete]

/-- The two encoders agree when the chunks are cut between characters. -/
theorem agree_iff_cutsBetweenWords {mbsrtowcs : List UInt8 → Option (List WChar)}
    (hloc : Utf8Locale mbsrtowcs) (cs : List TextChar) (out : WOStream) {inp : IStream}
    (hin : inp.Good) (hrest : inp.rest = utf8 cs) :
    (∃ out', encodeStream mbsrtowcs out inp = some out' ∧
        out'.written = out.written ++ encode mbsrtowcs (utf8 cs)) ↔
      CutsBetweenWords charBytes utf8BufSz cs := by
  have hiff := chunked_eq_iff hloc (show 0 < utf8BufSz by decide) ((utf8 cs).length + 1) cs
    (Nat.lt_succ_self _)
  obtain ⟨out', hrun, hwritten⟩ :=
    @encodeStream_written mbsrtowcs out inp hin (by rw [hrest]; exact zero_notMem_utf8 cs)
  rw [hrest] at hwritten
  rw [encode_utf8 hloc]
  refine Iff.trans ?_ hiff
  constructor
  · rintro ⟨out'', hrun', hwritten'⟩
    obtain rfl : out' = out'' := Option.some.inj (hrun.symm.trans hrun')
    exact List.append_cancel_left (hwritten.symm.trans hwritten')
  · intro h
    exact ⟨out', hrun, hwritten.trans (congrArg _ h)⟩

/-- **The stream encoder agrees with the string encoder exactly when** every
multiple of the buffer size inside the text falls between two characters. -/
theorem encodeStream_eq_encode_iff (mbsrtowcs : List UInt8 → Option (List WChar))
    (hloc : Utf8Locale mbsrtowcs) (cs : List TextChar) (out : WOStream) (inp : IStream)
    (hin : inp.Good) (hrest : inp.rest = utf8 cs) :
    (∃ out', encodeStream mbsrtowcs out inp = some out' ∧
        out'.written = out.written ++ encode mbsrtowcs (utf8 cs)) ↔
      ∀ k, 4096 * k < (utf8 cs).length → ∃ i, (utf8 (cs.take i)).length = 4096 * k :=
  agree_iff_cutsBetweenWords hloc cs out hin hrest

/-- One short text in the standard library's locale. -/
theorem encodeStream_eq_encode_short :
    Utf8Locale decodeAll ∧
      ∃ out', encodeStream decodeAll ⟨[], 0⟩ (.ofBytes (utf8 [⟨'é', by decide⟩])) = some out' ∧
        out'.written = [] ++ encode decodeAll (utf8 [⟨'é', by decide⟩]) := by
  refine ⟨decodeAll_utf8Locale, (encodeStream_eq_encode_iff decodeAll decodeAll_utf8Locale
    [⟨'é', by decide⟩] ⟨[], 0⟩ _ (IStream.good_ofBytes _) rfl).mpr ?_⟩
  intro k hk
  have hlen : (utf8 [⟨'é', by decide⟩]).length = 2 := by decide
  exact ⟨0, by rw [hlen] at hk; simp [utf8]; omega⟩

/-- 4095 letters, then a character of two bytes. -/
def splitText : List TextChar := List.replicate 4095 ⟨'a', by decide⟩ ++ [⟨'é', by decide⟩]

theorem length_splitText_take (i : Nat) :
    ((splitText.take i).flatMap charBytes).length =
      min i 4095 + if i ≤ 4095 then 0 else 2 := by
  have ha : (charBytes ⟨'a', by decide⟩).length = 1 := by decide
  have he : (charBytes ⟨'é', by decide⟩).length = 2 := by decide
  rw [splitText, List.take_append, List.take_replicate, List.length_replicate, List.flatMap_append,
    List.length_append, List.length_flatMap, List.map_replicate, List.sum_replicate_nat, ha, Nat.mul_one]
  split
  · next h => rw [Nat.sub_eq_zero_of_le h]; simp
  · next h =>
      rw [List.take_of_length_le (by rw [List.length_singleton]; omega), List.flatMap_singleton, he]

/-- The character at the end of the first buffer is lost, and the rest with
it. -/
theorem encodeStream_splitText :
    ¬ ∃ out', encodeStream decodeAll ⟨[], 0⟩ (.ofBytes (utf8 splitText)) = some out' ∧
        out'.written = [] ++ encode decodeAll (utf8 splitText) := by
  have hiff := agree_iff_cutsBetweenWords decodeAll_utf8Locale splitText ⟨[], 0⟩
    (IStream.good_ofBytes (utf8 splitText)) rfl
  intro h
  have hall : splitText.take 4096 = splitText := by
    rw [splitText, List.take_of_length_le]
    rw [List.length_append, List.length_replicate, List.length_singleton]
  have hlen : (splitText.flatMap charBytes).length = 4097 := by
    have := length_splitText_take 4096
    rw [hall] at this
    exact this
  obtain ⟨i, hi⟩ := hiff.mp h 1 (by rw [hlen]; decide)
  rw [length_splitText_take] at hi
  have hi : min i 4095 + (if i ≤ 4095 then 0 else 2) = 4096 := hi
  split at hi <;> omega

end HighJump.Encoding.Utf8
