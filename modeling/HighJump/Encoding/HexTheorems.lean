/-
HighJump.Encoding.HexTheorems — the two directions of the hexadecimal
codec agree.

Whatever formatting state a stream had before, after the manipulators of
`encode` each byte goes out as the pair `hexPair`, so both encoders write
`s.flatMap (hexPair upper)`. Decoding a pair gives its byte back, and the
filter in front of the decoder undoes any insertion of other characters.
What is left is `is_valid`, whose `int` counter cannot reach the end of an
encoding of 2^31 characters or more.
-/
import HighJump.Encoding.Hex

namespace HighJump.Encoding.Hex

open HighJump.Lib

/-! ## Digits -/

/-- The two digits of a byte. -/
def hexPair (upper : Bool) (c : UInt8) : List UInt8 :=
  [({ uppercase := upper } : Fmt).digit (c.toNat / 16),
    ({ uppercase := upper } : Fmt).digit (c.toNat % 16)]

theorem hexCharToValue_digit : ∀ (upper : Bool) (d : Nat), d < 16 →
    hexCharToValue (({ uppercase := upper } : Fmt).digit d) = d := by decide

theorem isHexChar_digit : ∀ (upper : Bool) (d : Nat), d < 16 →
    isHexChar (({ uppercase := upper } : Fmt).digit d) = true := by decide

/-- A filled field of two holds both digits of a byte. -/
theorem numeral_filled (f : Fmt) (hbase : f.base = .hex) (c : UInt8) :
    List.replicate (2 - (f.numeral c.toNat).length) 0x30 ++ f.numeral c.toNat =
      hexPair f.uppercase c := by
  have hc : c.toNat < 256 := c.toNat_lt
  have hradix : f.radix = 16 := by rw [Fmt.radix, hbase]
  by_cases hzero : c.toNat = 0
  · have hdigit : ∀ upper : Bool, ({ uppercase := upper } : Fmt).digit 0 = 0x30 := by decide
    rw [hexPair, hzero, hdigit, Fmt.numeral, if_pos rfl]
    rfl
  · rw [Fmt.numeral, if_neg hzero, hradix]
    by_cases hsmall : c.toNat < 16
    · rw [Nat.digits_of_lt 16 c.toNat hzero hsmall, hexPair, Nat.div_eq_of_lt hsmall,
        Nat.mod_eq_of_lt hsmall]
      rfl
    · rw [Nat.digits_def' (by decide) (by omega),
        Nat.digits_of_lt 16 (c.toNat / 16) (by omega) (by omega)]
      rfl

/-! ## Encoding -/

/-- The state `encode` brings a stream into. -/
structure Hexing (upper : Bool) (s : FStream) : Prop where
  isOpen : s.out.Open
  showbase : s.fmt.showbase = false
  adjust : s.fmt.adjust ≠ .left
  base : s.fmt.base = .hex
  uppercase : s.fmt.uppercase = upper

theorem hexing_of_plain {s : FStream} (h : s.Plain) (upper : Bool) :
    Hexing upper ((s.letters upper).hex) :=
  ⟨h.isOpen, h.showbase, h.adjust, rfl, rfl⟩

/-- One byte is its pair of digits, and the state stays. -/
theorem encodeByte_hexing {upper : Bool} {s : FStream} (h : Hexing upper s) (c : UInt8) :
    Hexing upper (encodeByte s c) ∧
      (encodeByte s c).out.written = s.out.written ++ hexPair upper c := by
  let f : Fmt := { s.fmt with width := 2, fill := 0x30 }
  have hmark : f.hexMark c.toNat = [] := by
    rw [Fmt.hexMark, if_neg]
    intro hm
    exact absurd (h.showbase.symm.trans hm.1) Bool.false_ne_true
  have hoct : f.octMark c.toNat = [] := by
    rw [Fmt.octMark, if_neg]
    intro hm
    exact absurd (h.showbase.symm.trans hm.1) Bool.false_ne_true
  have hfilled := numeral_filled f h.base c
  have hpad : f.pad [] (f.numeral c.toNat) = hexPair upper c := by
    rw [show f.uppercase = upper from h.uppercase] at hfilled
    rw [← hfilled, Fmt.pad]
    have hadj : f.adjust ≠ .left := h.adjust
    cases hside : f.adjust with
    | left => exact absurd hside hadj
    | right => simp [f]
    | internal => simp [f]
  have hinsert := FStream.Plain.insert (s := (s.setw 2).setfill 0x30) h.isOpen h.showbase h.adjust
    (hexPair upper c)
  have heq : encodeByte s c = ((s.setw 2).setfill 0x30).insert (hexPair upper c) := by
    rw [encodeByte, FStream.putUnsigned]
    congr 1
    change f.pad (f.hexMark c.toNat) (f.octMark c.toNat ++ f.numeral c.toNat) = hexPair upper c
    rw [hmark, hoct, List.nil_append, hpad]
  obtain ⟨hplain, hwritten⟩ := hinsert
  have hgood : ((s.setw 2).setfill 0x30).good = true := by
    rw [FStream.good, OStream.ok]
    exact congrArg not h.isOpen.fail
  have hfmt : (((s.setw 2).setfill 0x30).insert (hexPair upper c)).fmt =
      { s.fmt with width := 0, fill := 0x30 } := by
    rw [FStream.insert, if_pos hgood]
    rfl
  rw [heq]
  refine ⟨⟨hplain.isOpen, hplain.showbase, hplain.adjust, ?_, ?_⟩, hwritten⟩
  · rw [hfmt]
    exact h.base
  · rw [hfmt]
    exact h.uppercase

theorem encodeImpl_hexing {upper : Bool} (value : List UInt8) :
    ∀ {s : FStream}, Hexing upper s →
      (encodeImpl s value).out.written = s.out.written ++ value.flatMap (hexPair upper) := by
  induction value with
  | nil => intro s _; simp [encodeImpl]
  | cons c value ih =>
      intro s h
      obtain ⟨hnext, hwritten⟩ := encodeByte_hexing h c
      have hrest := ih hnext
      rw [hwritten, List.append_assoc] at hrest
      exact hrest

/-- **The encoding, pair by pair.** -/
theorem encode_eq (value : List UInt8) (upper : Bool) :
    encode value upper = value.flatMap (hexPair upper) :=
  encodeImpl_hexing value (hexing_of_plain FStream.plain_fresh upper)

theorem length_encode (value : List UInt8) (upper : Bool) :
    (encode value upper).length = 2 * value.length := by
  rw [encode_eq, List.length_flatMap]
  simp [hexPair, Nat.mul_comm]

theorem mem_encode {value : List UInt8} {upper : Bool} {c : UInt8} (h : c ∈ encode value upper) :
    ∃ d, d < 16 ∧ c = ({ uppercase := upper } : Fmt).digit d := by
  rw [encode_eq, List.mem_flatMap] at h
  obtain ⟨b, _, hc⟩ := h
  have hb : b.toNat < 256 := b.toNat_lt
  rw [hexPair, List.mem_cons, List.mem_singleton] at hc
  rcases hc with hc | hc
  · exact ⟨b.toNat / 16, by omega, hc⟩
  · exact ⟨b.toNat % 16, by omega, hc⟩

/-! ## Decoding -/

theorem decodeImpl_hexPair (upper : Bool) (c : UInt8) (rest : List UInt8) :
    decodeImpl (hexPair upper c ++ rest) = c :: decodeImpl rest := by
  have hc : c.toNat < 256 := c.toNat_lt
  have hbyte : UInt8.ofNat ((c.toNat / 16) <<< 4 ||| c.toNat % 16) = c := by
    rw [← Nat.shiftLeft_add_eq_or_of_lt (show c.toNat % 16 < 2 ^ 4 by omega), Nat.shiftLeft_eq,
      Nat.div_add_mod', UInt8.ofNat_toNat]
  rw [hexPair, List.cons_append, List.cons_append, List.nil_append, decodeImpl,
    decodeImpl.pushPair, hexCharToValue_digit upper _ (by omega),
    hexCharToValue_digit upper _ (by omega), if_pos (by omega), Int.toNat_natCast,
    Int.toNat_natCast, hbyte]

theorem decodeImpl_encode (upper : Bool) (value : List UInt8) :
    decodeImpl (encode value upper) = value := by
  rw [encode_eq]
  induction value with
  | nil => rfl
  | cons c value ih => rw [List.flatMap_cons, decodeImpl_hexPair, ih]

/-- Only digits are looked at. -/
theorem decode_of_filter {str value : List UInt8} {upper : Bool}
    (h : str.filter (fun c => decide (hexCharToValue c ≥ 0)) = encode value upper) :
    decode str = value := by
  have heven : ¬ (encode value upper).length % 2 ≠ 0 := by
    rw [length_encode]
    omega
  rw [decode, h, if_neg heven, decodeImpl_encode]

theorem filter_encode (value : List UInt8) (upper : Bool) :
    (encode value upper).filter (fun c => decide (hexCharToValue c ≥ 0)) = encode value upper := by
  rw [List.filter_eq_self]
  intro c hc
  obtain ⟨d, hd, rfl⟩ := mem_encode hc
  rw [hexCharToValue_digit upper d hd]
  simp

/-- `Inserted e t`: `t` is `e` with characters put in that are no
hexadecimal digits. -/
inductive Inserted : List UInt8 → List UInt8 → Prop where
  | nil : Inserted [] []
  | keep (c : UInt8) {e t : List UInt8} : Inserted e t → Inserted (c :: e) (c :: t)
  | put (c : UInt8) {e t : List UInt8} : isHexChar c = false → Inserted e t → Inserted e (c :: t)

theorem hexCharToValue_neg {c : UInt8} (h : isHexChar c = false) : ¬ hexCharToValue c ≥ 0 := by
  simp only [isHexChar, Bool.or_eq_false_iff, Bool.and_eq_false_imp, decide_eq_true_eq,
    decide_eq_false_iff_not] at h
  obtain ⟨⟨hd, hl⟩, hu⟩ := h
  rw [hexCharToValue, if_neg fun hc => hd hc.1 hc.2, if_neg fun hc => hu hc.1 hc.2,
    if_neg fun hc => hl hc.1 hc.2]
  decide

theorem Inserted.filter_eq {e t : List UInt8} (h : Inserted e t) :
    t.filter (fun c => decide (hexCharToValue c ≥ 0)) =
      e.filter fun c => decide (hexCharToValue c ≥ 0) := by
  induction h with
  | nil => rfl
  | keep c _ ih => rw [List.filter_cons, List.filter_cons, ih]
  | put c hc _ ih => rw [List.filter_cons_of_neg (by simpa using hexCharToValue_neg hc), ih]

/-! ## Validation -/

theorem isValidLoop_true {buf : List UInt8} (hhex : ∀ c ∈ buf, isHexChar c = true) (n : Nat) :
    ∀ i, i + n = buf.length → buf.length ≤ intMax → isValidLoop buf n i = some true := by
  induction n with
  | zero => intro i _ _; rfl
  | succ n ih =>
      intro i hi hmax
      have hget : buf[i]? = some buf[i] := List.getElem?_eq_getElem (by omega)
      simp only [isValidLoop, hget, hhex _ (List.getElem_mem _), Bool.not_true, Bool.false_eq_true,
        if_false]
      rw [if_pos (by omega)]
      exact ih (i + 1) (by omega) hmax

/-- More digits than the counter can count. -/
theorem isValidLoop_none {buf : List UInt8} (hhex : ∀ c ∈ buf, isHexChar c = true) (n : Nat) :
    ∀ i, i + n = buf.length → i ≤ intMax → intMax < buf.length → isValidLoop buf n i = none := by
  induction n with
  | zero => intro i hi hle hmax; omega
  | succ n ih =>
      intro i hi hle hmax
      have hget : buf[i]? = some buf[i] := List.getElem?_eq_getElem (by omega)
      simp only [isValidLoop, hget, hhex _ (List.getElem_mem _), Bool.not_true, Bool.false_eq_true,
        if_false]
      split
      · exact ih (i + 1) (by omega) (by omega) hmax
      · rfl

theorem isHexChar_encode (value : List UInt8) (upper : Bool) :
    ∀ c ∈ encode value upper, isHexChar c = true := by
  intro c hc
  obtain ⟨d, hd, rfl⟩ := mem_encode hc
  exact isHexChar_digit upper d hd

/-- An encoding reaches the loop of `is_valid`. -/
theorem isValidString_encode {value : List UInt8} (hne : value ≠ []) (upper : Bool) :
    isValidString (encode value upper) =
      isValidLoop (encode value upper) (encode value upper).length 0 := by
  have hpos : 0 < value.length := List.length_pos_iff.mpr hne
  rw [isValidString, isValid, if_neg (by rw [length_encode]; omega),
    if_neg (by rw [length_encode]; omega)]

theorem isValidString_encode_true {value : List UInt8} (hne : value ≠ []) (upper : Bool)
    (hlen : value.length < 2 ^ 30) : isValidString (encode value upper) = some true := by
  rw [isValidString_encode hne]
  refine isValidLoop_true (isHexChar_encode value upper) _ 0 (Nat.zero_add _) ?_
  rw [length_encode, intMax]
  omega

theorem isValidString_encode_none {value : List UInt8} (hlen : 2 ^ 30 ≤ value.length)
    (upper : Bool) : isValidString (encode value upper) = none := by
  have hne : value ≠ [] := by
    rintro rfl
    simp at hlen
  rw [isValidString_encode hne]
  refine isValidLoop_none (isHexChar_encode value upper) _ 0 (Nat.zero_add _) (Nat.zero_le _) ?_
  rw [length_encode, intMax]
  omega

/-- The stream validator goes back exactly if the stream comes without a flag
and there are only digits left in it. -/
theorem isValidStream_goes_back {inp : IFStream} (hopen : inp.isOpen = true) :
    ∃ r inp', isValidStream inp = some (r, inp') ∧
      (inp'.pos = inp.pos ∧ inp'.Unflagged ↔
        inp.Unflagged ∧ ∀ c ∈ inp.rest, isHexChar c = true) := by
  obtain ⟨r, inp', hscan, hiff⟩ := scan_restores_iff (n := hexBufSz)
    (fun buf => (rfl : some (buf.all isHexChar) = some (buf.all isHexChar))) (by decide) hopen
  rw [everyChunk_all_iff (by decide)] at hiff
  exact ⟨r, inp', hscan, hiff⟩

/-! ## Streams -/

/-- The loop of the stream encoder takes the rest of the input. -/
theorem encodeTurn_all {upper : Bool} (rest : List UInt8) :
    ∀ {out : FStream} {inp : IStream}, Hexing upper out → inp.Good → inp.rest = rest →
      ∃ out' inp', repeatUntil encodeTurn (rest.length + 1) (out, inp) = some (out', inp') ∧
        out'.out.written = out.out.written ++ rest.flatMap (hexPair upper) := by
  induction rest with
  | nil =>
      intro out inp _ hin hrest
      obtain ⟨inp', hread, hfail, _⟩ := IStream.read_short hin (n := 1) (by rw [hrest]; decide)
      refine ⟨out, inp', ?_, by simp⟩
      apply repeatUntil_exit
      simp [encodeTurn, hread, IStream.ok, hfail]
  | cons c rest ih =>
      intro out inp hout hin hrest
      obtain ⟨inp1, hread, hin1, hrest1, _⟩ := @IStream.read_full inp hin [c] rest hrest
      have hread : inp.read 1 = (inp1, [c]) := hread
      obtain ⟨hout1, hwritten⟩ := encodeByte_hexing hout c
      obtain ⟨out', inp', hrun, hall⟩ := ih hout1 hin1 hrest1
      have hturn : encodeTurn (rest.length + 1) (out, inp) =
          some (.again (encodeByte out c, inp1)) := by
        simp [encodeTurn, hread, IStream.ok, hin1.fail]
      refine ⟨out', inp', (repeatUntil_again hturn).trans hrun, ?_⟩
      rw [hall, hwritten, List.append_assoc, List.flatMap_cons]

/-- The stream encoder writes what the string encoder returns. -/
theorem encodeStream_eq {out : FStream} {inp : IStream} (hout : out.Plain) (hin : inp.Good)
    (upper : Bool) :
    ∃ out' inp', encodeStream out inp upper = some (true, out', inp') ∧
      out'.out.written = out.out.written ++ encode inp.rest upper := by
  obtain ⟨out', inp', hrun, hwritten⟩ :=
    encodeTurn_all inp.rest (hexing_of_plain hout upper) hin rfl
  refine ⟨out', inp', ?_, ?_⟩
  · simp [encodeStream, hout.good, hin.eof, hin.fail, hrun]
  · rw [hwritten, encode_eq]
    rfl

/-- The stream decoder writes what the string decoder returns. -/
theorem decodeStream_eq {out : FStream} {inp : IStream} (hout : out.Plain) (hin : inp.Good) :
    ∃ out' inp', decodeStream out inp = (true, out', inp') ∧
      out'.out.written = out.out.written ++ decode inp.rest := by
  refine ⟨out.putString (decode inp.rest), (drain inp).1, ?_, (hout.putString _).2⟩
  simp [decodeStream, hout.good, hin.eof, hin.fail, drain]

/-! ## The codec -/

/-- What the codec promises for one byte string. -/
structure Codec (s : List UInt8) (upper : Bool) : Prop where
  roundTrip : decode (encode s upper) = s
  length : (encode s upper).length = 2 * s.length
  valid : s ≠ [] → isValidString (encode s upper) = some true
  inserted : ∀ t, Inserted (encode s upper) t → decode t = s
  streamEncode : ∀ (out : FStream) (inp : IStream), out.Plain → inp.Good → inp.rest = s →
    ∃ out' inp', encodeStream out inp upper = some (true, out', inp') ∧
      out'.out.written = out.out.written ++ encode s upper
  streamDecode : ∀ (out : FStream) (inp : IStream), out.Plain → inp.Good →
    ∃ out' inp', decodeStream out inp = (true, out', inp') ∧
      out'.out.written = out.out.written ++ decode inp.rest

/-- **The codec keeps its promise exactly for what `is_valid` can count.** -/
theorem codec_iff (s : List UInt8) (upper : Bool) : Codec s upper ↔ s.length < 2 ^ 30 := by
  constructor
  · intro h
    by_contra hlong
    have hne : s ≠ [] := by
      rintro rfl
      exact hlong (by decide)
    have hnone := isValidString_encode_none (Nat.le_of_not_lt hlong) upper
    rw [h.valid hne] at hnone
    cases hnone
  · intro hlen
    refine ⟨?_, length_encode s upper, ?_, ?_, ?_, ?_⟩
    · exact decode_of_filter (filter_encode s upper)
    · exact fun hne => isValidString_encode_true hne upper hlen
    · exact fun t ht => decode_of_filter (ht.filter_eq.trans (filter_encode s upper))
    · rintro out inp hout hin rfl
      exact encodeStream_eq hout hin upper
    · exact fun out inp hout hin => decodeStream_eq hout hin

/-- A gibibyte of zeros: its encoding is not accepted. -/
theorem codec_gibibyte : ¬ Codec (List.replicate (2 ^ 30) 0) true := by
  intro h
  have hlen : 2 ^ 30 ≤ (List.replicate (2 ^ 30) (0 : UInt8)).length :=
    Nat.le_of_eq List.length_replicate.symm
  have hne : List.replicate (2 ^ 30) (0 : UInt8) ≠ [] := by
    intro hnil
    rw [hnil] at hlen
    exact absurd hlen (by decide)
  have hvalid := h.valid hne
  rw [isValidString_encode_none hlen] at hvalid
  cases hvalid

end HighJump.Encoding.Hex
