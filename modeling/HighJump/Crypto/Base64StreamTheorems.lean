/-
HighJump.Crypto.Base64StreamTheorems — every way of encoding gives the one
encoding, and every way of decoding takes it back.

OpenSSL's part is stated by what its chains hold: `Bio.Streams` says that
a chain that is written to encodes all that was written, and
`Decoder.Delivers` that one over an encoding gives out what was encoded,
as many bytes at a time as are asked for. Both speak of the chains that
the code builds. The loops around them are inductions on what the input
still holds.
-/
import HighJump.Crypto.Base64Stream
import HighJump.Crypto.Base64Theorems

namespace HighJump.Crypto.Base64Stream

open HighJump.Lib
open HighJump.Crypto.Base64 (Bio encodeLenReserve base64BufSize)

/-- A chain holds what was written to it, in pieces of any size, up to
`limit` bytes. `At b64 x`: it has been created and `x` written to it. -/
structure Bio.Streams (B : Bio) (At : B.Chain → List UInt8 → Prop) (limit : Nat) : Prop where
  new : ∀ b64, B.newBase64 = some b64 → At b64 []
  write : ∀ b64 x (src : List UInt8), At b64 x → 0 < src.length → src.length < 2 ^ 31 →
    (x ++ src).length ≤ limit →
    (B.write b64 src src.length).1 = src.length ∧ At (B.write b64 src src.length).2 (x ++ src)
  mem : ∀ b64 x, At b64 x → B.mem (B.flush b64) = Lib.Base64.encode x

/-- A chain over an encoding gives out what was encoded. `Due b64 x`: of
that, `x` has not been read yet. -/
structure Decoder.Delivers (D : Decoder) (Due : D.Chain → List UInt8 → Prop) : Prop where
  newMemBuf : ∀ (x : List UInt8) b64, (Lib.Base64.encode x).length < 2 ^ 31 →
    D.newMemBuf (Lib.Base64.encode x) (Lib.Base64.encode x).length = some b64 → Due b64 x
  newFp : ∀ x : List UInt8, Due (D.newFp (Lib.Base64.encode x)) x
  read : ∀ b64 x n, Due b64 x → 0 < n → n < 2 ^ 31 →
    (D.read b64 n).1 = some (x.take n) ∧ Due (D.read b64 n).2 (x.drop n)

section

variable {B : Bio} {At : B.Chain → List UInt8 → Prop} {limit : Nat} {D : Decoder}
  {Due : D.Chain → List UInt8 → Prop}

/-! ## Encoding -/

/-- One that holds something reads a piece of it. -/
theorem read_piece {inp : IStream} {bs : List UInt8} (h : inp.Holds bs) (hne : bs ≠ []) :
    ∃ inp' buffer, inp.read base64BufSize = (inp', buffer) ∧
      inp'.Holds (bs.drop base64BufSize) ∧ buffer ≠ [] ∧
        bs = buffer ++ bs.drop base64BufSize ∧ buffer.length < 2 ^ 31 := by
  obtain ⟨-, inp', hread, hinp'⟩ := IStream.read_chunk base64BufSize h hne
  refine ⟨inp', _, hread, hinp', ?_, (List.take_append_drop _ _).symm, ?_⟩
  · simp [base64BufSize, hne]
  · simp only [List.length_take, base64BufSize]
    omega

theorem encode_loop (hB : Bio.Streams B At limit) (n : Nat) {x bs : List UInt8}
    (hn : bs.length ≤ n) {inp : IStream} (hinp : inp.Holds bs) {b64 : B.Chain} (hat : At b64 x)
    (hlimit : (x ++ bs).length ≤ limit) :
    ∃ b64', At b64' (x ++ bs) ∧
      Returns (fun fuel => repeatUntil (fun _ x => some (encodeTurn B x)) fuel (inp, b64))
        (.ok, some b64') := by
  induction n generalizing x bs inp b64 with
  | zero =>
    obtain rfl : bs = [] := List.eq_nil_of_length_eq_zero (Nat.le_zero.1 hn)
    obtain ⟨hread, hok⟩ := IStream.read_end hinp (n := base64BufSize) (by decide)
    refine ⟨b64, by simpa using hat, .repeat_exit ⟨0, fun _ _ => ?_⟩⟩
    simp [encodeTurn, hread, hok]
  | succ n ih =>
    by_cases hnil : bs = []
    · exact ih (by simp [hnil]) hinp hat hlimit
    · obtain ⟨inp', buffer, hread, hinp', hne, hsplit, hlt⟩ := read_piece hinp hnil
      have hpiece : (x ++ buffer).length ≤ limit := by
        have hlen := congrArg List.length hsplit
        rw [List.length_append] at hlen hlimit ⊢
        omega
      obtain ⟨hwrote, hat'⟩ := hB.write b64 x buffer hat (List.length_pos_iff.2 hne) hlt hpiece
      have hshort : (bs.drop base64BufSize).length ≤ n := by
        simp only [List.length_drop, base64BufSize]
        omega
      have hwhole : x ++ buffer ++ bs.drop base64BufSize = x ++ bs := by
        rw [List.append_assoc, ← hsplit]
      obtain ⟨b64', hall, hret⟩ := ih hshort hinp' hat' (by rwa [hwhole])
      refine ⟨b64', hwhole ▸ hall, .repeat_again ⟨0, fun _ _ => ?_⟩ hret⟩
      simp [encodeTurn, hread, hwrote, hne]

/-- Writing nothing changes nothing. -/
theorem write_nil (out : OStream) : out.write [] = out := by
  unfold OStream.write
  split
  · rfl
  · split
    · simp
    · next r hr => simp [← hr]

theorem encodeStream_returns (hB : Bio.Streams B At limit) (hnew : B.newBase64.isSome = true)
    (hmem : B.newMem = true) {x : List UInt8} (hlimit : x.length ≤ limit) {out : OStream}
    {inp : IStream} (hout : out.ok = true) (hgood : inp.Good) (hinp : inp.rest = x) :
    Returns (fun fuel => encodeStream B fuel out inp) (.ok, out.write (Lib.Base64.encode x)) := by
  obtain ⟨b64, hb64⟩ := Option.isSome_iff_exists.1 hnew
  obtain ⟨b64', hdata, N, hN⟩ := encode_loop hB x.length (Nat.le_refl _) (.inl ⟨hgood, hinp⟩)
    (hB.new b64 hb64) hlimit
  refine ⟨N, fun fuel hfuel => ?_⟩
  have hall : B.mem (B.flush b64') = Lib.Base64.encode x := by
    rw [hB.mem b64' _ hdata, List.nil_append]
  have hok : inp.ok = true := by simp [IStream.ok, hgood.fail]
  have hwrite : (if 0 < (Lib.Base64.encode x).length then out.write (Lib.Base64.encode x) else out)
      = out.write (Lib.Base64.encode x) := by
    cases Lib.Base64.encode x with
    | nil => simp [write_nil]
    | cons b bs => simp
  simp only [encodeStream, hok, hout, hb64, hmem, hN fuel hfuel, hall, Bool.not_true,
    Bool.or_self, Bool.false_eq_true, if_false, hwrite]

theorem encodeFile_returns (hB : Bio.Streams B At limit) (hnew : B.newBase64.isSome = true)
    {x : List UInt8} (hlimit : x.length ≤ limit) :
    Returns (fun fuel => encodeFile B fuel (some x) true) (.ok, some (Lib.Base64.encode x)) := by
  obtain ⟨b64, hb64⟩ := Option.isSome_iff_exists.1 hnew
  have hinp : (IStream.ofBytes x).Holds x := .inl ⟨IStream.good_ofBytes x, rfl⟩
  obtain ⟨b64', hdata, N, hN⟩ := encode_loop hB x.length (Nat.le_refl _) hinp (hB.new b64 hb64)
    hlimit
  refine ⟨N, fun fuel hfuel => ?_⟩
  have hall : B.mem (B.flush b64') = Lib.Base64.encode x := by
    rw [hB.mem b64' _ hdata, List.nil_append]
  simp [encodeFile, hb64, hN fuel hfuel, hall]

/-! ## Decoding -/

theorem append_loop (n : Nat) {bs : List UInt8} (hn : bs.length ≤ n) {inp : IStream}
    (hinp : inp.Holds bs) (inputBuf : List UInt8) :
    Returns (fun fuel => repeatUntil (fun _ x => some (appendTurn x)) fuel (inp, inputBuf))
      (inputBuf ++ bs) := by
  induction n generalizing bs inp inputBuf with
  | zero =>
    obtain rfl : bs = [] := List.eq_nil_of_length_eq_zero (Nat.le_zero.1 hn)
    obtain ⟨hread, hok⟩ := IStream.read_end hinp (n := base64BufSize) (by decide)
    refine .repeat_exit ⟨0, fun _ _ => ?_⟩
    simp [appendTurn, hread, hok]
  | succ n ih =>
    by_cases hnil : bs = []
    · exact ih (by simp [hnil]) hinp inputBuf
    · obtain ⟨inp', buffer, hread, hinp', hne, hsplit, -⟩ := read_piece hinp hnil
      have hshort : (bs.drop base64BufSize).length ≤ n := by
        simp only [List.length_drop, base64BufSize]
        omega
      have hrest := ih hshort hinp' (inputBuf ++ buffer)
      rw [List.append_assoc, ← hsplit] at hrest
      refine .repeat_again ⟨0, fun _ _ => ?_⟩ hrest
      simp [appendTurn, hread, hne]

/-- A read of a chain that is at its end, and of one that is not. -/
theorem read_cases (hD : Decoder.Delivers D Due) {b64 : D.Chain} {x : List UInt8}
    (hdue : Due b64 x) {n : Nat} (hn : 0 < n) (hint : n < 2 ^ 31) :
    (x = [] ∧ (D.read b64 n).1 = some []) ∨
      ∃ buffer b64' x', D.read b64 n = (some buffer, b64') ∧ buffer ≠ [] ∧ Due b64' x' ∧
        x = buffer ++ x' := by
  obtain ⟨hread, hrest⟩ := hD.read b64 x n hdue hn hint
  by_cases hnil : x = []
  · exact .inl ⟨hnil, by rw [hread, hnil, List.take_nil]⟩
  · refine .inr ⟨_, (D.read b64 n).2, _, Prod.ext hread rfl, ?_, hrest, ?_⟩
    · simp [hnil, Nat.pos_iff_ne_zero.1 hn]
    · rw [List.take_append_drop]

theorem read_loop (hD : Decoder.Delivers D Due) (n : Nat) {b64 : D.Chain} {x : List UInt8}
    (hdue : Due b64 x) (hn : x.length ≤ n) (out : OStream) :
    Returns (fun fuel => repeatUntil (fun _ x => some (readTurn D x)) fuel (b64, out))
      (out.write x) := by
  induction n generalizing b64 x out with
  | zero =>
    have hnil : x = [] := List.eq_nil_of_length_eq_zero (Nat.le_zero.1 hn)
    rcases read_cases hD hdue (n := base64BufSize) (by decide) (by decide) with
      ⟨-, hread⟩ | ⟨buffer, b64', x', -, hne, -, hsplit⟩
    · refine .repeat_exit ⟨0, fun _ _ => ?_⟩
      cases hr : D.read b64 base64BufSize with
      | mk got b64' =>
        rw [hr] at hread
        cases hread
        simp [readTurn, hr, hnil, write_nil]
    · simp [hnil, hne] at hsplit
  | succ n ih =>
    rcases read_cases hD hdue (n := base64BufSize) (by decide) (by decide) with
      ⟨hnil, -⟩ | ⟨buffer, b64', x', hread, hne, hdue', hsplit⟩
    · exact ih hdue (by simp [hnil]) out
    · have hshort : x'.length ≤ n := by
        have hlen := congrArg List.length hsplit
        have hpos := List.length_pos_iff.2 hne
        rw [List.length_append] at hlen
        omega
      have hret := ih hdue' hshort (out.write buffer)
      rw [← OStream.write_append, ← hsplit] at hret
      refine .repeat_again ⟨0, fun _ _ => ?_⟩ hret
      simp [readTurn, hread, hne]

theorem decodeStream_returns (hD : Decoder.Delivers D Due) (hnew : D.newBase64 = true)
    (hmem : ∀ src n, (D.newMemBuf src n).isSome = true) {x : List UInt8}
    (hlen : (Lib.Base64.encode x).length < 2 ^ 31) (out : OStream) {inp : IStream}
    (hinp : inp.Holds (Lib.Base64.encode x)) :
    Returns (fun fuel => decodeStream D fuel out inp) (.ok, out.write x) := by
  obtain ⟨b64, hb64⟩ := Option.isSome_iff_exists.1
    (hmem (Lib.Base64.encode x) (Lib.Base64.encode x).length)
  obtain ⟨N, hN⟩ := append_loop _ (Nat.le_refl _) hinp []
  obtain ⟨M, hM⟩ := read_loop hD _ (hD.newMemBuf x b64 hlen hb64) (Nat.le_refl _) out
  refine ⟨max N M, fun fuel hfuel => ?_⟩
  have hwrap : IntType.int32.wrap (Lib.Base64.encode x).length
      = (Lib.Base64.encode x).length := by
    rw [Base64.wrap_int32]
    omega
  simp only [decodeStream, hnew, hN fuel (by omega), List.nil_append, hwrap, hb64,
    hM fuel (by omega), Bool.not_true, Bool.false_eq_true, if_false]

theorem file_loop (hD : Decoder.Delivers D Due) (n : Nat) {b64 : D.Chain} {x : List UInt8}
    (hdue : Due b64 x) (hn : x.length ≤ n) {out : OStream} (hout : out.Open) :
    Returns (fun fuel => repeatUntil (fun _ x => some (fileTurn D x)) fuel (b64, out))
      (.ok, out.write x) := by
  induction n generalizing b64 x out with
  | zero =>
    have hnil : x = [] := List.eq_nil_of_length_eq_zero (Nat.le_zero.1 hn)
    rcases read_cases hD hdue (n := 4096) (by decide) (by decide) with
      ⟨-, hread⟩ | ⟨buffer, b64', x', -, hne, -, hsplit⟩
    · refine .repeat_exit ⟨0, fun _ _ => ?_⟩
      cases hr : D.read b64 4096 with
      | mk got b64' =>
        rw [hr] at hread
        cases hread
        simp [fileTurn, hr, hnil, write_nil]
    · simp [hnil, hne] at hsplit
  | succ n ih =>
    rcases read_cases hD hdue (n := 4096) (by decide) (by decide) with
      ⟨hnil, -⟩ | ⟨buffer, b64', x', hread, hne, hdue', hsplit⟩
    · exact ih hdue (by simp [hnil]) hout
    · have hshort : x'.length ≤ n := by
        have hlen := congrArg List.length hsplit
        have hpos := List.length_pos_iff.2 hne
        rw [List.length_append] at hlen
        omega
      obtain ⟨hopen, -⟩ := OStream.write_open hout buffer
      have hret := ih hdue' hshort hopen
      rw [← OStream.write_append, ← hsplit] at hret
      refine .repeat_again ⟨0, fun _ _ => ?_⟩ hret
      simp [fileTurn, hread, hne, OStream.ok, hopen.fail]

theorem decodeFile_returns (hD : Decoder.Delivers D Due) (hnew : D.newBase64 = true)
    (x : List UInt8) {out : OStream} (hout : out.Open) :
    Returns (fun fuel => decodeFile D fuel (some (Lib.Base64.encode x)) (some out))
      (.ok, some (out.write x)) := by
  obtain ⟨N, hN⟩ := file_loop hD _ (hD.newFp x) (Nat.le_refl _) hout
  refine ⟨N, fun fuel hfuel => ?_⟩
  simp [decodeFile, hnew, hN fuel hfuel]

/-! ## Strings -/

theorem encodeString_eq (hB : B.Documented limit) (hnew : B.newBase64.isSome = true)
    (hmem : B.newMem = true) {x : List UInt8} (hx : x ≠ []) (hlen : x.length < 2 ^ 31)
    (hlimit : x.length ≤ limit) :
    encodeString B x = some (.ok, Lib.Base64.encode x) := by
  obtain ⟨b64, hb64⟩ := Option.isSome_iff_exists.1 hnew
  have hpos : 0 < x.length := List.length_pos_iff.2 hx
  have hbuffer : Lib.Base64.encode (x.take (Base64.handed x.length)) = Lib.Base64.encode x := by
    rw [Base64.handed_of_lt hlen, List.take_length]
  have hres : encodeLenReserve x.length = (Lib.Base64.encode x).length := by
    rw [Lib.Base64.length_encode, encodeLenReserve]
    omega
  have hne : encodeLenReserve x.length ≠ 0 := by
    rw [hres, Lib.Base64.length_encode]
    omega
  have hroom : encodeLenReserve x.length ≤
      (List.replicate (encodeLenReserve x.length) (0 : UInt8)).length := by
    rw [List.length_replicate]
  have henc := Base64.encode_eq hB hb64 hmem (by rwa [Base64.handed_of_lt hlen]) hbuffer
    (Nat.pos_iff_ne_zero.1 hpos) hne hroom
  rw [hres, if_neg (Nat.lt_irrefl _)] at henc
  simp [encodeString, hres, henc]

theorem decodeString_eq (hD : Decoder.Delivers D Due) (hnew : D.newBase64 = true)
    (hmem : ∀ src n, (D.newMemBuf src n).isSome = true) {x : List UInt8} (hx : x ≠ [])
    (hlen : (Lib.Base64.encode x).length < 2 ^ 31) :
    decodeString D (Lib.Base64.encode x) = (.ok, x) := by
  obtain ⟨b64, hb64⟩ := Option.isSome_iff_exists.1
    (hmem (Lib.Base64.encode x) (Lib.Base64.encode x).length)
  have hlen4 := Lib.Base64.length_encode x
  have hpos : 0 < x.length := List.length_pos_iff.2 hx
  have hwrap : IntType.int32.wrap (Lib.Base64.encode x).length = (Lib.Base64.encode x).length := by
    rw [Base64.wrap_int32]
    omega
  have hres : decodeLenReserve (Lib.Base64.encode x).length = (x.length + 2) / 3 * 3 := by
    rw [decodeLenReserve, hlen4]
    omega
  have hwrap' : (IntType.int32.wrap (decodeLenReserve (Lib.Base64.encode x).length)).toNat
      = (x.length + 2) / 3 * 3 := by
    have hlt : decodeLenReserve (Lib.Base64.encode x).length < 2 ^ 31 := by omega
    exact (Base64.handed_of_lt hlt).trans hres
  have hmod : (Lib.Base64.encode x).length % 4 = 0 := by
    rw [hlen4]
    omega
  have hread := (hD.read b64 x ((x.length + 2) / 3 * 3) (hD.newMemBuf x b64 hlen hb64) (by omega)
    (by omega)).1
  rw [List.take_of_length_le (by omega)] at hread
  simp [decodeString, decode, hmod, hwrap, hb64, hnew, hwrap', hread]

/-- Where OpenSSL can be had, streams, files and strings are encoded
alike, whatever the sizes of the pieces in which they are read and
written, and decoding what came out gives back what went in. -/
theorem round_trip (hB : Bio.Streams B At limit) (hdoc : B.Documented limit)
    (hD : Decoder.Delivers D Due) (hb64 : B.newBase64.isSome = true ∧ D.newBase64 = true)
    (hmem : B.newMem = true) (hbuf : ∀ src n, (D.newMemBuf src n).isSome = true) (x : List UInt8)
    (hx : 4 * ((x.length + 2) / 3) < 2 ^ 31) (hlimit : x.length ≤ limit) :
    (∀ out inp, out.ok = true → inp.Good → inp.rest = x →
        Returns (fun fuel => encodeStream B fuel out inp) (.ok, out.write (Lib.Base64.encode x))) ∧
      (∀ out inp, inp.Good → inp.rest = Lib.Base64.encode x →
        Returns (fun fuel => decodeStream D fuel out inp) (.ok, out.write x)) ∧
      Returns (fun fuel => encodeFile B fuel (some x) true) (.ok, some (Lib.Base64.encode x)) ∧
      (∀ out, out.Open → Returns
        (fun fuel => decodeFile D fuel (some (Lib.Base64.encode x)) (some out))
        (.ok, some (out.write x))) ∧
      (x ≠ [] → encodeString B x = some (.ok, Lib.Base64.encode x) ∧
        decodeString D (Lib.Base64.encode x) = (.ok, x)) := by
  have hlen : (Lib.Base64.encode x).length < 2 ^ 31 := by rwa [Lib.Base64.length_encode]
  refine ⟨?_, ?_, encodeFile_returns hB hb64.1 hlimit, ?_, ?_⟩
  · intro out inp hout hgood hinp
    exact encodeStream_returns hB hb64.1 hmem hlimit hout hgood hinp
  · intro out inp hgood hinp
    exact decodeStream_returns hD hb64.2 hbuf hlen out (.inl ⟨hgood, hinp⟩)
  · intro out hout
    exact decodeFile_returns hD hb64.2 x hout
  · intro hne
    exact ⟨encodeString_eq hdoc hb64.1 hmem hne (by omega) hlimit,
      decodeString_eq hD hb64.2 hbuf hne hlen⟩

end

/-- A chain that keeps what is written until it is asked for. -/
def bufferBio : Bio where
  Chain := List UInt8
  newMem := true
  newBase64 := some []
  write c src n := if n ≤ 0 then (0, c) else (n, c ++ src.take n.toNat)
  flush := id
  mem := Lib.Base64.encode

theorem bufferBio_streams (limit : Nat) : Bio.Streams bufferBio (fun b64 x => b64 = x) limit where
  new b64 hnew := by
    cases hnew
    rfl
  write b64 x src hat hpos _ _ := by
    have hne : ¬ (src.length : Int) ≤ 0 := by omega
    cases hat
    simp only [bufferBio, if_neg hne, Int.toNat_natCast, List.take_length]
    exact ⟨trivial, trivial⟩
  mem b64 x hat := by
    cases hat
    rfl

theorem bufferBio_documented (limit : Nat) : bufferBio.Documented limit where
  write_pos := by
    intro b64 hnew src n hpos hle _
    cases hnew
    simp [bufferBio, Nat.pos_iff_ne_zero.mp hpos]
  write_nonpos := by
    intro b64 hnew src n hn
    cases hnew
    simp [bufferBio, hn, Lib.Base64.encode, Lib.Base64.sextets, Lib.Base64.padding]

/-- Chains that decode their text at once. -/
def listDecoder : Decoder where
  Chain := List UInt8
  newBase64 := true
  newMemBuf src _ := some (Lib.Base64.decode src)
  newFp := Lib.Base64.decode
  read c n := (some (c.take n), c.drop n)

theorem listDecoder_delivers : Decoder.Delivers listDecoder fun b64 x => b64 = x where
  newMemBuf x b64 _ hnew := by
    cases hnew
    exact Lib.Base64.decode_encode x
  newFp := Lib.Base64.decode_encode
  read b64 x n hdue _ _ := by
    cases hdue
    exact ⟨rfl, rfl⟩

/-- The theorem on the three bytes of "cat" and one more. -/
theorem round_trip_cats :
    encodeString bufferBio [0x63, 0x61, 0x74, 0x73]
        = some (.ok, Lib.Base64.encode [0x63, 0x61, 0x74, 0x73]) ∧
      decodeString listDecoder (Lib.Base64.encode [0x63, 0x61, 0x74, 0x73])
        = (.ok, [0x63, 0x61, 0x74, 0x73]) :=
  (round_trip (bufferBio_streams 4) (bufferBio_documented 4) listDecoder_delivers ⟨rfl, rfl⟩ rfl
    (fun _ _ => rfl) [0x63, 0x61, 0x74, 0x73] (by decide) (by decide)).2.2.2.2 (by decide)

end HighJump.Crypto.Base64Stream
