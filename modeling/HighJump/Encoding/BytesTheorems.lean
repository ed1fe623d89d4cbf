/-
HighJump.Encoding.BytesTheorems — what comes back from the bytes.

An encoder writes each byte of the number once (`toBytes_spec`). A decoder
gives back the bits of the number, and with signed elements also every bit
above a set top bit (`ofBytes_spec`). `round_trip_iff` is what follows for
the functions of both sizes.
-/
import HighJump.Encoding.Bytes

namespace HighJump.Encoding.Bytes

open HighJump.Lib

/-! ## Places -/

theorem shiftAt_true {size i : Nat} : shiftAt size true i = shiftAt size false (size - 1 - i) := rfl

/-- The shifts are the multiples of eight. -/
theorem shiftAt_bound {size i : Nat} (big : Bool) (hi : i < size) :
    ∃ j, j < size ∧ shiftAt size big i = 8 * j := by
  cases big with
  | true => exact ⟨size - 1 - i, by omega, rfl⟩
  | false => exact ⟨i, hi, rfl⟩

theorem shiftAt_surj {size j : Nat} (big : Bool) (hj : j < size) :
    ∃ i, i < size ∧ shiftAt size big i = 8 * j := by
  cases big with
  | true =>
    refine ⟨size - 1 - j, by omega, ?_⟩
    have hsub : size - 1 - (size - 1 - j) = j := by omega
    rw [shiftAt_true, hsub]
    rfl
  | false => exact ⟨j, hj, rfl⟩

namespace Layout

variable (L : Layout) {E : IntType} {bytes : List Int} {n : Int} {big : Bool}

theorem mem_places {p : Nat × Nat} :
    p ∈ L.places big ↔ p.1 < L.size ∧ p.2 = shiftAt L.size big p.1 := by
  rw [(L.perm big).mem_iff, List.mem_map]
  constructor
  · rintro ⟨i, hi, rfl⟩
    exact ⟨List.mem_range.mp hi, rfl⟩
  · rintro ⟨hi, hs⟩
    exact ⟨p.1, List.mem_range.mpr hi, Prod.ext rfl hs.symm⟩

theorem nodup_places : ((L.places big).map Prod.fst).Nodup := by
  have hperm := (L.perm big).map Prod.fst
  rw [List.map_map] at hperm
  have hid : (List.range L.size).map (Prod.fst ∘ fun i => (i, shiftAt L.size big i)) =
      List.range L.size := List.map_id _
  rw [hid] at hperm
  exact hperm.nodup_iff.mpr List.nodup_range

/-! ## Encoding -/

/-- Each place of the table is written, and nothing else. -/
theorem foldlM_setByte (E : IntType) (n : Int) : ∀ (places : List (Nat × Nat)) (bytes : List Int),
    (places.map Prod.fst).Nodup → (∀ p ∈ places, p.1 < bytes.length) →
    ∃ out, places.foldlM (L.setByte E n) bytes = some out ∧
      (∀ p ∈ places, out[p.1]? = some (L.byteAt E n p.2)) ∧
      ∀ i, i ∉ places.map Prod.fst → out[i]? = bytes[i]?
  | [], bytes, _, _ => ⟨bytes, rfl, nofun, fun _ _ => rfl⟩
  | p :: places, bytes, hnodup, hlt => by
      obtain ⟨hp, hnodup⟩ := List.nodup_cons.mp hnodup
      have hhead := hlt p (List.mem_cons_self ..)
      obtain ⟨out, hout, hset, hframe⟩ := foldlM_setByte E n places
        (bytes.set p.1 (L.byteAt E n p.2)) hnodup fun q hq => by
          rw [List.length_set]
          exact hlt q (List.mem_cons_of_mem _ hq)
      refine ⟨out, ?_, ?_, fun i hi => ?_⟩
      · rw [List.foldlM_cons, setByte, if_pos hhead]
        exact hout
      · intro q hq
        rcases List.mem_cons.mp hq with rfl | hq
        · rw [hframe _ hp, List.getElem?_set_self hhead]
        · exact hset q hq
      · rw [List.map_cons, List.mem_cons, not_or] at hi
        rw [hframe i hi.2, List.getElem?_set_ne (Ne.symm hi.1)]

theorem toBytes_spec (E : IntType) (n : Int) (big : Bool) (hlen : L.size ≤ bytes.length) :
    ∃ out, L.toBytes E bytes n big = some out ∧
      (∀ i, i < L.size → out[i]? = some (L.byteAt E n (shiftAt L.size big i))) ∧
      ∀ i, L.size ≤ i → out[i]? = bytes[i]? := by
  obtain ⟨out, hout, hset, hframe⟩ := L.foldlM_setByte E n (L.places big) bytes L.nodup_places
    fun p hp => Nat.lt_of_lt_of_le (L.mem_places.mp hp).1 hlen
  refine ⟨out, hout, fun i hi => ?_, fun i hi => hframe i ?_⟩
  · exact hset (i, shiftAt L.size big i) (L.mem_places.mpr ⟨hi, rfl⟩)
  · intro hmem
    obtain ⟨p, hp, rfl⟩ := List.mem_map.mp hmem
    exact absurd (L.mem_places.mp hp).1 (Nat.not_lt.mpr hi)

/-- A byte within the element, and the sign it has beyond. -/
theorem testBit_byteAt (hE : E.width = .w8) (s t : Nat) : (L.byteAt E n s).testBit t =
    if t < 8 then n.testBit (s + t) else E.signed && n.testBit (s + 7) := by
  have hbits : E.width.bits = 8 := by rw [hE]; rfl
  have hpos : 0 < L.size := by
    have hwidth := L.int.width_pos
    rw [L.int_bits] at hwidth
    omega
  have hmask : ∀ t, t < 8 → (0xFF : Int).testBit t = true := by decide
  have hlow : ∀ t, t < 8 → (L.byteAt E n s).testBit t = n.testBit (s + t) := by
    intro t ht
    rw [byteAt, IntType.testBit_wrap _ _ (by omega), IntType.testBit_and _ _ _
      (by rw [L.int_promoted, L.int_bits]; omega), IntType.testBit_ediv, hmask t ht, Bool.and_true]
  split
  case isTrue ht => exact hlow t ht
  case isFalse ht =>
    have hmem : E.Mem (L.byteAt E n s) := E.mem_wrap _
    rw [E.testBit_of_mem hmem (by omega), hbits, hlow 7 (by decide)]

/-! ## Decoding -/

/-- The bits of the word are those of the elements, each moved to its place. -/
theorem foldlM_orByte (f : Nat × Nat → Int) : ∀ (places : List (Nat × Nat)) (acc : Int),
    (∀ p ∈ places, bytes[p.1]? = some (f p)) →
    ∃ m, places.foldlM (L.orByte bytes) acc = some m ∧ ∀ k, k < 8 * L.size →
      (m.testBit k = true ↔ acc.testBit k = true ∨
        ∃ p ∈ places, p.2 ≤ k ∧ (f p).testBit (k - p.2) = true)
  | [], acc, _ => ⟨acc, rfl, fun k _ => by simp⟩
  | p :: places, acc, hf => by
      obtain ⟨m, hm, hbits⟩ := foldlM_orByte f places
        (L.word.or acc (L.word.shl (L.word.wrap (f p)) p.2))
        fun q hq => hf q (List.mem_cons_of_mem _ hq)
      refine ⟨m, ?_, fun k hk => ?_⟩
      · rw [List.foldlM_cons, orByte, hf p (List.mem_cons_self ..)]
        exact hm
      · have hword : k < L.word.promoted.width.bits := by
          rw [L.word_promoted, L.word_bits]
          exact hk
        have hwrap : (L.word.wrap (f p)).testBit (k - p.2) = (f p).testBit (k - p.2) :=
          L.word.testBit_wrap _ (by rw [L.word_bits]; omega)
        rw [hbits k hk, IntType.testBit_or _ _ _ hword, IntType.testBit_shl _ _ _ hword, hwrap,
          Bool.or_eq_true, Bool.and_eq_true, decide_eq_true_iff, or_assoc]
        simp only [List.mem_cons, exists_eq_or_imp]

/-- What a decoder makes of bytes an encoder wrote: the bits of `n`, and
from signed elements whatever lies above the top bit of a byte that has
it set. -/
theorem ofBytes_spec (hE : E.width = .w8)
    (h : ∀ i, i < L.size → bytes[i]? = some (L.byteAt E n (shiftAt L.size big i))) :
    ∃ m, L.ofBytes bytes big = some m ∧ L.int.Mem m ∧ ∀ k, k < 8 * L.size →
      (m.testBit k = true ↔ n.testBit k = true ∨
        E.signed = true ∧ ∃ i, 8 * i + 7 < k ∧ n.testBit (8 * i + 7) = true) := by
  obtain ⟨m, hm, hbits⟩ := L.foldlM_orByte (fun p => L.byteAt E n p.2) (L.places big) 0
    fun p hp => by rw [h p.1 (L.mem_places.mp hp).1, (L.mem_places.mp hp).2]
  refine ⟨L.int.wrap m, by rw [ofBytes, hm, Option.map_some], L.int.mem_wrap m, fun k hk => ?_⟩
  rw [L.int.testBit_wrap _ (by rw [L.int_bits]; exact hk), hbits k hk]
  constructor
  · rintro (hzero | ⟨p, hp, hle, hbit⟩)
    · exact absurd hzero (by simp [Int.testBit])
    · obtain ⟨hi, hs⟩ := L.mem_places.mp hp
      obtain ⟨j, hj, hshift⟩ := shiftAt_bound big hi
      rw [L.testBit_byteAt hE] at hbit
      split at hbit
      case isTrue =>
        rw [Nat.add_sub_cancel' hle] at hbit
        exact Or.inl hbit
      case isFalse ht =>
        obtain ⟨hsigned, hbit⟩ := Bool.and_eq_true_iff.mp hbit
        rw [hs, hshift] at hbit
        exact Or.inr ⟨hsigned, j, by omega, hbit⟩
  · -- the byte that holds the bit, or the one that spills into it
    rintro (hbit | ⟨hsigned, j, hlt, hbit⟩)
    · obtain ⟨i, hi, hshift⟩ := shiftAt_surj big (show k / 8 < L.size by omega)
      refine Or.inr ⟨(i, 8 * (k / 8)), L.mem_places.mpr ⟨hi, hshift.symm⟩, by omega, ?_⟩
      have hadd : 8 * (k / 8) + (k - 8 * (k / 8)) = k := by omega
      rw [L.testBit_byteAt hE, if_pos (by omega), hadd, hbit]
    · obtain ⟨i, hi, hshift⟩ := shiftAt_surj big (show j < L.size by omega)
      refine Or.inr ⟨(i, 8 * j), L.mem_places.mpr ⟨hi, hshift.symm⟩, by omega, ?_⟩
      rw [L.testBit_byteAt hE, if_neg (by omega), hsigned, hbit]
      rfl

/-- The number comes back where no byte spills into a bit that is not set. -/
theorem ofBytes_eq_iff (hE : E.width = .w8) (hn : L.int.Mem n)
    (h : ∀ i, i < L.size → bytes[i]? = some (L.byteAt E n (shiftAt L.size big i))) :
    L.ofBytes bytes big = some n ↔ Meets E L.size n := by
  obtain ⟨m, hm, hmem, hbits⟩ := L.ofBytes_spec hE h
  rw [hm]
  constructor
  · rintro heq
    obtain rfl := Option.some.inj heq
    cases hs : E.signed with
    | false => exact Or.inl hs
    | true =>
      refine Or.inr fun i k _ htop hlt hk => ?_
      exact (hbits k hk).mpr (Or.inr ⟨hs, i, hlt, htop⟩)
  · intro hmeets
    refine congrArg some (L.int.eq_of_testBit hmem hn fun k hk => ?_)
    rw [L.int_bits] at hk
    refine Bool.eq_iff_iff.mpr ⟨fun hbit => ?_, fun hbit => (hbits k hk).mpr (Or.inl hbit)⟩
    rcases (hbits k hk).mp hbit with hbit | ⟨hsigned, i, hlt, htop⟩
    · exact hbit
    · rcases hmeets with hunsigned | hspill
      · rw [hunsigned] at hsigned
        cases hsigned
      · exact hspill i k (by omega) htop hlt hk

/-! ## Bytes -/

/-- The first bytes of a container that has just been written. -/
theorem take_eq_map (h : ∀ i, i < L.size → bytes[i]? = some (L.byteAt E n (shiftAt L.size big i))) :
    bytes.take L.size = (List.range L.size).map fun i => L.byteAt E n (shiftAt L.size big i) := by
  refine List.ext_getElem? fun i => ?_
  by_cases hi : i < L.size
  · rw [List.getElem?_take_of_lt hi, h i hi, List.getElem?_map, List.getElem?_range hi]
    rfl
  · rw [List.getElem?_take_eq_none (by omega), List.getElem?_eq_none]
    rw [List.length_map, List.length_range]
    omega

/-- As `unsigned char`, an element is the byte of the number. -/
theorem unsigned_byteAt (hE : E.width = .w8) (s : Nat) :
    (E.unsigned (L.byteAt E n s) : Int) = L.byteAt .uint8 n s := by
  have hmod : E.modulus = IntType.uint8.modulus := by rw [IntType.modulus, hE]; rfl
  have hmin : IntType.uint8.min = 0 := rfl
  rw [byteAt, byteAt, IntType.unsigned_wrap, IntType.wrap, hmin, hmod, Int.sub_zero, Int.add_zero]

theorem octets_eq_map (hE : E.width = .w8)
    (h : ∀ i, i < L.size → bytes[i]? = some (L.byteAt E n (shiftAt L.size big i))) :
    octets E L.size bytes =
      (List.range L.size).map fun i => L.byteAt .uint8 n (shiftAt L.size big i) := by
  rw [octets, L.take_eq_map h, List.map_map]
  exact List.map_congr_left fun i _ => L.unsigned_byteAt hE _

theorem take_reversed {out out' : List Int}
    (h : ∀ i, i < L.size → out[i]? = some (L.byteAt E n (shiftAt L.size true i)))
    (h' : ∀ i, i < L.size → out'[i]? = some (L.byteAt E n (shiftAt L.size false i))) :
    out.take L.size = (out'.take L.size).reverse := by
  rw [L.take_eq_map h, L.take_eq_map h']
  refine List.ext_getElem? fun i => ?_
  by_cases hi : i < L.size
  · rw [List.getElem?_reverse (by rw [List.length_map, List.length_range]; exact hi),
      List.length_map, List.length_range, List.getElem?_map, List.getElem?_map,
      List.getElem?_range hi, List.getElem?_range (by omega)]
    rfl
  · rw [List.getElem?_eq_none, List.getElem?_eq_none] <;> simp only [List.length_reverse,
      List.length_map, List.length_range] <;> omega

/-! ## The law -/

theorem ofPointer_eq {sz : Nat} (hsz : L.size ≤ sz) :
    L.ofPointer bytes sz big = L.ofBytes bytes big := if_pos hsz

theorem toPointer_eq {sz : Nat} (hsz : L.size ≤ sz) :
    L.toPointer bytes sz n big = (L.toBytes .uint8 bytes n big).map fun b => (b, L.size) :=
  if_pos hsz

/-- The pointer overload writes the bytes of the number, whatever it finds. -/
theorem toPointer_octets (hE : E.width = .w8) {out memory : List Int} {sz : Nat}
    (hset : ∀ i, i < L.size → out[i]? = some (L.byteAt E n (shiftAt L.size big i)))
    (hmemory : L.size ≤ memory.length) (hsz : L.size ≤ sz) :
    ∃ out', L.toPointer memory sz n big = some (out', L.size) ∧
      octets E L.size out = octets .uint8 L.size out' := by
  obtain ⟨out', hout', hset', -⟩ := L.toBytes_spec .uint8 n big hmemory
  refine ⟨out', ?_, (L.octets_eq_map hE hset).trans (L.octets_eq_map rfl hset').symm⟩
  rw [L.toPointer_eq hsz, hout']
  rfl

/-- And the pointer overload reads the number from its bytes. -/
theorem ofPointer_octets (hE : E.width = .w8) (hn : L.int.Mem n) {out : List Int} {sz : Nat}
    (hset : ∀ i, i < L.size → out[i]? = some (L.byteAt E n (shiftAt L.size big i)))
    (rest : List Int) (hsz : L.size ≤ sz) :
    L.ofPointer (octets E L.size out ++ rest) sz big = some n := by
  have hread : ∀ i, i < L.size →
      (octets E L.size out ++ rest)[i]? = some (L.byteAt .uint8 n (shiftAt L.size big i)) := by
    intro i hi
    rw [L.octets_eq_map hE hset, List.getElem?_append_left
      (by rw [List.length_map, List.length_range]; exact hi), List.getElem?_map,
      List.getElem?_range hi]
    rfl
  rw [L.ofPointer_eq hsz]
  exact (L.ofBytes_eq_iff rfl hn hread).mpr (Or.inl rfl)

/-- The overloads of the size. -/
def codec : Codec := ⟨L.size, L.ofBytes, L.ofPointer, L.toBytes, L.toPointer⟩

theorem codec_law_iff (hE : E.width = .w8) (hn : L.int.Mem n) (hlen : L.size ≤ bytes.length) :
    Law L.codec E big n bytes ↔ Meets E L.size n := by
  obtain ⟨out, hout, hset, -⟩ := L.toBytes_spec E n big hlen
  constructor
  · intro h
    obtain ⟨out', hout', hback⟩ := h.round_trip
    obtain rfl := Option.some.inj (hout.symm.trans hout')
    exact (L.ofBytes_eq_iff hE hn hset).mp hback
  · intro hmeets
    have hback := (L.ofBytes_eq_iff hE hn hset).mpr hmeets
    refine ⟨⟨out, hout, hback⟩, fun memory sz hmemory hsz => ?_,
      ⟨out, hout, fun rest sz hsz => ?_⟩, ?_⟩
    · obtain ⟨out', hpointer, hoctets⟩ := L.toPointer_octets hE hset hmemory hsz
      exact ⟨out, out', hout, hpointer, hoctets⟩
    · exact (L.ofPointer_octets hE hn hset rest hsz).trans hback.symm
    · obtain ⟨outBig, hbig, hsetBig, -⟩ := L.toBytes_spec E n true hlen
      obtain ⟨outLittle, hlittle, hsetLittle, -⟩ := L.toBytes_spec E n false hlen
      exact ⟨outBig, outLittle, hbig, hlittle, L.take_reversed hsetBig hsetLittle⟩

end Layout

/-- The codecs of both sizes keep their law exactly on unsigned elements
and on numbers whose bytes have nothing but set bits above a set top bit. -/
theorem round_trip_iff (E : IntType) (hE : E.width = .w8) (big : Bool) (bytes : List Int) :
    (∀ n, IntType.int32.Mem n → 4 ≤ bytes.length →
      (Law int32Codec E big n bytes ↔ Meets E 4 n)) ∧
    (∀ n, IntType.int64.Mem n → 8 ≤ bytes.length →
      (Law int64Codec E big n bytes ↔ Meets E 8 n)) :=
  ⟨fun _ hn hlen => Layout.int32.codec_law_iff hE hn hlen,
    fun _ hn hlen => Layout.int64.codec_law_iff hE hn hlen⟩

/-- An array of eight `char`s, of which the 32-bit functions use four. -/
theorem round_trip_iff_string :
    (Law int32Codec ⟨.w8, true⟩ true 5 [0, 0, 0, 0, 0, 0, 0, 0] ↔ Meets ⟨.w8, true⟩ 4 5) ∧
      (Law int64Codec ⟨.w8, true⟩ true 5 [0, 0, 0, 0, 0, 0, 0, 0] ↔ Meets ⟨.w8, true⟩ 8 5) :=
  have h := round_trip_iff ⟨.w8, true⟩ rfl true [0, 0, 0, 0, 0, 0, 0, 0]
  ⟨h.1 5 (by decide) (by decide), h.2 5 (by decide) (by decide)⟩

/-- In an array of `char`, 128 comes back as -128. -/
theorem char_round_trip : ¬ ∀ (E : IntType), E.width = .w8 → ∀ (big : Bool) (bytes : List Int),
    (∀ n, IntType.int32.Mem n → 4 ≤ bytes.length → Law int32Codec E big n bytes) ∧
    (∀ n, IntType.int64.Mem n → 8 ≤ bytes.length → Law int64Codec E big n bytes) := by
  intro h
  have hlaw := (h ⟨.w8, true⟩ rfl true [0, 0, 0, 0]).1 128 (by decide) (by decide)
  obtain ⟨out, hout, hback⟩ := hlaw.round_trip
  have hout' : int32ToBytes ⟨.w8, true⟩ [0, 0, 0, 0] 128 true = some [0, 0, 0, -128] := by decide
  obtain rfl := Option.some.inj (hout'.symm.trans hout)
  have hread : bytesToInt32 [0, 0, 0, -128] true = some (-128) := by decide
  exact absurd (hread.symm.trans hback) (by decide)

end HighJump.Encoding.Bytes
