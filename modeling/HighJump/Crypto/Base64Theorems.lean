/-
HighJump.Crypto.Base64Theorems — the validators and the encoder of
`base64.hpp` against RFC 4648.

- `isValid_exact`: the buffer validator accepts the texts that have the
  shape of an encoding, and only these.
- `isValidStream_eq_iff`: the stream validator looks at chunks of 16384
  bytes on their own, so it also lets padding through at the end of an
  inner chunk.
- `isValidStream_restores_iff`: it goes back only if every chunk passes.
- `encode_complete_iff`: the length is narrowed to `int` on its way to
  `BIO_write`, whose result is not looked at.
-/
import HighJump.Crypto.Base64
import HighJump.Encoding.HexTheorems

namespace HighJump.Crypto.Base64

open HighJump.Lib
open HighJump.Lib.Base64 (alphabet pad Grammar ShapeOf pad_notMem_alphabet grammar_iff_shapeOf)

/-! ## The buffer validator -/

theorem isAlphabetChar_iff (c : UInt8) : isAlphabetChar c = true ↔ c ∈ alphabet := by
  -- two implications: only the bytes that pass are looked up
  have hmem : ∀ c : UInt8, isAlphabetChar c = true → c ∈ alphabet :=
    forall_byte (by decide +kernel)
  have halphabet : ∀ c ∈ alphabet, isAlphabetChar c = true := by decide +kernel
  exact ⟨hmem c, halphabet c⟩

/-- What may follow `p` padding characters. -/
def Tail (p : Nat) (s : List UInt8) : Prop :=
  ∃ t k, s = t ++ List.replicate k pad ∧ (∀ c ∈ t, c ∈ alphabet) ∧ p + k ≤ 2 ∧ (0 < p → t = [])

theorem tail_nil {p : Nat} (hp : p ≤ 2) : Tail p [] := ⟨[], 0, rfl, by simp, hp, fun _ => rfl⟩

/-- A character of the alphabet stands before all padding. -/
theorem tail_char {p : Nat} {c : UInt8} {s : List UInt8} (hc : c ∈ alphabet) :
    Tail p (c :: s) ↔ p = 0 ∧ Tail p s := by
  constructor
  · rintro ⟨t, k, heq, ht, hk, hp⟩
    cases t with
    | nil =>
        obtain ⟨k, rfl⟩ : ∃ m, k = m + 1 := by
          cases k with
          | zero => cases heq
          | succ m => exact ⟨m, rfl⟩
        rw [List.nil_append, List.replicate_succ] at heq
        rw [(List.cons.inj heq).1] at hc
        exact absurd hc pad_notMem_alphabet
    | cons d t =>
        have hzero : p = 0 := by
          by_contra h
          cases hp (Nat.pos_of_ne_zero h)
        exact ⟨hzero, t, k, (List.cons.inj heq).2, fun e he => ht e (by simp [he]), hk, by omega⟩
  · rintro ⟨rfl, t, k, rfl, ht, hk, -⟩
    refine ⟨c :: t, k, rfl, ?_, hk, by omega⟩
    rintro d (_ | ⟨_, hd⟩)
    · exact hc
    · exact ht d hd

/-- A padding character is followed by padding. -/
theorem tail_pad {p : Nat} {s : List UInt8} : Tail p (pad :: s) ↔ Tail (p + 1) s := by
  constructor
  · rintro ⟨t, k, heq, ht, hk, -⟩
    cases t with
    | nil =>
        cases k with
        | zero => cases heq
        | succ k =>
            refine ⟨[], k, (List.cons.inj heq).2, by simp, by omega, fun _ => rfl⟩
    | cons d t =>
        have hd := ht d (by simp)
        rw [← (List.cons.inj heq).1] at hd
        exact absurd hd pad_notMem_alphabet
  · rintro ⟨t, k, rfl, -, hk, ht⟩
    rw [ht (by omega)]
    exact ⟨[], k + 1, rfl, by simp, by omega, fun _ => rfl⟩

/-- Nothing else is let through. -/
theorem not_tail_other {p : Nat} {c : UInt8} {s : List UInt8} (hc : c ∉ alphabet) (hpad : c ≠ pad) :
    ¬ Tail p (c :: s) := by
  rintro ⟨t, k, heq, ht, -, -⟩
  cases t with
  | nil =>
      cases k with
      | zero => cases heq
      | succ k => exact hpad (List.cons.inj heq).1
  | cons d t =>
      have hd := ht d (by simp)
      rw [← (List.cons.inj heq).1] at hd
      exact hc hd

theorem length_le_of_tail {p : Nat} {s : List UInt8} (hp : 0 < p) (h : Tail p s) :
    p + s.length ≤ 2 := by
  obtain ⟨t, k, rfl, -, hk, ht⟩ := h
  rw [ht hp, List.nil_append, List.length_replicate]
  exact hk

/-- The loop, from any place on: it finds the rest of the text in order or
not, and never reads past the end. -/
theorem isValidLoop_spec (s : List UInt8) (n : Nat) :
    ∀ i p, i + n = s.length → p ≤ 2 →
      ∃ b, isValidLoop s s.length n i p = some b ∧ (b = true ↔ Tail p (s.drop i)) := by
  induction n with
  | zero =>
      intro i p hi hp
      refine ⟨true, rfl, ?_⟩
      rw [List.drop_eq_nil_of_le (by omega)]
      simp [tail_nil hp]
  | succ n ih =>
      intro i p hi hp
      have hlt : i < s.length := by omega
      have hdrop : s.drop i = s[i] :: s.drop (i + 1) := List.drop_eq_getElem_cons hlt
      rw [isValidLoop, List.getElem?_eq_getElem hlt, hdrop]
      simp only
      by_cases halpha : s[i] ∈ alphabet
      · rw [if_pos ((isAlphabetChar_iff _).mpr halpha), tail_char halpha]
        by_cases hzero : p = 0
        · subst hzero
          obtain ⟨b, hb, hiff⟩ := ih (i + 1) 0 (by omega) (by omega)
          exact ⟨b, by rw [if_neg (by omega), hb], by simp [hiff]⟩
        · exact ⟨false, by rw [if_pos (by omega)], by simp [hzero]⟩
      rw [if_neg (by rw [isAlphabetChar_iff]; exact halpha)]
      by_cases hpad : s[i] = pad
      · rw [hpad, tail_pad, if_pos (by decide)]
        by_cases hmany : p + 1 > 2
        · refine ⟨false, by rw [if_pos hmany], ?_⟩
          simp only [Bool.false_eq_true, false_iff]
          intro h
          have := length_le_of_tail (by omega) h
          omega
        rw [if_neg hmany]
        by_cases hearly : i < s.length - 2
        · -- more than one character follows, and one may
          refine ⟨false, by rw [if_pos hearly], ?_⟩
          simp only [Bool.false_eq_true, false_iff]
          intro h
          have := length_le_of_tail (by omega) h
          rw [List.length_drop] at this
          omega
        · obtain ⟨b, hb, hiff⟩ := ih (i + 1) (p + 1) (by omega) (by omega)
          exact ⟨b, by rw [if_neg hearly, hb], hiff⟩
      · refine ⟨false, by rw [if_neg (by simpa [pad] using hpad)], ?_⟩
        simp only [Bool.false_eq_true, false_iff]
        exact not_tail_other halpha hpad

/-- The buffer validator decides the grammar. -/
theorem isValid_grammar (s : List UInt8) :
    ∃ b, isValid (some s) s.length = some b ∧ (b = true ↔ Grammar s) := by
  simp only [isValid]
  by_cases hnil : s.length = 0
  · refine ⟨false, by rw [if_pos hnil], ?_⟩
    simp only [Bool.false_eq_true, false_iff]
    rintro ⟨hne, -⟩
    exact hne (List.eq_nil_of_length_eq_zero hnil)
  by_cases hmod : s.length % 4 = 0
  · obtain ⟨b, hb, hiff⟩ := isValidLoop_spec s s.length 0 0 (by omega) (by omega)
    refine ⟨b, by rw [if_neg hnil, if_neg (not_not.mpr hmod), hb], ?_⟩
    rw [hiff, List.drop_zero]
    constructor
    · rintro ⟨t, k, heq, ht, hk, -⟩
      exact ⟨fun h => hnil (by rw [h]; rfl), hmod, t, k, by omega, ht, heq⟩
    · rintro ⟨-, -, t, k, hk, ht, heq⟩
      exact ⟨t, k, heq, ht, by omega, by omega⟩
  · refine ⟨false, by rw [if_neg hnil, if_pos hmod], ?_⟩
    simp only [Bool.false_eq_true, false_iff]
    rintro ⟨-, hlen, -⟩
    exact hmod hlen

/-- **Validation is exact**: the accepted texts are those of the grammar,
which are the encodings of non-empty byte strings up to the unused bits of
the last character. -/
theorem isValid_exact (s : List UInt8) :
    ∃ b, isValid (some s) s.length = some b ∧ (b = true ↔ Grammar s) ∧
      (b = true ↔ ∃ x, x ≠ [] ∧ ShapeOf x s) := by
  obtain ⟨b, hb, hiff⟩ := isValid_grammar s
  exact ⟨b, hb, hiff, hiff.trans (grammar_iff_shapeOf s)⟩

/-! ## The grammar, chunk by chunk -/

section Chunks

variable {n : Nat} {s : List UInt8}

/-- The chunks of a text in order are in order: the padding is in the last. -/
theorem everyChunk_of_grammar (hn : 0 < n) (h4 : n % 4 = 0) (h : Grammar s) :
    EveryChunk n Grammar s := by
  obtain ⟨-, hlen, t, j, hj, ht, rfl⟩ := h
  intro k hk
  have hmul : n * k % 4 = 0 := by rw [Nat.mul_mod, h4, Nat.zero_mul, Nat.zero_mod]
  have hchunk : (((t ++ List.replicate j pad).drop (n * k)).take n).length =
      min n ((t ++ List.replicate j pad).length - n * k) := by
    rw [List.length_take, List.length_drop]
  refine ⟨?_, by rw [hchunk]; omega, ?_⟩
  · intro hnil
    rw [hnil, List.length_nil] at hchunk
    omega
  · rw [List.drop_append, List.take_append, List.drop_replicate, List.take_replicate]
    refine ⟨_, _, ?_, ?_, rfl⟩
    · omega
    · intro c hc
      exact ht c (List.mem_of_mem_drop (List.mem_of_mem_take hc))

theorem length_mod_of_everyChunk (hn : 0 < n) (h4 : n % 4 = 0) (h : EveryChunk n Grammar s) :
    s.length % 4 = 0 := by
  by_cases hnil : s.length = 0
  · rw [hnil]
  -- the last chunk is the length up to a multiple of `n`
  have hdiv := Nat.div_add_mod (s.length - 1) n
  have hlt := Nat.mod_lt (s.length - 1) hn
  have hmul : n * ((s.length - 1) / n) % 4 = 0 := by
    rw [Nat.mul_mod, h4, Nat.zero_mul, Nat.zero_mod]
  have hlast := (h ((s.length - 1) / n) (by omega)).2.1
  rw [List.length_take, List.length_drop, Nat.min_eq_right (by omega)] at hlast
  omega

/-- A chunk other than the last ends in padding. -/
def PaddedInside (n : Nat) (s : List UInt8) : Prop :=
  ∃ k, n * (k + 1) < s.length ∧ s[n * (k + 1) - 1]? = some pad

theorem not_paddedInside_of_grammar (hn : 0 < n) (h4 : n % 4 = 0) (h : Grammar s) :
    ¬ PaddedInside n s := by
  rintro ⟨k, hk, hpad⟩
  obtain ⟨-, hlen, t, j, hj, ht, rfl⟩ := h
  have hmul : n * (k + 1) % 4 = 0 := by rw [Nat.mul_mod, h4, Nat.zero_mul, Nat.zero_mod]
  have hpos : 0 < n * (k + 1) := Nat.mul_pos hn (by omega)
  rw [List.length_append, List.length_replicate] at hlen hk
  rw [List.getElem?_append_left (by omega)] at hpad
  exact pad_notMem_alphabet (ht pad (List.mem_of_getElem? hpad))

/-- A text in order that does not end in padding has none. -/
theorem alphabet_of_grammar (h : Grammar s) (hlast : s[s.length - 1]? ≠ some pad) :
    ∀ c ∈ s, c ∈ alphabet := by
  obtain ⟨-, -, t, j, -, ht, rfl⟩ := h
  cases j with
  | zero => simpa using ht
  | succ j =>
      refine absurd ?_ hlast
      rw [List.replicate_succ', ← List.append_assoc]
      simp

/-- Chunks in order make a text in order, unless there is padding inside. -/
theorem grammar_of_everyChunk (hn : 0 < n) (hs : s ≠ []) (h : EveryChunk n Grammar s)
    (hinside : ¬ PaddedInside n s) : Grammar s := by
  -- on the length: the first chunk goes to the alphabet side of the rest
  induction hlen : s.length using Nat.strong_induction_on generalizing s with
  | _ m ih =>
      obtain ⟨hfirst, hrest⟩ := (everyChunk_iff hs).mp h
      by_cases hshort : s.length ≤ n
      · rwa [List.take_of_length_le hshort] at hfirst
      have hrestlen : (s.drop n).length = m - n := by rw [List.length_drop, hlen]
      have hne : s.drop n ≠ [] := by
        intro hnil
        rw [hnil, List.length_nil] at hrestlen
        omega
      have hdeep : ¬ PaddedInside n (s.drop n) := by
        rintro ⟨k, hk, hpad⟩
        have hpos : 0 < n * (k + 1) := Nat.mul_pos hn (by omega)
        rw [List.getElem?_drop] at hpad
        refine hinside ⟨k + 1, by rw [Nat.mul_succ]; omega, ?_⟩
        rwa [show n * (k + 1 + 1) - 1 = n + (n * (k + 1) - 1) by rw [Nat.mul_succ]; omega]
      obtain ⟨-, hmod, t, j, hj, ht, heq⟩ := ih (m - n) (by omega) hne hrest hdeep hrestlen
      have hhead : ∀ c ∈ s.take n, c ∈ alphabet := by
        refine alphabet_of_grammar hfirst fun hpad => hinside ⟨0, by omega, ?_⟩
        rw [List.length_take, Nat.min_eq_left (by omega), List.getElem?_take_of_lt (by omega)] at hpad
        rwa [Nat.zero_add, Nat.mul_one]
      have hheadmod := hfirst.2.1
      rw [List.length_take, Nat.min_eq_left (by omega)] at hheadmod
      refine ⟨hs, by omega, s.take n ++ t, j, hj, ?_, ?_⟩
      · intro c hc
        rcases List.mem_append.mp hc with hc | hc
        · exact hhead c hc
        · exact ht c hc
      · rw [List.append_assoc, ← heq, List.take_append_drop]

end Chunks

/-! ## The stream validators -/

/-- What the chunk test answers. -/
def chunkValid (buf : List UInt8) : Bool := (isValid (some buf) buf.length).getD false

theorem isValid_eq_chunkValid (buf : List UInt8) :
    isValid (some buf) buf.length = some (chunkValid buf) := by
  obtain ⟨b, hb, -⟩ := isValid_grammar buf
  rw [chunkValid, hb, Option.getD_some]

theorem chunkValid_iff (buf : List UInt8) : chunkValid buf = true ↔ Grammar buf := by
  obtain ⟨b, hb, hiff⟩ := isValid_grammar buf
  rw [chunkValid, hb, Option.getD_some, hiff]

theorem everyChunk_chunkValid_iff (s : List UInt8) :
    EveryChunk base64BufSize (chunkValid · = true) s ↔ EveryChunk base64BufSize Grammar s :=
  forall_congr' fun _ => imp_congr_right fun _ => chunkValid_iff _

/-- On a file in which every chunk passes, only the length is left to see. -/
theorem isValidStream_passes {inp : IFStream} (hopen : inp.isOpen = true) (hinp : inp.Unflagged)
    (h : EveryChunk base64BufSize Grammar inp.rest) :
    isValidStream inp = some (decide (inp.rest ≠ [] ∧ inp.rest.length % 4 = 0), inp) :=
  scan_passes isValid_eq_chunkValid (by decide) hopen hinp ((everyChunk_chunkValid_iff _).mpr h)

theorem isValidStream_stops {inp : IFStream} (hopen : inp.isOpen = true) (hinp : inp.Unflagged)
    (h : ¬ EveryChunk base64BufSize Grammar inp.rest) :
    ∃ inp', isValidStream inp = some (false, inp') ∧ inp.pos < inp'.pos :=
  scan_stops isValid_eq_chunkValid (by decide) hopen hinp fun h' =>
    h ((everyChunk_chunkValid_iff _).mp h')

theorem rest_ofFile (s : List UInt8) : (IFStream.ofFile s).rest = s := rfl

theorem unflagged_ofFile (s : List UInt8) : (IFStream.ofFile s).Unflagged := ⟨rfl, rfl⟩

/-- The chunks of a file with padding inside may all be in order. -/
theorem isValidStream_differs {s : List UInt8} (h : EveryChunk base64BufSize Grammar s)
    (hinside : PaddedInside base64BufSize s) :
    isValidStream (.ofFile s) = some (true, .ofFile s) ∧
      isValid (some s) s.length = some false := by
  have hne : s ≠ [] := by
    rintro rfl
    obtain ⟨k, hk, -⟩ := hinside
    exact absurd hk (Nat.not_lt_zero _)
  constructor
  · rw [isValidStream_passes rfl (unflagged_ofFile s) h, rest_ofFile,
      decide_eq_true ⟨hne, length_mod_of_everyChunk (by decide) (by decide) h⟩]
  · obtain ⟨b, hb, hiff⟩ := isValid_grammar s
    cases b with
    | false => exact hb
    | true =>
        refine absurd hinside (not_paddedInside_of_grammar (by decide) (by decide) ?_)
        exact hiff.mp rfl

/-- **The two validators agree** on a file unless every chunk of it is in
order on its own and one other than the last ends in padding. -/
theorem isValidStream_eq_iff (s : List UInt8) :
    (∃ r inp', isValidStream (.ofFile s) = some (r, inp') ∧ isValid (some s) s.length = some r) ↔
      ¬ (EveryChunk base64BufSize Grammar s ∧ PaddedInside base64BufSize s) := by
  constructor
  · rintro ⟨r, inp', hstream, hbuffer⟩ ⟨h, hinside⟩
    obtain ⟨htrue, hfalse⟩ := isValidStream_differs h hinside
    rw [htrue] at hstream
    rw [hfalse] at hbuffer
    cases hstream
    cases hbuffer
  · intro h
    obtain ⟨b, hb, hiff⟩ := isValid_grammar s
    by_cases hall : EveryChunk base64BufSize Grammar s
    · refine ⟨_, _, isValidStream_passes rfl (unflagged_ofFile s) hall, ?_⟩
      rw [hb, rest_ofFile, Option.some_inj, Bool.eq_iff_iff, hiff, decide_eq_true_iff]
      constructor
      · rintro ⟨hne, hmod, -⟩
        exact ⟨hne, hmod⟩
      · rintro ⟨hne, -⟩
        exact grammar_of_everyChunk (by decide) hne hall fun hinside => h ⟨hall, hinside⟩
    · obtain ⟨inp', hscan, -⟩ := isValidStream_stops rfl (unflagged_ofFile s) hall
      refine ⟨false, inp', hscan, ?_⟩
      cases b with
      | false => exact hb
      | true =>
          exact absurd (everyChunk_of_grammar (by decide) (by decide) (hiff.mp rfl)) hall

/-- A full chunk that ends in `'='`, and four characters more. -/
def paddedChunkFile : List UInt8 :=
  (List.replicate 16383 0x41 ++ [0x3D]) ++ [0x41, 0x41, 0x41, 0x41]

theorem everyChunk_paddedChunkFile : EveryChunk base64BufSize Grammar paddedChunkFile := by
  have hfirst : (List.replicate 16383 (0x41 : UInt8) ++ [0x3D]).length = base64BufSize := by
    rw [List.length_append, List.length_replicate]
    rfl
  rw [paddedChunkFile, everyChunk_iff (List.append_ne_nil_of_right_ne_nil _ (by decide)),
    List.take_left' hfirst, List.drop_left' hfirst, everyChunk_iff (by decide),
    List.take_of_length_le (by decide), List.drop_eq_nil_of_le (by decide)]
  have hmod := congrArg (· % 4) hfirst
  have hall : ∀ n, ∀ c ∈ List.replicate n (0x41 : UInt8), c ∈ alphabet := by
    intro n c hc
    rw [List.eq_of_mem_replicate hc]
    decide
  exact ⟨⟨List.append_ne_nil_of_right_ne_nil _ (by decide), hmod.trans (by decide),
    List.replicate 16383 0x41, 1, by decide, hall _, rfl⟩,
    ⟨by decide, rfl, List.replicate 4 0x41, 0, by decide, hall _, rfl⟩, everyChunk_nil⟩

/-- The stream validator accepts it, the buffer validator does not. -/
theorem isValidStream_paddedChunkFile :
    ¬ ∃ r inp', isValidStream (.ofFile paddedChunkFile) = some (r, inp') ∧
      isValid (some paddedChunkFile) paddedChunkFile.length = some r := by
  rintro ⟨r, inp', hstream, hbuffer⟩
  have hinside : PaddedInside base64BufSize paddedChunkFile := by
    have hlen : (List.replicate 16383 (0x41 : UInt8)).length = 16383 := List.length_replicate
    refine ⟨0, ?_, ?_⟩
    · rw [paddedChunkFile, List.length_append, List.length_append, hlen]
      decide
    · rw [paddedChunkFile, List.append_assoc, List.getElem?_append_right (by rw [hlen]; decide), hlen]
      rfl
  obtain ⟨htrue, hfalse⟩ := isValidStream_differs everyChunk_paddedChunkFile hinside
  rw [htrue] at hstream
  rw [hfalse] at hbuffer
  cases hstream
  cases hbuffer

/-- **The stream validators do not consume** exactly if the stream comes
without a flag and no chunk of what is left of it is refused: they go back
only from the end of it. -/
theorem isValidStream_restores_iff (inp : IFStream) (hopen : inp.isOpen = true) :
    (∃ r inp', isValidStream inp = some (r, inp') ∧
      (inp'.pos = inp.pos ∧ inp'.Unflagged ↔
        inp.Unflagged ∧ EveryChunk base64BufSize Grammar inp.rest)) ∧
    ∃ r inp', Encoding.Hex.isValidStream inp = some (r, inp') ∧
      (inp'.pos = inp.pos ∧ inp'.Unflagged ↔
        inp.Unflagged ∧ ∀ c ∈ inp.rest, Encoding.Hex.isHexChar c = true) := by
  constructor
  · obtain ⟨r, inp', hscan, hiff⟩ := scan_restores_iff (n := base64BufSize) isValid_eq_chunkValid
      (by decide) hopen
    rw [everyChunk_chunkValid_iff] at hiff
    exact ⟨r, inp', hscan, hiff⟩
  · obtain ⟨r, inp', hscan, hiff⟩ := Encoding.Hex.isValidStream_goes_back hopen
    exact ⟨r, inp', hscan, hiff⟩

/-- Four digits are left where they were. -/
theorem isValidStream_restores_digits :
    (IFStream.ofFile [0x31, 0x32, 0x33, 0x34]).isOpen = true ∧
    (∃ r inp', isValidStream (.ofFile [0x31, 0x32, 0x33, 0x34]) = some (r, inp') ∧
      (inp'.pos = 0 ∧ inp'.Unflagged ↔
        (IFStream.ofFile [0x31, 0x32, 0x33, 0x34]).Unflagged ∧
          EveryChunk base64BufSize Grammar [0x31, 0x32, 0x33, 0x34])) ∧
    ∃ r inp', Encoding.Hex.isValidStream (.ofFile [0x31, 0x32, 0x33, 0x34]) = some (r, inp') ∧
      (inp'.pos = 0 ∧ inp'.Unflagged ↔
        (IFStream.ofFile [0x31, 0x32, 0x33, 0x34]).Unflagged ∧
          ∀ c ∈ [0x31, 0x32, 0x33, 0x34], Encoding.Hex.isHexChar c = true) :=
  ⟨rfl, isValidStream_restores_iff (.ofFile [0x31, 0x32, 0x33, 0x34]) rfl⟩

/-- An exclamation mark is consumed by both, and the flags stay raised. -/
theorem isValidStream_consumes :
    (¬ ∃ r inp', isValidStream (.ofFile [0x21]) = some (r, inp') ∧ inp'.pos = 0 ∧
      inp'.Unflagged) ∧
    ¬ ∃ r inp', Encoding.Hex.isValidStream (.ofFile [0x21]) = some (r, inp') ∧ inp'.pos = 0 ∧
      inp'.Unflagged := by
  have hbase64 : isValidStream (.ofFile [0x21]) =
      some (false, { IFStream.ofFile [0x21] with pos := 1, eof := true, fail := true }) := by
    decide +kernel
  have hhex : Encoding.Hex.isValidStream (.ofFile [0x21]) =
      some (false, { IFStream.ofFile [0x21] with pos := 1, eof := true, fail := true }) := by
    decide +kernel
  constructor
  · rintro ⟨r, inp', hscan, hpos, -⟩
    rw [hbase64] at hscan
    cases hscan
    cases hpos
  · rintro ⟨r, inp', hscan, hpos, -⟩
    rw [hhex] at hscan
    cases hscan
    cases hpos

/-! ## The encoder -/

/-- What OpenSSL does with the chain: a write of a positive number of bytes
encodes them, if that is no more than `limit`, beyond which the memory
buffer cannot grow; a write of any other number fails without output. -/
structure Bio.Documented (B : Bio) (limit : Nat) : Prop where
  write_pos : ∀ b64, B.newBase64 = some b64 → ∀ (src : List UInt8) (n : Nat), 0 < n →
    n ≤ src.length → n ≤ limit →
    B.mem (B.flush (B.write b64 src n).2) = Lib.Base64.encode (src.take n)
  write_nonpos : ∀ b64, B.newBase64 = some b64 → ∀ (src : List UInt8) (n : Int), n ≤ 0 →
    B.mem (B.flush (B.write b64 src n).2) = []

/-- How many bytes `BIO_write` is told to encode. -/
def handed (srcLen : Nat) : Nat := (IntType.int32.wrap srcLen).toNat

theorem wrap_int32 (n : Nat) : IntType.int32.wrap n = (n + 2 ^ 31) % 2 ^ 32 - 2 ^ 31 := by
  change ((n : Int) - -2 ^ 31) % 2 ^ 32 + -2 ^ 31 = _
  rw [Int.sub_neg]
  omega

theorem handed_le (n : Nat) : handed n ≤ n := by
  rw [handed, wrap_int32]
  omega

theorem handed_of_lt {n : Nat} (h : n < 2 ^ 31) : handed n = n := by
  rw [handed, wrap_int32]
  omega

/-- From 2^31 on, at least 2^31 bytes are left out. -/
theorem handed_add_le {n : Nat} (h : 2 ^ 31 ≤ n) : handed n + 2 ^ 31 ≤ n := by
  rw [handed, wrap_int32]
  omega

section Encode

variable {B : Bio} {limit : Nat} (hB : B.Documented limit) {b64 : B.Chain}
  (hnew : B.newBase64 = some b64)

include hB hnew

theorem mem_write {src : List UInt8} (hlimit : handed src.length ≤ limit) :
    B.mem (B.flush (B.write b64 src (IntType.int32.wrap src.length)).2) =
      Lib.Base64.encode (src.take (handed src.length)) := by
  have hle := handed_le src.length
  by_cases hpos : 0 < handed src.length
  · have hcast : IntType.int32.wrap src.length = handed src.length := by
      rw [handed] at hpos ⊢
      omega
    rw [hcast, hB.write_pos b64 hnew src _ hpos hle hlimit]
  · have hzero : handed src.length = 0 := by omega
    rw [hB.write_nonpos b64 hnew src _ (by rw [handed] at hzero; omega), hzero, List.take_zero]
    simp [Lib.Base64.encode, Lib.Base64.sextets, Lib.Base64.padding]

/-- **What `encode` comes to** once both BIOs exist: the encoding of what the
narrowed length covers, if that fits. -/
theorem encode_eq (hmem : B.newMem = true) {dst src buffer : List UInt8} {dstLen : Nat}
    (hlimit : handed src.length ≤ limit)
    (hbuffer : Lib.Base64.encode (src.take (handed src.length)) = buffer) (hsrc : src.length ≠ 0)
    (hdst : dstLen ≠ 0) (hroom : dstLen ≤ dst.length) :
    encode B dst dstLen src =
      some (if dstLen < buffer.length then (.bufferOverflow, dst, dstLen)
        else (.ok, buffer ++ dst.drop buffer.length, buffer.length)) := by
  have hwrite := mem_write hB hnew hlimit
  rw [hbuffer] at hwrite
  simp only [encode, hsrc, hdst, or_self, if_false, hmem, Bool.not_true, Bool.false_eq_true, hnew,
    hwrite]
  by_cases hfit : dstLen < buffer.length
  · rw [if_pos hfit, if_pos hfit]
  · rw [if_neg hfit, if_neg hfit, writeN, if_pos (by omega)]
    simp only [List.take_zero, List.nil_append, Nat.zero_add]

end Encode

theorem length_encode_handed (src : List UInt8) :
    (Lib.Base64.encode (src.take (handed src.length))).length =
      4 * ((handed src.length + 2) / 3) := by
  rw [Lib.Base64.length_encode, List.length_take, Nat.min_eq_left (handed_le src.length)]

/-- An outcome of `encode` for `srcLen` bytes: an error, or the length of
the whole encoding. -/
def Complete (srcLen : Nat) (r : Option (ErrorCode × List UInt8 × Nat)) : Prop :=
  ∃ code dst' dstLen', r = some (code, dst', dstLen') ∧
    (code = .ok → dstLen' = 4 * ((srcLen + 2) / 3))

theorem complete_error {code : ErrorCode} (h : code ≠ .ok) (srcLen : Nat) (dst' : List UInt8)
    (dstLen' : Nat) : Complete srcLen (some (code, dst', dstLen')) :=
  ⟨code, dst', dstLen', rfl, fun hok => absurd hok h⟩

theorem complete_ok_iff {srcLen dstLen' : Nat} {dst' : List UInt8} :
    Complete srcLen (some (.ok, dst', dstLen')) ↔ dstLen' = 4 * ((srcLen + 2) / 3) := by
  constructor
  · rintro ⟨code, d, l, heq, hok⟩
    simp only [Option.some.injEq, Prod.mk.injEq] at heq
    obtain ⟨rfl, -, rfl⟩ := heq
    exact hok rfl
  · intro h
    exact ⟨_, _, _, rfl, fun _ => h⟩

/-- Without a BIO there is no success. -/
theorem complete_of_no_bio {B : Bio} (dst src : List UInt8) (dstLen : Nat)
    (h : B.newMem = false ∨ B.newBase64 = none) :
    Complete src.length (encode B dst dstLen src) := by
  by_cases hzero : src.length = 0 ∨ dstLen = 0
  · rw [encode, if_pos hzero]
    exact complete_error (by decide) _ _ _
  rw [encode, if_neg hzero]
  cases hmem : B.newMem with
  | false => exact complete_error (by decide) _ _ _
  | true =>
      rw [h.resolve_left (by simp [hmem])]
      exact complete_error (by decide) _ _ _

/-- **Encoding drops nothing silently** exactly if the length fits an `int`,
or the call cannot succeed: a BIO is missing, or `encode_len_reserve` has
wrapped and the destination that it asks for is empty or too small even
for what is left of the length. What `BIO_write` is handed, it encodes. -/
theorem encode_complete_iff {B : Bio} {limit : Nat} (hB : B.Documented limit)
    (dst src : List UInt8) (dstLen : Nat) (hlimit : handed src.length ≤ limit)
    (hsrc : 1 ≤ src.length) (hsize : src.length < 2 ^ 64) (hroom : dstLen ≤ dst.length)
    (hreserve : encodeLenReserve src.length ≤ dstLen) :
    Complete src.length (encode B dst dstLen src) ↔
      src.length < 2 ^ 31 ∨ B.newMem = false ∨ B.newBase64 = none ∨
        (3 * 2 ^ 62 ≤ src.length + 2 ∧
          (dstLen = 0 ∨ dstLen < 4 * ((handed src.length + 2) / 3))) := by
  by_cases hbio : B.newMem = false ∨ B.newBase64 = none
  · refine ⟨fun _ => ?_, fun _ => complete_of_no_bio dst src dstLen hbio⟩
    rcases hbio with h | h
    · exact .inr (.inl h)
    · exact .inr (.inr (.inl h))
  rw [not_or, Bool.not_eq_false] at hbio
  obtain ⟨hmem, hnone⟩ := hbio
  obtain ⟨b64, hnew⟩ := Option.ne_none_iff_exists'.mp hnone
  have hwraps : 3 * 2 ^ 62 ≤ src.length + 2 ∨ 4 * ((src.length + 2) / 3) ≤ dstLen := by
    rw [encodeLenReserve] at hreserve
    omega
  by_cases hdst : dstLen = 0
  · refine ⟨fun _ => .inr (.inr (.inr ⟨by omega, .inl hdst⟩)), fun _ => ?_⟩
    rw [encode, if_pos (.inr hdst)]
    exact complete_error (by decide) _ _ _
  rw [encode_eq hB hnew hmem hlimit rfl (by omega) hdst hroom, length_encode_handed]
  have hle := handed_le src.length
  by_cases hfit : dstLen < 4 * ((handed src.length + 2) / 3)
  · rw [if_pos hfit]
    refine ⟨fun _ => .inr (.inr (.inr ⟨by omega, .inr hfit⟩)), fun _ => ?_⟩
    exact complete_error (by decide) _ _ _
  rw [if_neg hfit, complete_ok_iff]
  constructor
  · intro hlen
    refine .inl ?_
    by_contra hlong
    have hshort := handed_add_le (Nat.not_lt.mp hlong)
    omega
  · rintro (hlt | hfalse | hnil | ⟨-, hzero | hlt⟩)
    · rw [handed_of_lt hlt]
    · rw [hmem] at hfalse
      cases hfalse
    · exact absurd hnil hnone
    · exact absurd hzero hdst
    · exact absurd hlt hfit

/-- A chain that keeps what is encoded in a list. -/
def listBio : Bio where
  Chain := List UInt8
  newMem := true
  newBase64 := some []
  write c src n := if n ≤ 0 then (0, c) else (n, c ++ Lib.Base64.encode (src.take n.toNat))
  flush := id
  mem := id

theorem listBio_documented (limit : Nat) : listBio.Documented limit where
  write_pos := by
    intro b64 hnew src n hpos hle _
    cases hnew
    simp [listBio, Nat.pos_iff_ne_zero.mp hpos]
  write_nonpos := by
    intro b64 hnew src n hn
    cases hnew
    simp [listBio, hn]

/-- One byte is four characters. -/
theorem encode_complete_one :
    listBio.Documented 1 ∧ (Complete 1 (encode listBio [0, 0, 0, 0] 4 [0xFF]) ↔
      1 < 2 ^ 31 ∨ listBio.newMem = false ∨ listBio.newBase64 = none ∨
        (3 * 2 ^ 62 ≤ 1 + 2 ∧ (4 = 0 ∨ 4 < 4 * ((handed 1 + 2) / 3)))) :=
  ⟨listBio_documented 1, encode_complete_iff (listBio_documented 1) [0, 0, 0, 0] [0xFF] 4
    (by decide) (by decide) (by decide) (by decide) (by decide)⟩

/-- Of 2^32 bytes none is encoded, and the call succeeds. -/
theorem encode_drops_all :
    ¬ Complete (2 ^ 32) (encode listBio (List.replicate (encodeLenReserve (2 ^ 32)) 0)
      (encodeLenReserve (2 ^ 32)) (List.replicate (2 ^ 32) 0)) := by
  have hlen : (List.replicate (2 ^ 32) (0 : UInt8)).length = 2 ^ 32 := List.length_replicate
  have hhanded : handed (List.replicate (2 ^ 32) (0 : UInt8)).length = 0 := by
    rw [hlen]
    decide
  rw [encode_eq (listBio_documented 0) rfl rfl (Nat.le_of_eq hhanded) rfl (by rw [hlen]; decide)
    (by decide) (by rw [List.length_replicate]), length_encode_handed, hhanded,
    if_neg (by decide), complete_ok_iff]
  decide

end HighJump.Crypto.Base64
