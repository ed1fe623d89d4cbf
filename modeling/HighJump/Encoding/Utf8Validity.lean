/-
HighJump.Encoding.Utf8Validity — what `utf8::is_valid` accepts.

`Char` is the type of the Unicode scalar values and `String.utf8EncodeChar`
their shortest form, so a well-formed text is the concatenation of the
encodings of a list of characters. The comment at the head of the function
promises a check for overlong forms; it is made in the two-byte branch and
nowhere else. `isValid_iff_pieces` says what is accepted instead: texts cut
into encodings and into overlong forms of three and four bytes.

The first byte of such a piece gives its length, so a text is cut in one
way only, and the answer is right unless the cut shows an overlong form.
-/
import HighJump.Encoding.Utf8
import HighJump.Lib.Framing
import HighJump.Lib.MachineInt
import Mathlib.Data.List.Basic

namespace HighJump.Encoding.Utf8

open HighJump.Lib

/-- A concatenation of shortest-form encodings of scalar values. -/
def WellFormed (s : List UInt8) : Prop := ∃ cs : List Char, s = cs.flatMap String.utf8EncodeChar

/-! ## The forms of a number -/

/-- `n` written in two bytes. -/
def form2 (n : Nat) : List UInt8 := [.ofNat (0xC0 + n / 64), .ofNat (0x80 + n % 64)]

/-- `n` written in three bytes. -/
def form3 (n : Nat) : List UInt8 :=
  [.ofNat (0xE0 + n / 4096), .ofNat (0x80 + n / 64 % 64), .ofNat (0x80 + n % 64)]

/-- `n` written in four bytes. -/
def form4 (n : Nat) : List UInt8 :=
  [.ofNat (0xF0 + n / 262144), .ofNat (0x80 + n / 4096 % 64), .ofNat (0x80 + n / 64 % 64),
    .ofNat (0x80 + n % 64)]

/-- A form of three or four bytes where fewer would do. -/
def Overlong (q : List UInt8) : Prop :=
  (∃ n < 0x800, q = form3 n) ∨ ∃ n < 0x10000, q = form4 n

/-- What one turn of the validation takes. -/
def Piece (q : List UInt8) : Prop := (∃ c : Char, q = String.utf8EncodeChar c) ∨ Overlong q

/-- A text cut into pieces. -/
def CutInto (qs : List (List UInt8)) (s : List UInt8) : Prop :=
  (∀ q ∈ qs, Piece q) ∧ s = qs.flatten

theorem utf8EncodeChar_one {c : Char} (h : c.toNat ≤ 0x7F) :
    String.utf8EncodeChar c = [.ofNat c.toNat] := by
  have h : c.val.toNat ≤ 0x7F := h
  rw [String.utf8EncodeChar]
  exact if_pos h

theorem utf8EncodeChar_two {c : Char} (h1 : 0x7F < c.toNat) (h2 : c.toNat ≤ 0x7FF) :
    String.utf8EncodeChar c = form2 c.toNat := by
  have h1 : 0x7F < c.val.toNat := h1
  have h2 : c.val.toNat ≤ 0x7FF := h2
  rw [String.utf8EncodeChar]
  simp only [if_neg (Nat.not_le.mpr h1), if_pos h2, form2, Char.toNat]
  rw [Nat.mod_eq_of_lt (by omega : c.val.toNat / 64 < 32), Nat.add_comm, Nat.add_comm 0x80]

theorem utf8EncodeChar_three {c : Char} (h2 : 0x7FF < c.toNat) (h3 : c.toNat ≤ 0xFFFF) :
    String.utf8EncodeChar c = form3 c.toNat := by
  have h2 : 0x7FF < c.val.toNat := h2
  have h3 : c.val.toNat ≤ 0xFFFF := h3
  have h1 : ¬ c.val.toNat ≤ 0x7F := by omega
  rw [String.utf8EncodeChar]
  simp only [if_neg h1, if_neg (Nat.not_le.mpr h2), if_pos h3, form3, Char.toNat]
  rw [Nat.mod_eq_of_lt (by omega : c.val.toNat / 4096 < 16), Nat.add_comm, Nat.add_comm 0x80,
    Nat.add_comm 0x80]

theorem utf8EncodeChar_four {c : Char} (h3 : 0xFFFF < c.toNat) :
    String.utf8EncodeChar c = form4 c.toNat := by
  have h3 : 0xFFFF < c.val.toNat := h3
  have hvalid : c.val.toNat < 0xD800 ∨ 0xDFFF < c.val.toNat ∧ c.val.toNat < 0x110000 := c.valid
  have h1 : ¬ c.val.toNat ≤ 0x7F := by omega
  have h2 : ¬ c.val.toNat ≤ 0x7FF := by omega
  rw [String.utf8EncodeChar]
  simp only [if_neg h1, if_neg h2, if_neg (Nat.not_le.mpr h3), form4, Char.toNat]
  rw [Nat.mod_eq_of_lt (by omega : c.val.toNat / 262144 < 8), Nat.add_comm, Nat.add_comm 0x80,
    Nat.add_comm 0x80, Nat.add_comm 0x80]

/-- Every number that is no surrogate and not beyond U+10FFFF is a scalar value. -/
theorem exists_char {n : Nat} (hn : n < 0xD800 ∨ 0xDFFF < n ∧ n < 0x110000) :
    ∃ c : Char, c.toNat = n :=
  ⟨Char.ofNatAux n hn, rfl⟩

/-! ## The tests on bytes -/

theorem le_7F (b : UInt8) : b ≤ 0x7F ↔ b.toNat ≤ 0x7F := UInt8.le_iff_toNat_le

/-- A mask of the high bits looks at which 2^k numbers there are. -/
theorem mask_iff {m v : UInt8} {k l q : Nat} (hkl : k + l = 8)
    (hm : m.toNat = 2 ^ k * (2 ^ l - 1)) (hv : v.toNat = 2 ^ k * q) (b : UInt8) :
    (b &&& m == v) = true ↔ 2 ^ k * q ≤ b.toNat ∧ b.toNat < 2 ^ k * (q + 1) := by
  have hlt : b.toNat < 2 ^ (k + l) := hkl ▸ b.toNat_lt
  have hpos := Nat.two_pow_pos k
  rw [beq_iff_eq, ← UInt8.toNat_inj, UInt8.toNat_and, hm, hv, and_high hlt,
    Nat.mul_right_inj (Nat.pos_iff_ne_zero.mp hpos), Nat.div_eq_iff hpos, Nat.mul_succ]
  rw [Nat.mul_comm q]
  omega

theorem and_E0 (b : UInt8) : (b &&& 0xE0 == 0xC0) = true ↔ 0xC0 ≤ b.toNat ∧ b.toNat < 0xE0 :=
  mask_iff (k := 5) (l := 3) (q := 6) rfl rfl rfl b

theorem and_FE (b : UInt8) : (b &&& 0xFE == 0xC0) = true ↔ 0xC0 ≤ b.toNat ∧ b.toNat < 0xC2 :=
  mask_iff (k := 1) (l := 7) (q := 96) rfl rfl rfl b

theorem and_F0 (b : UInt8) : (b &&& 0xF0 == 0xE0) = true ↔ 0xE0 ≤ b.toNat ∧ b.toNat < 0xF0 :=
  mask_iff (k := 4) (l := 4) (q := 14) rfl rfl rfl b

theorem and_F8 (b : UInt8) : (b &&& 0xF8 == 0xF0) = true ↔ 0xF0 ≤ b.toNat ∧ b.toNat < 0xF8 :=
  mask_iff (k := 3) (l := 5) (q := 30) rfl rfl rfl b

theorem isContinuation_iff (b : UInt8) :
    isContinuation b = true ↔ 0x80 ≤ b.toNat ∧ b.toNat < 0xC0 :=
  mask_iff (k := 6) (l := 2) (q := 2) rfl rfl rfl b

theorem and_low (b : UInt8) :
    (b &&& 0x07).toNat = b.toNat % 8 ∧ (b &&& 0x0F).toNat = b.toNat % 16 ∧
      (b &&& 0x3F).toNat = b.toNat % 64 := by
  rw [UInt8.toNat_and, UInt8.toNat_and, UInt8.toNat_and]
  exact ⟨Nat.and_two_pow_sub_one_eq_mod _ 3, Nat.and_two_pow_sub_one_eq_mod _ 4,
    Nat.and_two_pow_sub_one_eq_mod _ 6⟩

theorem cp3_eq (c b₁ b₂ : UInt8) :
    cp3 c b₁ b₂ = c.toNat % 16 * 4096 + b₁.toNat % 64 * 64 + b₂.toNat % 64 := by
  rw [cp3, (and_low c).2.1, (and_low b₁).2.2, (and_low b₂).2.2, Nat.or_assoc,
    ← Nat.shiftLeft_add_eq_or_of_lt (i := 6) (by omega),
    ← Nat.shiftLeft_add_eq_or_of_lt (by rw [Nat.shiftLeft_eq]; omega), Nat.shiftLeft_eq,
    Nat.shiftLeft_eq]
  omega

theorem cp4_eq (c b₁ b₂ b₃ : UInt8) :
    cp4 c b₁ b₂ b₃ =
      c.toNat % 8 * 262144 + b₁.toNat % 64 * 4096 + b₂.toNat % 64 * 64 + b₃.toNat % 64 := by
  rw [cp4, (and_low c).1, (and_low b₁).2.2, (and_low b₂).2.2, (and_low b₃).2.2, Nat.or_assoc,
    Nat.or_assoc, ← Nat.shiftLeft_add_eq_or_of_lt (i := 6) (by omega),
    ← Nat.shiftLeft_add_eq_or_of_lt (i := 12) (by rw [Nat.shiftLeft_eq]; omega),
    ← Nat.shiftLeft_add_eq_or_of_lt (by rw [Nat.shiftLeft_eq, Nat.shiftLeft_eq]; omega),
    Nat.shiftLeft_eq, Nat.shiftLeft_eq, Nat.shiftLeft_eq]
  omega

/-! ## One turn -/

theorem isValid_one {n : Nat} (hn : n ≤ 0x7F) (rest : List UInt8) :
    isValid (.ofNat n :: rest) = isValid rest := by
  have hc : UInt8.ofNat n ≤ 0x7F := by
    rw [le_7F, toNat_byte (by omega)]
    exact hn
  rw [isValid.eq_def]
  exact if_pos hc

theorem isContinuation_low {k : Nat} (hk : k < 64) :
    isContinuation (.ofNat (0x80 + k)) = true := by
  have hbyte := toNat_byte (by omega : 0x80 + k < 256)
  rw [isContinuation_iff]
  omega

theorem isValid_form2 {n : Nat} (h1 : 0x7F < n) (h2 : n ≤ 0x7FF) (rest : List UInt8) :
    isValid (form2 n ++ rest) = isValid rest := by
  have hlead := toNat_byte (by omega : 0xC0 + n / 64 < 256)
  rw [form2, List.cons_append, List.cons_append, List.nil_append, isValid,
    if_neg (by rw [le_7F]; omega), if_pos (by rw [and_E0]; omega)]
  have hcont := isContinuation_low (k := n % 64) (by omega)
  have hshort : ¬ (UInt8.ofNat (0xC0 + n / 64) &&& 0xFE == 0xC0) = true := by
    rw [and_FE]
    omega
  simp only [hcont, Bool.not_true, Bool.false_eq_true, if_false, if_neg hshort]

theorem isValid_form3 {n : Nat} (h3 : n ≤ 0xFFFF) (hs : n < 0xD800 ∨ 0xDFFF < n)
    (rest : List UInt8) : isValid (form3 n ++ rest) = isValid rest := by
  have hlead := toNat_byte (by omega : 0xE0 + n / 4096 < 256)
  have hb₁ := toNat_byte (by omega : 0x80 + n / 64 % 64 < 256)
  have hb₂ := toNat_byte (by omega : 0x80 + n % 64 < 256)
  rw [form3, List.cons_append, List.cons_append, List.cons_append, List.nil_append, isValid,
    if_neg (by rw [le_7F]; omega), if_neg (by rw [and_E0]; omega), if_pos (by rw [and_F0]; omega)]
  have hc₁ := isContinuation_low (k := n / 64 % 64) (by omega)
  have hc₂ := isContinuation_low (k := n % 64) (by omega)
  have hcp : cp3 (.ofNat (0xE0 + n / 4096)) (.ofNat (0x80 + n / 64 % 64))
      (.ofNat (0x80 + n % 64)) = n := by
    rw [cp3_eq, hlead, hb₁, hb₂]
    omega
  have hsur : (decide (n ≥ 0xD800) && decide (n ≤ 0xDFFF)) = false := by
    rw [Bool.and_eq_false_iff, decide_eq_false_iff_not, decide_eq_false_iff_not]
    omega
  simp only [hc₁, hc₂, hcp, hsur, Bool.not_true, Bool.or_self, Bool.false_eq_true, if_false]

theorem isValid_form4 {n : Nat} (h4 : n ≤ 0x10FFFF) (rest : List UInt8) :
    isValid (form4 n ++ rest) = isValid rest := by
  have hlead := toNat_byte (by omega : 0xF0 + n / 262144 < 256)
  have hb₁ := toNat_byte (by omega : 0x80 + n / 4096 % 64 < 256)
  have hb₂ := toNat_byte (by omega : 0x80 + n / 64 % 64 < 256)
  have hb₃ := toNat_byte (by omega : 0x80 + n % 64 < 256)
  rw [form4, List.cons_append, List.cons_append, List.cons_append, List.cons_append,
    List.nil_append, isValid, if_neg (by rw [le_7F]; omega), if_neg (by rw [and_E0]; omega),
    if_neg (by rw [and_F0]; omega), if_pos (by rw [and_F8]; omega)]
  have hc₁ := isContinuation_low (k := n / 4096 % 64) (by omega)
  have hc₂ := isContinuation_low (k := n / 64 % 64) (by omega)
  have hc₃ := isContinuation_low (k := n % 64) (by omega)
  have hcp : cp4 (.ofNat (0xF0 + n / 262144)) (.ofNat (0x80 + n / 4096 % 64))
      (.ofNat (0x80 + n / 64 % 64)) (.ofNat (0x80 + n % 64)) = n := by
    rw [cp4_eq, hlead, hb₁, hb₂, hb₃]
    omega
  simp only [hc₁, hc₂, hc₃, hcp, Bool.not_true, Bool.or_self, Bool.false_eq_true, if_false,
    if_neg (Nat.not_lt.mpr h4)]

/-- A turn takes a piece. -/
theorem isValid_piece {q : List UInt8} (hq : Piece q) (rest : List UInt8) :
    isValid (q ++ rest) = isValid rest := by
  rcases hq with ⟨c, rfl⟩ | ⟨n, hn, rfl⟩ | ⟨n, hn, rfl⟩
  · have hvalid : c.toNat < 0xD800 ∨ 0xDFFF < c.toNat ∧ c.toNat < 0x110000 := c.valid
    by_cases h1 : c.toNat ≤ 0x7F
    · rw [utf8EncodeChar_one h1]
      exact isValid_one h1 rest
    by_cases h2 : c.toNat ≤ 0x7FF
    · rw [utf8EncodeChar_two (by omega) h2]
      exact isValid_form2 (by omega) h2 rest
    by_cases h3 : c.toNat ≤ 0xFFFF
    · rw [utf8EncodeChar_three (by omega) h3]
      exact isValid_form3 h3 (by omega) rest
    · rw [utf8EncodeChar_four (by omega)]
      exact isValid_form4 (by omega) rest
  · exact isValid_form3 (by omega) (by omega) rest
  · exact isValid_form4 (by omega) rest

/-! ## What a turn has seen -/

theorem ofNat_eq {b : UInt8} {n : Nat} (h : n = b.toNat) : UInt8.ofNat n = b := by
  rw [h, UInt8.ofNat_toNat]

theorem piece_one {c : UInt8} (hc : c.toNat ≤ 0x7F) : Piece [c] := by
  obtain ⟨ch, hch⟩ := exists_char (n := c.toNat) (by omega)
  refine .inl ⟨ch, ?_⟩
  rw [utf8EncodeChar_one (by omega), hch, UInt8.ofNat_toNat]

theorem piece_two {c b : UInt8} (hc : 0xC2 ≤ c.toNat ∧ c.toNat < 0xE0)
    (hb : 0x80 ≤ b.toNat ∧ b.toNat < 0xC0) : Piece [c, b] := by
  obtain ⟨ch, hch⟩ := exists_char (n := c.toNat % 32 * 64 + b.toNat % 64) (by omega)
  refine .inl ⟨ch, ?_⟩
  rw [utf8EncodeChar_two (by omega) (by omega), form2, ofNat_eq (b := c) (by omega),
    ofNat_eq (b := b) (by omega)]

theorem piece_three {c b₁ b₂ : UInt8} (hc : 0xE0 ≤ c.toNat ∧ c.toNat < 0xF0)
    (hb₁ : 0x80 ≤ b₁.toNat ∧ b₁.toNat < 0xC0) (hb₂ : 0x80 ≤ b₂.toNat ∧ b₂.toNat < 0xC0)
    (hs : ¬ (0xD800 ≤ cp3 c b₁ b₂ ∧ cp3 c b₁ b₂ ≤ 0xDFFF)) : Piece [c, b₁, b₂] := by
  obtain ⟨n, hn⟩ : ∃ n, n = cp3 c b₁ b₂ := ⟨_, rfl⟩
  have hval := cp3_eq c b₁ b₂
  have hform : form3 n = [c, b₁, b₂] := by
    rw [form3, ofNat_eq (b := c) (by omega), ofNat_eq (b := b₁) (by omega),
      ofNat_eq (b := b₂) (by omega)]
  rw [← hform]
  by_cases hshort : n < 0x800
  · exact .inr (.inl ⟨n, hshort, rfl⟩)
  · obtain ⟨ch, hch⟩ := exists_char (n := n) (by omega)
    exact .inl ⟨ch, by rw [utf8EncodeChar_three (by omega) (by omega), hch]⟩

theorem piece_four {c b₁ b₂ b₃ : UInt8} (hc : 0xF0 ≤ c.toNat ∧ c.toNat < 0xF8)
    (hb₁ : 0x80 ≤ b₁.toNat ∧ b₁.toNat < 0xC0) (hb₂ : 0x80 ≤ b₂.toNat ∧ b₂.toNat < 0xC0)
    (hb₃ : 0x80 ≤ b₃.toNat ∧ b₃.toNat < 0xC0) (hmax : cp4 c b₁ b₂ b₃ ≤ 0x10FFFF) :
    Piece [c, b₁, b₂, b₃] := by
  obtain ⟨n, hn⟩ : ∃ n, n = cp4 c b₁ b₂ b₃ := ⟨_, rfl⟩
  have hval := cp4_eq c b₁ b₂ b₃
  have hform : form4 n = [c, b₁, b₂, b₃] := by
    rw [form4, ofNat_eq (b := c) (by omega), ofNat_eq (b := b₁) (by omega),
      ofNat_eq (b := b₂) (by omega), ofNat_eq (b := b₃) (by omega)]
  rw [← hform]
  by_cases hshort : n < 0x10000
  · exact .inr (.inr ⟨n, hshort, rfl⟩)
  · obtain ⟨ch, hch⟩ := exists_char (n := n) (by omega)
    exact .inl ⟨ch, by rw [utf8EncodeChar_four (by omega), hch]⟩

/-- A text that is accepted begins with a piece. -/
theorem piece_of_isValid {c : UInt8} {s : List UInt8} (h : isValid (c :: s) = true) :
    ∃ q rest, Piece q ∧ c :: s = q ++ rest ∧ isValid rest = true := by
  rw [isValid.eq_def] at h
  simp only at h
  split at h
  · rename_i hc
    exact ⟨[c], s, piece_one ((le_7F c).mp hc), rfl, h⟩
  split at h
  · rename_i hc
    rw [and_E0] at hc
    split at h
    · rename_i b₁ rest
      split at h
      · cases h
      rename_i hb₁
      split at h
      · cases h
      rename_i hover
      rw [and_FE] at hover
      rw [Bool.not_eq_true, Bool.not_eq_false', isContinuation_iff] at hb₁
      exact ⟨[c, b₁], rest, piece_two (by omega) hb₁, rfl, h⟩
    · cases h
  split at h
  · rename_i hc
    rw [and_F0] at hc
    split at h
    · rename_i b₁ b₂ rest
      split at h
      · cases h
      rename_i hb
      split at h
      · cases h
      rename_i hsur
      simp only [Bool.or_eq_true, Bool.not_eq_true', not_or, Bool.not_eq_false,
        isContinuation_iff] at hb
      simp only [Bool.and_eq_true, decide_eq_true_eq] at hsur
      exact ⟨[c, b₁, b₂], rest, piece_three hc hb.1 hb.2 hsur, rfl, h⟩
    · cases h
  split at h
  · rename_i hc
    rw [and_F8] at hc
    split at h
    · rename_i b₁ b₂ b₃ rest
      split at h
      · cases h
      rename_i hb
      split at h
      · cases h
      rename_i hmax
      simp only [Bool.or_eq_true, Bool.not_eq_true', not_or, Bool.not_eq_false,
        isContinuation_iff] at hb
      exact ⟨[c, b₁, b₂, b₃], rest, piece_four hc hb.1.1 hb.1.2 hb.2 (by omega), rfl, h⟩
    · cases h
  · cases h

/-! ## The first byte gives the length -/

/-- The number of bytes of a piece with the given first byte. -/
def leadLength (b : UInt8) : Nat :=
  if b.toNat < 0xC0 then 1 else if b.toNat < 0xE0 then 2 else if b.toNat < 0xF0 then 3 else 4

theorem selfDelimiting_form3 {n : Nat} (h : n ≤ 0xFFFF) : SelfDelimiting leadLength (form3 n) := by
  refine ⟨_, _, rfl, ?_⟩
  have hlead := toNat_byte (by omega : 0xE0 + n / 4096 < 256)
  rw [leadLength, hlead, if_neg (by omega), if_neg (by omega), if_pos (by omega)]
  rfl

theorem selfDelimiting_form4 {n : Nat} (h : n ≤ 0x10FFFF) :
    SelfDelimiting leadLength (form4 n) := by
  refine ⟨_, _, rfl, ?_⟩
  have hlead := toNat_byte (by omega : 0xF0 + n / 262144 < 256)
  rw [leadLength, hlead, if_neg (by omega), if_neg (by omega), if_neg (by omega)]
  rfl

theorem selfDelimiting_utf8EncodeChar (c : Char) :
    SelfDelimiting leadLength (String.utf8EncodeChar c) := by
  have hvalid : c.toNat < 0xD800 ∨ 0xDFFF < c.toNat ∧ c.toNat < 0x110000 := c.valid
  by_cases h1 : c.toNat ≤ 0x7F
  · rw [utf8EncodeChar_one h1]
    exact ⟨_, _, rfl, by rw [leadLength, toNat_byte (by omega), if_pos (by omega)]; rfl⟩
  by_cases h2 : c.toNat ≤ 0x7FF
  · rw [utf8EncodeChar_two (by omega) h2]
    refine ⟨_, _, rfl, ?_⟩
    have hlead := toNat_byte (by omega : 0xC0 + c.toNat / 64 < 256)
    rw [leadLength, hlead, if_neg (by omega), if_pos (by omega)]
    rfl
  by_cases h3 : c.toNat ≤ 0xFFFF
  · rw [utf8EncodeChar_three (by omega) h3]
    exact selfDelimiting_form3 h3
  · rw [utf8EncodeChar_four (by omega)]
    exact selfDelimiting_form4 (by omega)

theorem piece_selfDelimiting {q : List UInt8} (hq : Piece q) : SelfDelimiting leadLength q := by
  rcases hq with ⟨c, rfl⟩ | ⟨n, hn, rfl⟩ | ⟨n, hn, rfl⟩
  · exact selfDelimiting_utf8EncodeChar c
  · exact selfDelimiting_form3 (by omega)
  · exact selfDelimiting_form4 (by omega)

/-! ## An encoding is not overlong -/

theorem ofNat_inj {n m : Nat} (hn : n < 256) (hm : m < 256) (h : UInt8.ofNat n = .ofNat m) :
    n = m := by
  rw [← toNat_byte hn, h, toNat_byte hm]

theorem form3_inj {n m : Nat} (hn : n ≤ 0xFFFF) (hm : m ≤ 0xFFFF) (h : form3 n = form3 m) :
    n = m := by
  simp only [form3, List.cons.injEq, and_true] at h
  have h₁ := ofNat_inj (by omega) (by omega) h.1
  have h₂ := ofNat_inj (by omega) (by omega) h.2.1
  have h₃ := ofNat_inj (by omega) (by omega) h.2.2
  omega

theorem form4_inj {n m : Nat} (hn : n ≤ 0x10FFFF) (hm : m ≤ 0x10FFFF) (h : form4 n = form4 m) :
    n = m := by
  simp only [form4, List.cons.injEq, and_true] at h
  have h₁ := ofNat_inj (by omega) (by omega) h.1
  have h₂ := ofNat_inj (by omega) (by omega) h.2.1
  have h₃ := ofNat_inj (by omega) (by omega) h.2.2.1
  have h₄ := ofNat_inj (by omega) (by omega) h.2.2.2
  omega

theorem not_overlong_utf8EncodeChar (c : Char) : ¬ Overlong (String.utf8EncodeChar c) := by
  have hvalid : c.toNat < 0xD800 ∨ 0xDFFF < c.toNat ∧ c.toNat < 0x110000 := c.valid
  -- the number of bytes gives the range of the character
  by_cases h1 : c.toNat ≤ 0x7F
  · rw [utf8EncodeChar_one h1]
    rintro (⟨n, _, h⟩ | ⟨n, _, h⟩)
    all_goals simp [form3, form4] at h
  by_cases h2 : c.toNat ≤ 0x7FF
  · rw [utf8EncodeChar_two (by omega) h2]
    rintro (⟨n, _, h⟩ | ⟨n, _, h⟩)
    all_goals simp [form2, form3, form4] at h
  by_cases h3 : c.toNat ≤ 0xFFFF
  · rw [utf8EncodeChar_three (by omega) h3]
    rintro (⟨n, hn, h⟩ | ⟨n, _, h⟩)
    · have := form3_inj h3 (by omega) h
      omega
    · simp [form3, form4] at h
  · rw [utf8EncodeChar_four (by omega)]
    rintro (⟨n, _, h⟩ | ⟨n, hn, h⟩)
    · simp [form3, form4] at h
    · have := form4_inj (by omega) (by omega) h
      omega

/-! ## What is accepted -/

/-- **The accepted texts**: encodings and overlong forms, in any order. -/
theorem isValid_iff_pieces (s : List UInt8) : isValid s = true ↔ ∃ qs, CutInto qs s := by
  constructor
  · -- on the length of the text: a turn takes at least one byte
    intro h
    induction hn : s.length using Nat.strong_induction_on generalizing s with
    | _ n ih =>
        cases s with
        | nil => exact ⟨[], by simp [CutInto]⟩
        | cons c s =>
            obtain ⟨q, rest, hq, heq, hrest⟩ := piece_of_isValid h
            obtain ⟨b, t, rfl, _⟩ := piece_selfDelimiting hq
            have hshort : rest.length < n := by
              rw [← hn, heq, List.length_append, List.length_cons]
              omega
            obtain ⟨qs, hqs, hflat⟩ := ih rest.length hshort rest hrest rfl
            refine ⟨(b :: t) :: qs, ?_, by rw [heq, hflat, List.flatten_cons]⟩
            rintro q (_ | ⟨_, hmem⟩)
            · exact hq
            · exact hqs q hmem
  · rintro ⟨qs, hqs, rfl⟩
    induction qs with
    | nil => rfl
    | cons q qs ih =>
        rw [List.flatten_cons, isValid_piece (hqs q (by simp))]
        exact ih fun u hu => hqs u (by simp [hu])

/-- Well-formed texts are accepted. -/
theorem isValid_of_wellFormed {s : List UInt8} (h : WellFormed s) : isValid s = true := by
  obtain ⟨cs, rfl⟩ := h
  refine (isValid_iff_pieces _).mpr ⟨cs.map String.utf8EncodeChar, ?_, rfl⟩
  intro q hq
  obtain ⟨c, _, rfl⟩ := List.mem_map.mp hq
  exact .inl ⟨c, rfl⟩

/-- Pieces without an overlong form are the encodings of characters. -/
theorem wellFormed_of_cut {qs : List (List UInt8)} {s : List UInt8} (hcut : CutInto qs s)
    (hshort : ∀ q ∈ qs, ¬ Overlong q) : WellFormed s := by
  obtain ⟨hqs, rfl⟩ := hcut
  induction qs with
  | nil => exact ⟨[], rfl⟩
  | cons q qs ih =>
      obtain ⟨cs, hcs⟩ := ih (fun u hu => hshort u (by simp [hu])) (fun u hu => hqs u (by simp [hu]))
      rcases hqs q (by simp) with ⟨c, rfl⟩ | hover
      · exact ⟨c :: cs, by rw [List.flatten_cons, hcs, List.flatMap_cons]⟩
      · exact absurd hover (hshort q (by simp))

/-- A well-formed text is cut into encodings only. -/
theorem not_overlong_of_wellFormed {qs : List (List UInt8)} {s : List UInt8} (h : WellFormed s)
    (hcut : CutInto qs s) : ∀ q ∈ qs, ¬ Overlong q := by
  obtain ⟨cs, rfl⟩ := h
  obtain ⟨hqs, hflat⟩ := hcut
  have hmap : cs.map String.utf8EncodeChar = qs := by
    refine SelfDelimiting.flatten_inj ?_ (fun q hq => piece_selfDelimiting (hqs q hq)) hflat
    intro q hq
    obtain ⟨c, _, rfl⟩ := List.mem_map.mp hq
    exact piece_selfDelimiting (.inl ⟨c, rfl⟩)
  intro q hq
  rw [← hmap] at hq
  obtain ⟨c, _, rfl⟩ := List.mem_map.mp hq
  exact not_overlong_utf8EncodeChar c

/-- **Validation is exact** on the texts that are not cut into encodings
and overlong forms with an overlong form among them, and on no others. -/
theorem isValid_exact_iff (s : List UInt8) :
    (isValid s = true ↔ WellFormed s) ↔ ¬ ∃ qs, CutInto qs s ∧ ∃ q ∈ qs, Overlong q := by
  constructor
  · rintro h ⟨qs, hcut, q, hq, hover⟩
    have hwell := h.mp ((isValid_iff_pieces s).mpr ⟨qs, hcut⟩)
    exact not_overlong_of_wellFormed hwell hcut q hq hover
  · intro h
    refine ⟨fun hvalid => ?_, isValid_of_wellFormed⟩
    obtain ⟨qs, hcut⟩ := (isValid_iff_pieces s).mp hvalid
    exact wellFormed_of_cut hcut fun q hq hover => h ⟨qs, hcut, q, hq, hover⟩

/-- `E0 80 80`, the zero character in three bytes, is accepted. -/
theorem isValid_overlong_zero :
    ¬ (isValid [0xE0, 0x80, 0x80] = true ↔ WellFormed [0xE0, 0x80, 0x80]) := by
  intro h
  have hcut : CutInto [[0xE0, 0x80, 0x80]] [0xE0, 0x80, 0x80] := by
    refine ⟨?_, rfl⟩
    intro q hq
    rw [List.mem_singleton.mp hq]
    exact .inr (.inl ⟨0, by decide, rfl⟩)
  exact not_overlong_of_wellFormed (h.mp (by decide)) hcut [0xE0, 0x80, 0x80] (by simp)
    (.inl ⟨0, by decide, rfl⟩)

end HighJump.Encoding.Utf8
