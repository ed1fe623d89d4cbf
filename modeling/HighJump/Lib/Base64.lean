/-
HighJump.Lib.Base64 — the base64 encoding of RFC 4648, section 4.

Three bytes are four sextets; a last group of one or two bytes is filled
with zero bits to two or three sextets, and the text is filled with `'='`
to a multiple of four. The zero bits that fill the last sextet are the
only ones a reader may find set: `ShapeOf x s` says that `s` is the
encoding of `x` up to these, and `grammar_iff_shapeOf` that the texts of
such a shape are the non-empty ones of a length divisible by four in which
at most two `'='` follow characters of the alphabet.
-/
import HighJump.Lib.Memory
import Mathlib.Algebra.Ring.Nat
import Mathlib.Data.List.GetD
import Mathlib.Data.Nat.Init

namespace HighJump.Lib.Base64

/-- The alphabet: `A`-`Z`, `a`-`z`, `0`-`9`, `+`, `/`. -/
def alphabet : List UInt8 :=
  (List.range' 0x41 26 ++ List.range' 0x61 26 ++ List.range' 0x30 10 ++ [0x2B, 0x2F]).map .ofNat

/-- The character of a sextet. -/
def char (v : Nat) : UInt8 := alphabet.getD v 0

/-- `'='` -/
def pad : UInt8 := 0x3D

/-- The sextets of a byte string. -/
def sextets : List UInt8 → List Nat
  | [] => []
  | [a] => [a.toNat / 4, a.toNat % 4 * 16]
  | [a, b] => [a.toNat / 4, a.toNat % 4 * 16 + b.toNat / 16, b.toNat % 16 * 4]
  | a :: b :: c :: rest =>
      a.toNat / 4 :: (a.toNat % 4 * 16 + b.toNat / 16) :: (b.toNat % 16 * 4 + c.toNat / 64) ::
        c.toNat % 64 :: sextets rest

/-- The number of `'='` behind the sextets of `n` bytes. -/
def padding (n : Nat) : Nat := (3 - n % 3) % 3

def encode (x : List UInt8) : List UInt8 :=
  (sextets x).map char ++ List.replicate (padding x.length) pad

/-- A non-empty text of a length divisible by four: characters of the
alphabet, then at most two `'='`. -/
def Grammar (s : List UInt8) : Prop :=
  s ≠ [] ∧ s.length % 4 = 0 ∧
    ∃ t k, k ≤ 2 ∧ (∀ c ∈ t, c ∈ alphabet) ∧ s = t ++ List.replicate k pad

/-- `s` is the encoding of `x` up to the unused low bits of the last
character, which are two for each `'='`. -/
def ShapeOf (x s : List UInt8) : Prop :=
  ∃ front v w, sextets x = front ++ [v] ∧ w < 64 ∧
    w / 4 ^ padding x.length = v / 4 ^ padding x.length ∧
    s = (front ++ [w]).map char ++ List.replicate (padding x.length) pad

/-! ## The alphabet -/

theorem mem_alphabet_iff (c : UInt8) : c ∈ alphabet ↔ ∃ v < 64, c = char v := by
  rw [List.mem_iff_getElem]
  constructor
  · rintro ⟨v, hv, rfl⟩
    exact ⟨v, hv, (List.getD_eq_getElem alphabet 0 hv).symm⟩
  · rintro ⟨v, hv, rfl⟩
    exact ⟨v, hv, (List.getD_eq_getElem alphabet 0 hv).symm⟩

theorem char_mem_alphabet {v : Nat} (hv : v < 64) : char v ∈ alphabet :=
  (mem_alphabet_iff _).mpr ⟨v, hv, rfl⟩

theorem pad_notMem_alphabet : pad ∉ alphabet := by decide

/-- A text over the alphabet is a list of sextets. -/
theorem exists_sextets {t : List UInt8} (ht : ∀ c ∈ t, c ∈ alphabet) :
    ∃ vs : List Nat, (∀ v ∈ vs, v < 64) ∧ t = vs.map char := by
  induction t with
  | nil => exact ⟨[], by simp⟩
  | cons c t ih =>
      obtain ⟨vs, hvs, rfl⟩ := ih fun d hd => ht d (by simp [hd])
      obtain ⟨v, hv, rfl⟩ := (mem_alphabet_iff c).mp (ht c (by simp))
      refine ⟨v :: vs, ?_, rfl⟩
      rintro u (_ | ⟨_, hu⟩)
      · exact hv
      · exact hvs u hu

/-! ## Sextets -/

theorem sextets_lt (x : List UInt8) : ∀ v ∈ sextets x, v < 64 := by
  induction x using sextets.induct with
  | case1 => simp [sextets]
  | case2 a =>
      have ha : a.toNat < 256 := a.toNat_lt
      simp only [sextets, List.mem_cons, List.not_mem_nil, or_false]
      rintro v (rfl | rfl) <;> omega
  | case3 a b =>
      have ha : a.toNat < 256 := a.toNat_lt
      have hb : b.toNat < 256 := b.toNat_lt
      simp only [sextets, List.mem_cons, List.not_mem_nil, or_false]
      rintro v (rfl | rfl | rfl) <;> omega
  | case4 a b c rest ih =>
      have ha : a.toNat < 256 := a.toNat_lt
      have hb : b.toNat < 256 := b.toNat_lt
      have hc : c.toNat < 256 := c.toNat_lt
      simp only [sextets, List.mem_cons]
      rintro v (rfl | rfl | rfl | rfl | hv)
      · omega
      · omega
      · omega
      · omega
      · exact ih v hv

/-- Sextets and padding fill the groups of four. -/
theorem length_sextets (x : List UInt8) :
    (sextets x).length + padding x.length = 4 * ((x.length + 2) / 3) := by
  induction x using sextets.induct with
  | case1 => rfl
  | case2 a => simp [sextets, padding]
  | case3 a b => simp [sextets, padding]
  | case4 a b c rest ih =>
      simp only [sextets, padding, List.length_cons] at ih ⊢
      omega

theorem length_encode (x : List UInt8) : (encode x).length = 4 * ((x.length + 2) / 3) := by
  rw [encode, List.length_append, List.length_map, List.length_replicate, length_sextets]

/-! ## The shapes of encodings -/

/-- Sextets that stand for `x`, up to the unused bits of the last. -/
def Fits (vs : List Nat) (x : List UInt8) : Prop :=
  ∃ front v w, sextets x = front ++ [v] ∧ w / 4 ^ padding x.length = v / 4 ^ padding x.length ∧
    vs = front ++ [w]

/-- The three bytes four sextets make. -/
theorem toNat_first {a b : Nat} (ha : a < 64) (hb : b < 64) :
    (UInt8.ofNat (a * 4 + b / 16)).toNat = a * 4 + b / 16 := toNat_byte (by omega)

theorem toNat_second {b c : Nat} (hc : c < 64) :
    (UInt8.ofNat (b % 16 * 16 + c / 4)).toNat = b % 16 * 16 + c / 4 := toNat_byte (by omega)

theorem toNat_third {c d : Nat} (hd : d < 64) :
    (UInt8.ofNat (c % 4 * 64 + d)).toNat = c % 4 * 64 + d := toNat_byte (by omega)

/-- Four sextets in front are three bytes in front. -/
theorem Fits.group {vs : List Nat} {x : List UInt8} (h : Fits vs x) {a b c d : Nat} (ha : a < 64)
    (hb : b < 64) (hc : c < 64) (hd : d < 64) :
    ∃ p q r : UInt8, Fits (a :: b :: c :: d :: vs) (p :: q :: r :: x) := by
  obtain ⟨front, v, w, hx, hw, rfl⟩ := h
  have hp := toNat_first ha hb
  have hq := toNat_second (b := b) hc
  have hr := toNat_third (c := c) hd
  refine ⟨.ofNat (a * 4 + b / 16), .ofNat (b % 16 * 16 + c / 4), .ofNat (c % 4 * 64 + d),
    a :: b :: c :: d :: front, v, w, ?_, ?_, rfl⟩
  · rw [sextets, hp, hq, hr, hx, List.cons_append, List.cons_append, List.cons_append,
      List.cons_append]
    congr 1
    · omega
    congr 1
    · omega
    congr 1
    · omega
    congr 1
    omega
  · have hpad : padding (x.length + 1 + 1 + 1) = padding x.length := by
      simp only [padding]
      omega
    rw [List.length_cons, List.length_cons, List.length_cons, hpad, hw]

/-- A last group of two, three or four sextets. -/
theorem exists_fits_last {vs : List Nat} (hvs : ∀ v ∈ vs, v < 64) (h2 : 2 ≤ vs.length)
    (h4 : vs.length ≤ 4) :
    ∃ x, Fits vs x ∧ padding x.length = 4 - vs.length := by
  match vs, hvs with
  | [a, b], hvs =>
      have ha : a < 64 := hvs a (by simp)
      have hb : b < 64 := hvs b (by simp)
      have hp := toNat_first ha hb
      refine ⟨[.ofNat (a * 4 + b / 16)], ⟨[a], b / 16 * 16, b, ?_, ?_, rfl⟩, rfl⟩
      · simp only [sextets, hp, List.cons_append, List.nil_append, List.cons.injEq, and_true]
        omega
      · change b / 4 ^ 2 = b / 16 * 16 / 4 ^ 2
        omega
  | [a, b, c], hvs =>
      have ha : a < 64 := hvs a (by simp)
      have hb : b < 64 := hvs b (by simp)
      have hc : c < 64 := hvs c (by simp)
      have hp := toNat_first ha hb
      have hq := toNat_second (b := b) hc
      refine ⟨[.ofNat (a * 4 + b / 16), .ofNat (b % 16 * 16 + c / 4)],
        ⟨[a, b], c / 4 * 4, c, ?_, ?_, rfl⟩, rfl⟩
      · simp only [sextets, hp, hq, List.cons_append, List.nil_append, List.cons.injEq, and_true]
        omega
      · change c / 4 ^ 1 = c / 4 * 4 / 4 ^ 1
        omega
  | [a, b, c, d], hvs =>
      have ha : a < 64 := hvs a (by simp)
      have hb : b < 64 := hvs b (by simp)
      have hc : c < 64 := hvs c (by simp)
      have hd : d < 64 := hvs d (by simp)
      have hp := toNat_first ha hb
      have hq := toNat_second (b := b) hc
      have hr := toNat_third (c := c) hd
      refine ⟨[.ofNat (a * 4 + b / 16), .ofNat (b % 16 * 16 + c / 4), .ofNat (c % 4 * 64 + d)],
        ⟨[a, b, c], d, d, ?_, rfl, rfl⟩, by simp [padding]⟩
      simp only [sextets, hp, hq, hr, List.cons_append, List.nil_append, List.cons.injEq, and_true]
      omega

/-- Sextets that leave no single one over stand for some bytes. -/
theorem exists_fits {vs : List Nat} (hvs : ∀ v ∈ vs, v < 64) (h2 : 2 ≤ vs.length)
    (h1 : vs.length % 4 ≠ 1) :
    ∃ x, Fits vs x ∧ padding x.length = (4 - vs.length % 4) % 4 := by
  -- a group of four at a time
  induction hn : vs.length using Nat.strong_induction_on generalizing vs with
  | _ n ih =>
      by_cases h4 : vs.length ≤ 4
      · obtain ⟨x, hx, hpad⟩ := exists_fits_last hvs h2 h4
        exact ⟨x, hx, by omega⟩
      rcases vs with _ | ⟨a, _ | ⟨b, _ | ⟨c, _ | ⟨d, vs⟩⟩⟩⟩
      all_goals simp only [List.length_nil, List.length_cons] at h1 h4 hn
      any_goals omega
      obtain ⟨x, hx, hpad⟩ := ih vs.length (by omega) (fun v hv => hvs v (by simp [hv]))
        (by omega) (by omega) rfl
      obtain ⟨p, q, r, hfits⟩ := hx.group (hvs a (by simp)) (hvs b (by simp)) (hvs c (by simp))
        (hvs d (by simp))
      refine ⟨p :: q :: r :: x, hfits, ?_⟩
      simp only [padding, List.length_cons] at hpad ⊢
      omega

/-- **The grammar is that of the encodings.** -/
theorem grammar_iff_shapeOf (s : List UInt8) : Grammar s ↔ ∃ x, x ≠ [] ∧ ShapeOf x s := by
  constructor
  · rintro ⟨hne, hlen, t, k, hk, ht, rfl⟩
    obtain ⟨vs, hvs, rfl⟩ := exists_sextets ht
    rw [List.length_append, List.length_map, List.length_replicate] at hlen
    have hpos : 0 < vs.length + k := by
      rw [Nat.pos_iff_ne_zero]
      intro h
      obtain ⟨hv, rfl⟩ := Nat.add_eq_zero_iff.mp h
      rw [List.eq_nil_of_length_eq_zero hv] at hne
      exact hne rfl
    obtain ⟨x, ⟨front, v, w, hx, hw, rfl⟩, hpad⟩ := exists_fits hvs (by omega) (by omega)
    have hk' : k = padding x.length := by omega
    refine ⟨x, ?_, front, v, w, hx, hvs w (by simp), hw, by rw [hk']⟩
    rintro rfl
    simp [sextets] at hx
  · rintro ⟨x, -, front, v, w, hx, hw, -, rfl⟩
    have hlen := length_sextets x
    rw [hx, List.length_append, List.length_singleton] at hlen
    refine ⟨by simp, ?_, (front ++ [w]).map char, padding x.length, ?_, ?_, rfl⟩
    · simp only [List.length_append, List.length_map, List.length_replicate, List.length_singleton]
      omega
    · rw [padding]
      omega
    · intro c hc
      obtain ⟨u, hu, rfl⟩ := List.mem_map.mp hc
      refine char_mem_alphabet ?_
      rcases List.mem_append.mp hu with hu | hu
      · exact sextets_lt x u (by simp [hx, hu])
      · rw [List.mem_singleton.mp hu]
        exact hw

/-! ## Decoding -/

/-- The sextet of a character of the alphabet. -/
def value (c : UInt8) : Nat := alphabet.idxOf c

/-- The bytes of groups of four sextets, the last of which may lack one
or two. -/
def bytes : List Nat → List UInt8
  | a :: b :: c :: d :: rest =>
      .ofNat (a * 4 + b / 16) :: .ofNat (b % 16 * 16 + c / 4) :: .ofNat (c % 4 * 64 + d) ::
        bytes rest
  | [a, b, c] => [.ofNat (a * 4 + b / 16), .ofNat (b % 16 * 16 + c / 4)]
  | [a, b] => [.ofNat (a * 4 + b / 16)]
  | _ => []

def decode (s : List UInt8) : List UInt8 := bytes ((s.filter (· ≠ pad)).map value)

theorem value_char {v : Nat} (hv : v < 64) : value (char v) = v := by
  have hall : ∀ v < 64, value (char v) = v := by decide
  exact hall v hv

theorem ofNat_toNat_eq {n : Nat} {a : UInt8} (h : n = a.toNat) : UInt8.ofNat n = a := by
  rw [h, UInt8.ofNat_toNat]

theorem bytes_sextets (x : List UInt8) : bytes (sextets x) = x := by
  induction x using sextets.induct with
  | case1 => rfl
  | case2 a =>
    have ha : a.toNat / 4 * 4 + a.toNat % 4 * 16 / 16 = a.toNat := by omega
    simp only [sextets, bytes, ofNat_toNat_eq ha]
  | case3 a b =>
    have hb := b.toNat_lt
    have h₁ : a.toNat / 4 * 4 + (a.toNat % 4 * 16 + b.toNat / 16) / 16 = a.toNat := by omega
    have h₂ : (a.toNat % 4 * 16 + b.toNat / 16) % 16 * 16 + b.toNat % 16 * 4 / 4 = b.toNat := by
      omega
    simp only [sextets, bytes, ofNat_toNat_eq h₁, ofNat_toNat_eq h₂]
  | case4 a b c rest ih =>
    have hb := b.toNat_lt
    have hc := c.toNat_lt
    have h₁ : a.toNat / 4 * 4 + (a.toNat % 4 * 16 + b.toNat / 16) / 16 = a.toNat := by omega
    have h₂ : (a.toNat % 4 * 16 + b.toNat / 16) % 16 * 16
        + (b.toNat % 16 * 4 + c.toNat / 64) / 4 = b.toNat := by omega
    have h₃ : (b.toNat % 16 * 4 + c.toNat / 64) % 4 * 64 + c.toNat % 64 = c.toNat := by omega
    simp only [sextets, bytes, ofNat_toNat_eq h₁, ofNat_toNat_eq h₂, ofNat_toNat_eq h₃, ih]

theorem decode_encode (x : List UInt8) : decode (encode x) = x := by
  have hkept : ((sextets x).map char).filter (· ≠ pad) = (sextets x).map char := by
    rw [List.filter_eq_self]
    intro c hc
    obtain ⟨v, hv, rfl⟩ := List.mem_map.1 hc
    have hmem := char_mem_alphabet (sextets_lt x v hv)
    exact decide_eq_true fun hpad => pad_notMem_alphabet (hpad ▸ hmem)
  have hgone : (List.replicate (padding x.length) pad).filter (· ≠ pad) = [] := by simp
  have hvalues : ((sextets x).map char).map value = sextets x := by
    rw [List.map_map]
    refine (List.map_congr_left fun v hv => ?_).trans (List.map_id _)
    exact value_char (sextets_lt x v hv)
  rw [decode, encode, List.filter_append, hkept, hgone, List.append_nil, hvalues, bytes_sextets]

end HighJump.Lib.Base64
