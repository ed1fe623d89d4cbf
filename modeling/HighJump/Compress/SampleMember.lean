/-
HighJump.Compress.SampleMember — one real gzip member, and a format
around it.

`aMember` is what `deflate` makes of the one-byte string `a`: header,
one block of fixed codes, checksum and length. `sampleFormat` reads it as
`inflate` does, byte by byte: the `a` is determined by the first twelve
bytes, the member is complete with the twenty-first. Every other content
has a plain encoding (1 before each byte, 0 at the end), so that the
contracts of `Lib/Zlib` are met on all inputs and are the real thing on
this one.
-/
import HighJump.Lib.Zlib

namespace HighJump.Compress.Gzip

open HighJump.Lib HighJump.Lib.Zlib

/-! ## The plain encoding -/

/-- Status and output of a plainly encoded string. -/
def plainParse : Bytes → Status × Bytes
  | [] => (.more, [])
  | [c] => if c = 0 then (.done, []) else if c = 1 then (.more, []) else (.bad, [])
  | c :: b :: s =>
      if c = 0 then (.done, [])
      else if c = 1 then ((plainParse s).1, b :: (plainParse s).2)
      else (.bad, [])

/-- The plain encoding. -/
def plainEnc : Bytes → Bytes
  | [] => [0]
  | b :: x => 1 :: b :: plainEnc x

theorem plainParse_mono : ∀ s t : Bytes, (plainParse s).2 <+: (plainParse (s ++ t)).2
  | [], t => List.nil_prefix
  | [c], t => by
      have hnil : (plainParse [c]).2 = [] := by
        unfold plainParse
        split
        · rfl
        · split <;> rfl
      rw [hnil]
      exact List.nil_prefix
  | c :: b :: s, t => by
      have ih := plainParse_mono s t
      simp only [List.cons_append, plainParse]
      split
      · exact List.prefix_refl _
      · split
        · exact List.cons_prefix_cons.mpr ⟨rfl, ih⟩
        · exact List.prefix_refl _

theorem plainParse_stable : ∀ s t : Bytes, (plainParse s).1 ≠ .more →
    plainParse (s ++ t) = plainParse s
  | [], t, h => absurd rfl h
  | [c], t, h => by
      cases t with
      | nil => rfl
      | cons b t =>
        simp only [List.cons_append, List.nil_append, plainParse] at h ⊢
        by_cases h0 : c = 0
        · simp [h0]
        · by_cases h1 : c = 1
          · simp [h1] at h
          · simp [h0, h1]
  | c :: b :: s, t, h => by
      simp only [List.cons_append, plainParse] at h ⊢
      by_cases h0 : c = 0
      · simp [h0]
      · by_cases h1 : c = 1
        · subst h1
          simp only [if_true] at h ⊢
          have h1 : ¬ (1 : UInt8) = 0 := by decide
          simp only [h1, if_false] at h ⊢
          rw [plainParse_stable s t h]
        · simp [h0, h1]

theorem plainParse_plainEnc (x : Bytes) : plainParse (plainEnc x) = (.done, x) := by
  induction x with
  | nil => rfl
  | cons b x ih => simp [plainEnc, plainParse, ih]

theorem plainParse_isPrefix (x : Bytes) : ∀ p : Bytes, p <+: plainEnc x → p ≠ plainEnc x →
    (plainParse p).1 = .more := by
  induction x with
  | nil =>
    intro p hp hne
    cases p with
    | nil => rfl
    | cons c p =>
      obtain ⟨rfl, hp'⟩ := List.cons_prefix_cons.mp hp
      rw [List.prefix_nil.mp hp'] at hne
      exact absurd rfl hne
  | cons b x ih =>
    intro p hp hne
    match p with
    | [] => rfl
    | [c] =>
      obtain ⟨rfl, -⟩ := List.cons_prefix_cons.mp hp
      rfl
    | c :: b' :: p =>
      obtain ⟨rfl, hp'⟩ := List.cons_prefix_cons.mp hp
      obtain ⟨rfl, hp''⟩ := List.cons_prefix_cons.mp hp'
      exact ih p hp'' fun heq => hne (by rw [heq]; rfl)

theorem length_plainEnc (x : Bytes) : (plainEnc x).length = 2 * x.length + 1 := by
  induction x with
  | nil => rfl
  | cons b x ih => simp only [plainEnc, List.length_cons, ih]; omega

/-! ## The member of `a` -/

/-- `gzip` of the string `a`. -/
def aMember : Bytes :=
  [0x1f, 0x8b, 0x08, 0x00, 0x00, 0x00, 0x00, 0x00, 0x00, 0x03, 0x4b, 0x04, 0x00, 0x43, 0xbe, 0xb7,
    0xe8, 0x01, 0x00, 0x00, 0x00]

/-- The part of it that determines the content. -/
def aStart : Bytes := aMember.take 12

/-- Status and output of a string that begins like it. -/
def aParse (s : Bytes) : Status × Bytes :=
  (if aMember <+: s then .done else if s <+: aMember then .more else .bad,
    if aStart <+: s then [0x61] else [])

theorem aStart_isPrefix : aStart <+: aMember := List.take_prefix _ _

theorem aParse_mono (s t : Bytes) : (aParse s).2 <+: (aParse (s ++ t)).2 := by
  unfold aParse
  by_cases h : aStart <+: s
  · have h' : aStart <+: s ++ t := h.trans (List.prefix_append _ _)
    simp [h, h']
  · simp [h]

theorem aParse_stable (s t : Bytes) (h : (aParse s).1 ≠ .more) : aParse (s ++ t) = aParse s := by
  have hs : s <+: s ++ t := List.prefix_append _ _
  unfold aParse at h ⊢
  by_cases hdone : aMember <+: s
  · simp [hdone, hdone.trans hs, aStart_isPrefix.trans hdone, (aStart_isPrefix.trans hdone).trans hs]
  · have hbad : ¬ s <+: aMember := by
      intro hmore
      simp [hdone, hmore] at h
    have hcmp : ∀ u, u <+: aMember → u <+: s ++ t → u <+: s := by
      intro u hu hut
      rcases List.prefix_or_prefix_of_prefix hut hs with h1 | h1
      · exact h1
      · exact absurd (h1.trans hu) hbad
    have hdone' : ¬ aMember <+: s ++ t := fun h1 => hdone (hcmp _ (List.prefix_refl _) h1)
    have hbad' : ¬ s ++ t <+: aMember := fun h1 => hbad (hs.trans h1)
    have hstart : aStart <+: s ++ t ↔ aStart <+: s :=
      ⟨hcmp _ aStart_isPrefix, fun h1 => h1.trans hs⟩
    simp [hdone, hbad, hdone', hbad', hstart]

/-! ## Both together -/

/-- A string that begins with the first byte of `aMember` is read as it,
any other plainly. -/
def sampleParse (s : Bytes) : Status × Bytes :=
  if s.head? = some 0x1f then aParse s else plainParse s

theorem sampleParse_append {s t : Bytes} (h : s ≠ []) :
    sampleParse (s ++ t) = if s.head? = some 0x1f then aParse (s ++ t) else plainParse (s ++ t) := by
  unfold sampleParse
  rw [List.head?_append_of_ne_nil _ h]

theorem sampleParse_stable (s t : Bytes) (h : (sampleParse s).1 ≠ .more) :
    sampleParse (s ++ t) = sampleParse s := by
  have hne : s ≠ [] := by rintro rfl; exact h rfl
  rw [sampleParse_append hne]
  unfold sampleParse at h ⊢
  by_cases hh : s.head? = some 0x1f
  · rw [if_pos hh] at h
    rw [if_pos hh, if_pos hh, aParse_stable s t h]
  · rw [if_neg hh] at h
    rw [if_neg hh, if_neg hh, plainParse_stable s t h]

/-- A gzip format with the real member of `a`. -/
def sampleFormat : Format where
  status s := (sampleParse s).1
  dec s := (sampleParse s).2
  status_nil := rfl
  dec_nil := rfl
  dec_mono s t := by
    by_cases hne : s = []
    · rw [hne]; exact List.nil_prefix
    · rw [sampleParse_append hne]
      unfold sampleParse
      split
      · exact aParse_mono s t
      · exact plainParse_mono s t
  status_stable s t h := by rw [sampleParse_stable s t h]
  dec_stable s t h := by rw [sampleParse_stable s t h]

/-- Its encoder. -/
def sampleEnc (x : Bytes) : Bytes := if x = [0x61] then aMember else plainEnc x

theorem head_plainEnc_isPrefix {x p : Bytes} (h : p <+: plainEnc x) : p.head? ≠ some 0x1f := by
  cases p with
  | nil => simp
  | cons c p =>
    cases x with
    | nil =>
      obtain ⟨rfl, -⟩ := List.cons_prefix_cons.mp h
      simp
    | cons b x =>
      obtain ⟨rfl, -⟩ := List.cons_prefix_cons.mp h
      simp

theorem sampleEnc_member (x : Bytes) : sampleFormat.Member (sampleEnc x) x := by
  unfold sampleEnc
  by_cases hx : x = [0x61]
  · rw [if_pos hx, hx]
    refine ⟨rfl, rfl, fun p hp hne => ?_⟩
    have hno : ¬ aMember <+: p := fun h => hne (hp.eq_of_length_le h.length_le)
    simp only [sampleFormat, sampleParse]
    split
    · simp [aParse, hno, hp]
    · rename_i hhead
      cases p with
      | nil => rfl
      | cons c p =>
        obtain ⟨rfl, -⟩ := List.cons_prefix_cons.mp hp
        exact absurd rfl hhead
  · rw [if_neg hx]
    have hparse : sampleParse (plainEnc x) = (.done, x) := by
      rw [sampleParse, if_neg (head_plainEnc_isPrefix (List.prefix_refl _)), plainParse_plainEnc]
    refine ⟨congrArg Prod.fst hparse, congrArg Prod.snd hparse, fun p hp hne => ?_⟩
    simp only [sampleFormat, sampleParse]
    rw [if_neg (head_plainEnc_isPrefix hp)]
    exact plainParse_isPrefix x p hp hne

theorem length_sampleEnc (x : Bytes) (n : Nat) (h : x.length ≤ n) :
    (sampleEnc x).length ≤ 2 * n + 21 := by
  unfold sampleEnc
  split
  · have ha : aMember.length = 21 := rfl
    omega
  · rw [length_plainEnc]
    omega

/-- The codec of the format, with its contracts. -/
def sampleInflater : Inflater := idealInflater sampleFormat

def sampleInflater_contract : InflateContract sampleFormat sampleInflater :=
  idealInflater_contract sampleFormat

def sampleDeflater : Deflater := idealDeflater sampleEnc

def sampleDeflater_contract : DeflateContract sampleFormat sampleDeflater :=
  idealDeflater_contract sampleEnc_member (2 * · + 21) length_sampleEnc

end HighJump.Compress.Gzip
