/-
HighJump.Util.WideStringTheorems — when a conversion depends on the view
only.

The two calls of an implementation agree, so its result is what the first
one finds (`convertImpl_eq`): the text up to the first terminator in the
memory behind the pointer. That is the view only where the terminator
follows it, and the difference shows but in one case, a view that is not
valid with more behind it that is not valid either.
-/
import HighJump.Util.WideString

namespace HighJump.Util.WideString

open HighJump.Lib

/-! ## One view -/

theorem chars_append_following {α : Type} (v : View α) : v.chars ++ v.following = v.memory :=
  List.take_append_drop v.size v.memory

theorem chars_length {α : Type} (v : View α) : v.chars.length = v.size := by
  have hwithin := v.within
  rw [View.chars, View.memory, List.length_take, List.length_drop]
  omega

section

variable {σ α β : Type} [DecidableEq α] [OfNat α 0] [OfNat β 0] {C : Converter σ α β} {v : View α}

/-- The second call puts out what the first one counted. -/
theorem convertImpl_eq (hsize : v.size ≠ 0) : convertImpl C v =
    match C.call none v.memory C.start [] with
    | .overrun => none
    | .failed => some none
    | .done out => some (some out) := by
  rw [convertImpl, if_neg hsize]
  cases h : C.call none v.memory C.start [] with
  | overrun => rfl
  | failed => rfl
  | done out =>
    simp only [Converter.call_limit _ _ _ _ h]
    rw [Nat.sub_self, List.replicate_zero, List.append_nil]

/-- The view is empty, or the terminator follows it; or it is not valid as
it stands, and neither is the text that is found in its place. -/
def Meets (C : Converter σ α β) (v : View α) : Prop :=
  v.size = 0 ∨ v.following.head? = some 0 ∨ C.convert v.chars = none ∧ C.Rejects v.memory

/-- Behind a view without terminators there is one, or there is not, but
something else first; or nothing at all. -/
theorem memory_cases (hzero : 0 ∉ v.chars) (hnext : v.following.head? ≠ some 0) :
    0 ∉ v.memory ∨ ∃ more rest, more ≠ [] ∧ 0 ∉ v.chars ++ more ∧
      v.memory = (v.chars ++ more) ++ 0 :: rest := by
  rcases Converter.text_or_not v.following with ⟨more, rest, heq, hmore⟩ | hnone
  · refine Or.inr ⟨more, rest, ?_, ?_, ?_⟩
    · rintro rfl
      rw [heq] at hnext
      exact hnext rfl
    · exact fun h => (List.mem_append.mp h).elim hzero hmore
    · rw [← chars_append_following, heq, List.append_assoc]
  · rw [← chars_append_following]
    exact Or.inl fun h => (List.mem_append.mp h).elim hzero hnone

/-- A conversion is that of the characters of the view exactly under its
condition. -/
theorem convertImpl_iff (hC : C.Grows) (hzero : 0 ∉ v.chars) :
    convertImpl C v = some (C.convert v.chars) ↔ Meets C v := by
  by_cases hsize : v.size = 0
  · have hnil : v.chars = [] := List.eq_nil_of_length_eq_zero ((chars_length v).trans hsize)
    rw [convertImpl, if_pos hsize, hnil, hC.convert_nil]
    exact iff_of_true rfl (Or.inl hsize)
  · rw [convertImpl_eq hsize]
    by_cases hnext : v.following.head? = some 0
    · refine iff_of_true ?_ (Or.inr (Or.inl hnext))
      obtain ⟨rest, hrest⟩ : ∃ rest, v.following = 0 :: rest :=
        ⟨_, (List.cons_head?_tail (Option.mem_def.mpr hnext)).symm⟩
      rw [← chars_append_following, hrest, Converter.call_start _ _ hzero]
      cases C.convert v.chars <;> rfl
    · have hmeets : Meets C v ↔ C.convert v.chars = none ∧ C.Rejects v.memory :=
        (or_iff_right hsize).trans (or_iff_right hnext)
      rw [hmeets, ← Converter.call_failed_iff]
      constructor
      · intro h
        cases hcall : C.call none v.memory C.start [] with
        | overrun =>
          rw [hcall] at h
          cases h
        | failed =>
          rw [hcall] at h
          exact ⟨(Option.some.inj h).symm, rfl⟩
        | done out =>
          -- a longer text was converted, to something longer
          rw [hcall] at h
          have hview : C.convert v.chars = some out := (Option.some.inj h).symm
          rcases memory_cases hzero hnext with hnone | ⟨more, rest, hmore, hplain, hmem⟩
          · rw [Converter.call_overrun _ _ _ hnone] at hcall
            cases hrun : C.run C.start v.memory <;> rw [hrun] at hcall <;> cases hcall
          · rw [hmem, Converter.call_start _ _ hplain] at hcall
            cases hconv : C.convert (v.chars ++ more) with
            | none =>
              rw [hconv] at hcall
              cases hcall
            | some out' =>
              rw [hconv] at hcall
              obtain rfl := Converted.done.inj hcall
              exact absurd (hC.longer _ _ _ _ hmore hplain hview hconv) (Nat.lt_irrefl _)
      · rintro ⟨hconv, hfailed⟩
        rw [hfailed, hconv]

/-- Two views with the same characters. -/
theorem convertImpl_agree (hC : C.Grows) {a b : View α} (hsame : a.chars = b.chars)
    (hzero : 0 ∉ a.chars) :
    (convertImpl C a = convertImpl C b ∧ convertImpl C a = some (C.convert a.chars)) ↔
      Meets C a ∧ Meets C b := by
  rw [← convertImpl_iff hC hzero, ← convertImpl_iff hC (hsame ▸ hzero), ← hsame]
  constructor
  · rintro ⟨heq, ha⟩
    exact ⟨ha, heq ▸ ha⟩
  · rintro ⟨ha, hb⟩
    exact ⟨ha.trans hb.symm, ha⟩

end

/-! ## Both directions -/

variable {σ τ : Type}

/-- Views with the same characters are converted to the same, the
conversion of these characters, exactly if each of them meets the
condition. -/
theorem views_agree_iff (mb : Converter σ UInt8 UInt32) (wc : Converter τ UInt32 UInt8)
    (hmb : mb.Grows) (hwc : wc.Grows) :
    (∀ a b : View UInt8, a.chars = b.chars → 0 ∉ a.chars →
      ((toWstring mb a = toWstring mb b ∧ toWstring mb a = some (mb.convert a.chars)) ↔
        Meets mb a ∧ Meets mb b)) ∧
    (∀ a b : View UInt32, a.chars = b.chars → 0 ∉ a.chars →
      ((fromWstring wc a = fromWstring wc b ∧ fromWstring wc a = some (wc.convert a.chars)) ↔
        Meets wc a ∧ Meets wc b)) :=
  ⟨fun _ _ hsame hzero => convertImpl_agree hmb hsame hzero,
    fun _ _ hsame hzero => convertImpl_agree hwc hsame hzero⟩

/-- The characters below 128, which are the same in both encodings. -/
def asciiMb : Converter Unit UInt8 UInt32 :=
  .single fun c => if c < 128 then some c.toUInt32 else none

def asciiWc : Converter Unit UInt32 UInt8 :=
  .single fun c => if c < 128 then some c.toUInt8 else none

/-- `"ab"` with its terminator, and the same in the middle of `"xabc"`. -/
theorem views_agree_iff_ascii :
    ((toWstring asciiMb ⟨[97, 98, 0], 0, 2, by decide⟩ =
          toWstring asciiMb ⟨[120, 97, 98, 99, 0], 1, 2, by decide⟩ ∧
        toWstring asciiMb ⟨[97, 98, 0], 0, 2, by decide⟩ = some (asciiMb.convert [97, 98])) ↔
      Meets asciiMb ⟨[97, 98, 0], 0, 2, by decide⟩ ∧
        Meets asciiMb ⟨[120, 97, 98, 99, 0], 1, 2, by decide⟩) ∧
    ((fromWstring asciiWc ⟨[97, 98, 0], 0, 2, by decide⟩ =
          fromWstring asciiWc ⟨[120, 97, 98, 99, 0], 1, 2, by decide⟩ ∧
        fromWstring asciiWc ⟨[97, 98, 0], 0, 2, by decide⟩ = some (asciiWc.convert [97, 98])) ↔
      Meets asciiWc ⟨[97, 98, 0], 0, 2, by decide⟩ ∧
        Meets asciiWc ⟨[120, 97, 98, 99, 0], 1, 2, by decide⟩) :=
  have h := views_agree_iff asciiMb asciiWc (Converter.single_grows _) (Converter.single_grows _)
  ⟨h.1 _ _ (by decide) (by decide), h.2 _ _ (by decide) (by decide)⟩

/-- The view of `"ab"` in `"abc"` is converted to `"abc"`. -/
theorem views_disagree : ¬ ∀ (mb : Converter Unit UInt8 UInt32) (wc : Converter Unit UInt32 UInt8),
    mb.Grows → wc.Grows →
    (∀ a b : View UInt8, a.chars = b.chars → 0 ∉ a.chars →
      toWstring mb a = toWstring mb b ∧ toWstring mb a = some (mb.convert a.chars)) ∧
    (∀ a b : View UInt32, a.chars = b.chars → 0 ∉ a.chars →
      fromWstring wc a = fromWstring wc b ∧ fromWstring wc a = some (wc.convert a.chars)) := by
  intro h
  have hview := (h asciiMb asciiWc (Converter.single_grows _) (Converter.single_grows _)).1
    ⟨[97, 98, 99, 0], 0, 2, by decide⟩ ⟨[97, 98, 0], 0, 2, by decide⟩ (by decide) (by decide)
  exact absurd hview.1 (by decide)

end HighJump.Util.WideString
