/-
HighJump.Lib.Chunks — converting a variable-length code chunk by chunk.

Symbols are written as non-empty words of a code, and a converter reads
whole texts: it gives the values of a text that ends with a word and fails
on one that ends inside a word. A loop that cuts the text into chunks of
`n` units and converts each chunk on its own gives the same values exactly
when every cut falls between two words (`chunked_eq_iff`).
-/
import Mathlib.Data.List.Basic
import Mathlib.Tactic.Common
import Mathlib.Algebra.Ring.Nat

namespace HighJump.Lib

universe u v w

section Chunks

variable {α : Type u} {β : Type v} {γ : Type w} (code : α → List β) (value : α → γ)
  (conv : List β → Option (List γ))

/-- What a converter for a code does: complete texts are converted, a text
that ends inside a word is refused. -/
structure Converts : Prop where
  word_ne_nil : ∀ a, code a ≠ []
  complete : ∀ as : List α, conv (as.flatMap code) = some (as.map value)
  incomplete : ∀ (as : List α) a pre post, pre ≠ [] → post ≠ [] → pre ++ post = code a →
    conv (as.flatMap code ++ pre) = none

/-- Conversion in chunks of `n`, up to the first chunk that is refused. -/
def chunked (n : Nat) : Nat → List β → List γ
  | 0, _ => []
  | fuel + 1, bs =>
      if bs.isEmpty then []
      else
        match conv (bs.take n) with
        | none => []
        | some ws => ws ++ chunked n fuel (bs.drop n)

/-- The unit at `p` starts a word, or is the end. -/
def WordStart (as : List α) (p : Nat) : Prop := ∃ i, ((as.take i).flatMap code).length = p

/-- Every cut of the text into chunks of `n` falls between two words. -/
def CutsBetweenWords (n : Nat) (as : List α) : Prop :=
  ∀ k, n * k < (as.flatMap code).length → WordStart code as (n * k)

variable {code}

theorem flatMap_take_drop (as : List α) (i : Nat) :
    as.flatMap code = (as.take i).flatMap code ++ (as.drop i).flatMap code := by
  rw [← List.flatMap_append, List.take_append_drop]

/-- A position inside the text is the start of a word or splits one. -/
theorem wordStart_or_split (as : List α) :
    ∀ p, p < (as.flatMap code).length → WordStart code as p ∨
      ∃ i a pre post, pre ≠ [] ∧ post ≠ [] ∧ pre ++ post = code a ∧
        (as.flatMap code).take p = (as.take i).flatMap code ++ pre := by
  induction as with
  | nil => intro p hp; simp at hp
  | cons a as ih =>
      intro p hp
      rw [List.flatMap_cons, List.length_append] at hp
      by_cases hword : p < (code a).length
      · by_cases hzero : p = 0
        · exact .inl ⟨0, by simp [hzero]⟩
        · refine .inr ⟨0, a, (code a).take p, (code a).drop p, ?_, ?_, List.take_append_drop _ _, ?_⟩
          · intro hnil
            have hlen := congrArg List.length hnil
            rw [List.length_take, List.length_nil] at hlen
            omega
          · intro hnil
            have hlen := congrArg List.length hnil
            rw [List.length_drop, List.length_nil] at hlen
            omega
          · rw [List.flatMap_cons, List.take_append_of_le_length (by omega)]
            rfl
      · have hskip : ((a :: as).flatMap code).take p =
            code a ++ (as.flatMap code).take (p - (code a).length) := by
          rw [List.flatMap_cons, List.take_append, List.take_of_length_le (by omega)]
        rcases ih (p - (code a).length) (by omega) with ⟨i, hi⟩ | ⟨i, b, pre, post, h1, h2, h3, h4⟩
        · refine .inl ⟨i + 1, ?_⟩
          rw [List.take_succ_cons, List.flatMap_cons, List.length_append, hi]
          omega
        · refine .inr ⟨i + 1, b, pre, post, h1, h2, h3, ?_⟩
          rw [hskip, h4, List.take_succ_cons, List.flatMap_cons, List.append_assoc]

/-- Behind a cut between words the other cuts are those of the rest. -/
theorem cutsBetweenWords_drop {n : Nat} {as : List α} {i : Nat}
    (hcut : ((as.take i).flatMap code).length = n) :
    CutsBetweenWords code n as ↔ CutsBetweenWords code n (as.drop i) := by
  have hlen : (as.flatMap code).length = n + ((as.drop i).flatMap code).length := by
    rw [flatMap_take_drop as i, List.length_append, hcut]
  constructor
  · intro h k hk
    have hk' : n * (k + 1) < (as.flatMap code).length := by
      rw [hlen, Nat.mul_add, Nat.mul_one]
      omega
    obtain ⟨j, hj⟩ := h (k + 1) hk'
    rw [Nat.mul_add, Nat.mul_one] at hj
    refine ⟨j - i, ?_⟩
    rcases Nat.le_total i j with hij | hji
    · have hsplit : as.take j = as.take i ++ (as.drop i).take (j - i) := by
        rw [← List.take_add, Nat.add_sub_cancel' hij]
      rw [hsplit, List.flatMap_append, List.length_append, hcut] at hj
      omega
    · -- the words up to `j` are among the first `n` units
      have hsplit : as.take i = as.take j ++ (as.drop j).take (i - j) := by
        rw [← List.take_add, Nat.add_sub_cancel' hji]
      have hle := congrArg (fun l => (l.flatMap code).length) hsplit
      simp only [List.flatMap_append, List.length_append, hcut, hj] at hle
      rw [Nat.sub_eq_zero_of_le hji, List.take_zero]
      simp only [List.flatMap_nil, List.length_nil]
      omega
  · intro h k hk
    cases k with
    | zero => exact ⟨0, by simp⟩
    | succ k =>
        rw [Nat.mul_add, Nat.mul_one, hlen] at hk
        obtain ⟨j, hj⟩ := h k (by omega)
        refine ⟨i + j, ?_⟩
        rw [List.take_add, List.flatMap_append, List.length_append, hcut, hj, Nat.mul_add,
          Nat.mul_one, Nat.add_comm]

variable {value conv}

/-! ## One chunk -/

theorem chunked_nil (n fuel : Nat) : chunked conv n fuel [] = [] := by
  cases fuel <;> rfl

/-- A text that is one chunk is converted. -/
theorem chunked_last (hconv : Converts code value conv) {n fuel : Nat} {as : List α}
    (hlast : (as.flatMap code).length ≤ n) :
    chunked conv n (fuel + 1) (as.flatMap code) = as.map value := by
  rw [chunked]
  split
  · next hempty =>
    have hnil : as = [] := by
      rw [List.isEmpty_iff, List.flatMap_eq_nil_iff] at hempty
      exact List.eq_nil_iff_forall_not_mem.mpr fun a ha => hconv.word_ne_nil a (hempty a ha)
    rw [hnil]
    rfl
  · rw [List.take_of_length_le hlast, hconv.complete, List.drop_eq_nil_of_le hlast]
    simp only [chunked_nil, List.append_nil]

/-- Where the first cut falls between words, the conversion goes on behind
it. -/
theorem chunked_cut (hconv : Converts code value conv) {n fuel i : Nat} {as : List α} (hn : 0 < n)
    (hcut : ((as.take i).flatMap code).length = n) :
    chunked conv n (fuel + 1) (as.flatMap code) =
      (as.take i).map value ++ chunked conv n fuel ((as.drop i).flatMap code) := by
  have hempty : (as.flatMap code).isEmpty = false := by
    rw [List.isEmpty_eq_false_iff, flatMap_take_drop as i]
    intro hnil
    rw [(List.append_eq_nil_iff.mp hnil).1, List.length_nil] at hcut
    omega
  have htake : (as.flatMap code).take n = (as.take i).flatMap code := by
    rw [flatMap_take_drop as i, List.take_left' hcut]
  have hdrop : (as.flatMap code).drop n = (as.drop i).flatMap code := by
    rw [flatMap_take_drop as i, List.drop_left' hcut]
  simp only [chunked, hempty, Bool.false_eq_true, if_false, htake, hconv.complete, hdrop]

/-- Where it splits a word, nothing is converted. -/
theorem chunked_split (hconv : Converts code value conv) {n fuel : Nat} {as : List α}
    (hmore : n < (as.flatMap code).length) (hsplit : ¬ WordStart code as n) :
    chunked conv n (fuel + 1) (as.flatMap code) = [] := by
  obtain ⟨i, a, pre, post, hpre, hpost, hword, htake⟩ :=
    (wordStart_or_split as n hmore).resolve_left hsplit
  rw [chunked, htake, hconv.incomplete _ a pre post hpre hpost hword]
  split <;> rfl

/-- **Chunks give the same values exactly when every cut falls between two
words.** -/
theorem chunked_eq_iff (hconv : Converts code value conv) {n : Nat} (hn : 0 < n) (fuel : Nat) :
    ∀ as : List α, (as.flatMap code).length < fuel →
      (chunked conv n fuel (as.flatMap code) = as.map value ↔ CutsBetweenWords code n as) := by
  induction fuel with
  | zero => intro as h; omega
  | succ fuel ih =>
      intro as hfuel
      by_cases hlast : (as.flatMap code).length ≤ n
      · refine iff_of_true (chunked_last hconv hlast) ?_
        intro k hk
        cases k with
        | zero => exact ⟨0, by simp⟩
        | succ k =>
            rw [Nat.mul_add, Nat.mul_one] at hk
            omega
      · by_cases hstart : WordStart code as n
        · obtain ⟨i, hi⟩ := hstart
          have hlen := congrArg List.length (@flatMap_take_drop _ _ code as i)
          rw [List.length_append, hi] at hlen
          rw [chunked_cut hconv hn hi, cutsBetweenWords_drop hi, ← ih (as.drop i) (by omega)]
          conv_lhs => rw [← List.take_append_drop i as]
          rw [List.map_append, List.take_append_drop, List.append_cancel_left_eq]
        · rw [chunked_split hconv (by omega) hstart]
          refine iff_of_false ?_ ?_
          · intro h
            rw [List.map_eq_nil_iff.mp h.symm] at hlast
            simp at hlast
          · intro h
            have hcut := h 1 (by omega)
            rw [Nat.mul_one] at hcut
            exact hstart hcut

end Chunks

end HighJump.Lib
