/-
HighJump.Algo.SkiplistSpec — the sorted list a skiplist is for.

This is the abstract side: a list of `(score, obj)` pairs in the order of
score and comparison, and what each operation means on it. Nothing here
is read off the pointers. `takeWhile` and `dropWhile` cut a sorted list
in two where a test changes (`false_of_mem_dropWhile`), which is what
every search of the skiplist looks for.
-/
import HighJump.Algo.Skiplist
import Mathlib.Data.List.TakeWhile
import Mathlib.Order.Lattice

namespace HighJump.Algo.Skip

variable {S T : Type} [LinearOrder S]

/-! ## The order -/

/-- `a` comes before `b` by score and comparison. -/
def before (cmp : Comparable T) (a b : S × T) : Bool :=
  decide (a.1 < b.1) || (decide (a.1 = b.1) && cmp.compare a.2 b.2)

/-- Neither comes before the other. -/
def equivalent (cmp : Comparable T) (a b : S × T) : Bool := !before cmp a b && !before cmp b a

/-- No entry comes before an earlier one. -/
def Sorted (cmp : Comparable T) (l : List (S × T)) : Prop :=
  l.Pairwise fun a b => before cmp b a = false

theorem Comparable.irrefl (cmp : Comparable T) (a : T) : cmp.compare a a = false := by
  have := cmp.strict_weak.irrefl a
  simpa using this

theorem Comparable.trans (cmp : Comparable T) {a b c : T} (h1 : cmp.compare a b = true)
    (h2 : cmp.compare b c = true) : cmp.compare a c = true :=
  cmp.strict_weak.trans a b c h1 h2

/-- Whatever lies above `a` lies above `b`, or `b` lies above `a`. -/
theorem Comparable.above_or (cmp : Comparable T) {a c : T} (h : cmp.compare a c = true) (b : T) :
    cmp.compare a b = true ∨ cmp.compare b c = true := by
  by_contra hno
  obtain ⟨hab, hbc⟩ := not_or.mp hno
  -- then `a` and `b` are incomparable, and so are `b` and `c`
  have hba : ¬ cmp.compare b a = true := fun hba => hbc (cmp.trans hba h)
  have hcb : ¬ cmp.compare c b = true := fun hcb => hab (cmp.trans h hcb)
  exact (cmp.strict_weak.incomp_trans a b c ⟨hab, hba⟩ ⟨hbc, hcb⟩).1 h

theorem before_iff {cmp : Comparable T} {a b : S × T} :
    before cmp a b = true ↔ a.1 < b.1 ∨ (a.1 = b.1 ∧ cmp.compare a.2 b.2 = true) := by
  simp [before]

theorem before_asymm {cmp : Comparable T} {a b : S × T} (h : before cmp a b = true) :
    before cmp b a = false := by
  by_contra hne
  rcases before_iff.mp h with h1 | ⟨h1, h1'⟩ <;>
    rcases before_iff.mp (show before cmp b a = true by simpa using hne) with h2 | ⟨h2, h2'⟩
  · exact lt_asymm h1 h2
  · exact lt_irrefl _ (h2 ▸ h1)
  · exact lt_irrefl _ (h1 ▸ h2)
  · have h3 := cmp.trans h1' h2'
    rw [cmp.irrefl] at h3
    cases h3

theorem before_or {cmp : Comparable T} {a c : S × T} (h : before cmp a c = true) (b : S × T) :
    before cmp a b = true ∨ before cmp b c = true := by
  rw [before_iff] at h ⊢
  rw [before_iff]
  rcases lt_trichotomy a.1 b.1 with hab | hab | hab
  · exact .inl (.inl hab)
  · rcases h with h | ⟨h, hc⟩
    · exact .inr (.inl (hab ▸ h))
    · rcases cmp.above_or hc b.2 with h' | h'
      · exact .inl (.inr ⟨hab, h'⟩)
      · exact .inr (.inr ⟨hab ▸ h, h'⟩)
  · rcases h with h | ⟨h, -⟩
    · exact .inr (.inl (hab.trans h))
    · exact .inr (.inl (h ▸ hab))

/-- The code's test for equivalence. -/
theorem equivalent_iff {cmp : Comparable T} {a b : S × T} :
    equivalent cmp a b = true ↔
      a.1 = b.1 ∧ cmp.compare a.2 b.2 = false ∧ cmp.compare b.2 a.2 = false := by
  simp only [equivalent, before, Bool.and_eq_true, Bool.not_eq_true', Bool.or_eq_false_iff,
    decide_eq_false_iff_not, Bool.and_eq_false_iff]
  constructor
  · rintro ⟨⟨h1, h2⟩, h3, h4⟩
    have heq : a.1 = b.1 := le_antisymm (not_lt.mp h3) (not_lt.mp h1)
    exact ⟨heq, h2.resolve_left fun h => h heq, h4.resolve_left fun h => h heq.symm⟩
  · rintro ⟨h1, h2, h3⟩
    exact ⟨⟨h1 ▸ lt_irrefl _, .inr h2⟩, h1 ▸ lt_irrefl _, .inr h3⟩

/-! ## The operations -/

/-- `insert`: right before the first entry not less. -/
def listInsert (cmp : Comparable T) (x : S × T) (l : List (S × T)) : List (S × T) :=
  l.takeWhile (before cmp · x) ++ x :: l.dropWhile (before cmp · x)

/-- `delete_node`: without the first equivalent entry. -/
def listDelete (cmp : Comparable T) (x : S × T) (l : List (S × T)) : List (S × T) :=
  l.eraseP (equivalent cmp · x)

/-- Whether a score lies in the range. -/
def inScores (lo hi : S) (e : S × T) : Bool := decide (lo ≤ e.1) && decide (e.1 ≤ hi)

/-- `delete_range_by_score`. -/
def listDeleteByScore (lo hi : S) (l : List (S × T)) : List (S × T) :=
  l.filter fun e => !inScores lo hi e

/-- `delete_range_by_rank`: without the positions `a..min(b, length - 1)`,
counted from 0. -/
def listDeleteByRank (a b : Nat) (l : List (S × T)) : List (S × T) :=
  if b < a ∨ l.length ≤ a then l else l.take a ++ l.drop (min b (l.length - 1) + 1)

/-- How many positions these are. -/
def rankCount (a b n : Nat) : Nat := if b < a ∨ n ≤ a then 0 else min b (n - 1) + 1 - a

/-- What an operation returns: the position of the new entry, whether one
was deleted, how many were. -/
inductive AbsRet where
  | inserted (pos : Nat)
  | deleted (b : Bool)
  | removed (n : Nat)
  deriving DecidableEq

/-- One operation on the list. -/
def absStep (cmp : Comparable T) (op : Op S T) (l : List (S × T)) : List (S × T) × AbsRet :=
  match op with
  | .insert score obj =>
      (listInsert cmp (score, obj) l,
        .inserted (l.takeWhile (before cmp · (score, obj))).length)
  | .deleteNode score obj =>
      (listDelete cmp (score, obj) l, .deleted (l.any (equivalent cmp · (score, obj))))
  | .deleteRangeByScore a b => (listDeleteByScore a b l, .removed (l.countP (inScores a b)))
  | .deleteRangeByRank a b =>
      (listDeleteByRank a.toNat b.toNat l, .removed (rankCount a.toNat b.toNat l.length))

/-! ## Where a test changes -/

omit [LinearOrder S] in
theorem false_of_mem_dropWhile {α : Type} {p : α → Bool} {l : List α}
    (h : l.Pairwise fun a b => p b = true → p a = true) : ∀ x ∈ l.dropWhile p, p x = false := by
  induction l with
  | nil => intro x hx; cases hx
  | cons a l ih =>
    obtain ⟨ha, hl⟩ := List.pairwise_cons.mp h
    cases hp : p a with
    | true =>
      rw [List.dropWhile_cons_of_pos hp]
      exact ih hl
    | false =>
      rw [List.dropWhile_cons_of_neg (by simp [hp])]
      intro x hx
      rcases List.mem_cons.mp hx with rfl | hx
      · exact hp
      · by_contra hne
        rw [ha x hx (by simpa using hne)] at hp
        cases hp

theorem Sorted.before_mono {cmp : Comparable T} {l : List (S × T)} (h : Sorted cmp l) (x : S × T) :
    l.Pairwise fun a b => before cmp b x = true → before cmp a x = true := by
  refine List.Pairwise.imp (fun {a b} hab hb => ?_) h
  rcases before_or hb a with h' | h'
  · rw [h'] at hab
    cases hab
  · exact h'

theorem Sorted.score_le {cmp : Comparable T} {l : List (S × T)} (h : Sorted cmp l) :
    l.Pairwise fun a b => a.1 ≤ b.1 := by
  refine List.Pairwise.imp (fun {a b} hab => not_lt.mp fun hlt => ?_) h
  rw [before_iff.mpr (.inl hlt)] at hab
  cases hab

theorem Sorted.sublist {cmp : Comparable T} {l l' : List (S × T)} (h : Sorted cmp l)
    (hs : l'.Sublist l) : Sorted cmp l' :=
  List.Pairwise.sublist hs h

theorem sorted_listInsert {cmp : Comparable T} {l : List (S × T)} (h : Sorted cmp l) (x : S × T) :
    Sorted cmp (listInsert cmp x l) := by
  have hcut : l.takeWhile (before cmp · x) ++ l.dropWhile (before cmp · x) = l :=
    List.takeWhile_append_dropWhile
  have hafter := false_of_mem_dropWhile (h.before_mono x)
  rw [Sorted, ← hcut, List.pairwise_append] at h
  obtain ⟨hA, hB, hAB⟩ := h
  refine List.pairwise_append.mpr ⟨hA, List.pairwise_cons.mpr ⟨fun b hb => hafter b hb, hB⟩,
    fun a ha b hb => ?_⟩
  rcases List.mem_cons.mp hb with rfl | hb
  · have hab := List.mem_takeWhile_imp ha
    exact before_asymm hab
  · exact hAB a ha b hb

/-- Deleting where the first entry not less is equivalent. -/
theorem listDelete_of_equivalent {cmp : Comparable T} {x b : S × T} {A B : List (S × T)}
    (hA : ∀ a ∈ A, before cmp a x = true) (hb : equivalent cmp b x = true) :
    listDelete cmp x (A ++ b :: B) = A ++ B := by
  have hnot : ∀ a ∈ A, ¬ equivalent cmp a x = true := by
    intro a ha
    simp [equivalent, hA a ha]
  rw [listDelete, List.eraseP_append_right _ hnot]
  simp [hb]

/-- No equivalent entry where the first one not less is not. -/
theorem not_equivalent_of_cut {cmp : Comparable T} {x : S × T} {A B : List (S × T)}
    (hs : Sorted cmp (A ++ B)) (hA : ∀ a ∈ A, before cmp a x = true)
    (hB : ∀ b ∈ B, before cmp b x = false)
    (hhead : ∀ b ∈ B.head?, equivalent cmp b x = false) :
    ∀ e ∈ A ++ B, equivalent cmp e x = false := by
  intro e he
  rcases List.mem_append.mp he with h | h
  · simp [equivalent, hA e h]
  · cases B with
    | nil => cases h
    | cons b B =>
      have hb := hhead b rfl
      rcases List.mem_cons.mp h with rfl | h
      · exact hb
      · -- `x` lies before `b`, and `b` is not after `e`
        have hxb : before cmp x b = true := by simpa [equivalent, hB b List.mem_cons_self] using hb
        have hbe := (List.pairwise_cons.mp (List.pairwise_append.mp hs).2.1).1 e h
        rcases before_or hxb e with h' | h'
        · simp [equivalent, h']
        · rw [h'] at hbe
          cases hbe

/-- Deleting where the scores of the range stand together. -/
theorem listDeleteByScore_of_cut (lo up : S) {A D B : List (S × T)}
    (hA : ∀ e ∈ A, inScores lo up e = false) (hD : ∀ e ∈ D, inScores lo up e = true)
    (hB : ∀ e ∈ B, inScores lo up e = false) :
    listDeleteByScore lo up (A ++ (D ++ B)) = A ++ B ∧
      (A ++ (D ++ B)).countP (inScores lo up) = D.length := by
  have hkeepA : A.filter (fun e => !inScores lo up e) = A :=
    List.filter_eq_self.mpr fun e he => by simp [hA e he]
  have hdropD : D.filter (fun e => !inScores lo up e) = [] :=
    List.filter_eq_nil_iff.mpr fun e he => by simp [hD e he]
  have hkeepB : B.filter (fun e => !inScores lo up e) = B :=
    List.filter_eq_self.mpr fun e he => by simp [hB e he]
  have hcountA : A.countP (inScores lo up) = 0 :=
    List.countP_eq_zero.mpr fun e he => by simp [hA e he]
  have hcountB : B.countP (inScores lo up) = 0 :=
    List.countP_eq_zero.mpr fun e he => by simp [hB e he]
  constructor
  · rw [listDeleteByScore, List.filter_append, List.filter_append, hkeepA, hdropD, hkeepB,
      List.nil_append]
  · rw [List.countP_append, List.countP_append, hcountA, hcountB, List.countP_eq_length.mpr hD]
    omega

end HighJump.Algo.Skip
