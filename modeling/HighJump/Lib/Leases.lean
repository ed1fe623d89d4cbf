/-
HighJump.Lib.Leases — objects on a shelf and in hands.

Any number of holders take objects off a shelf and put them back. How
many places an object is in, the shelf and every hand counted, is
`Leases.owners`; taking and putting keep it, and only a new object raises
it. Where it is at most one, an object in a hand is in no other and not on
the shelf.
-/
import HighJump.Lib.Threads
import Mathlib.Algebra.Order.BigOperators.Group.Finset

namespace HighJump.Lib

structure Leases (τ α : Type) where
  shelf : List α
  held : τ → List α

namespace Leases

variable {τ α : Type} [DecidableEq τ] [DecidableEq α]

def empty : Leases τ α := { shelf := [], held := fun _ => [] }

/-- A new object in the hand of `t`. -/
def give (l : Leases τ α) (t : τ) (a : α) : Leases τ α :=
  { l with held := Function.update l.held t (a :: l.held t) }

def take (l : Leases τ α) (t : τ) (a : α) : Leases τ α where
  shelf := l.shelf.erase a
  held := Function.update l.held t (a :: l.held t)

def put (l : Leases τ α) (t : τ) (a : α) : Leases τ α where
  shelf := l.shelf ++ [a]
  held := Function.update l.held t ((l.held t).erase a)

variable {l : Leases τ α} {t u : τ} {a b : α}

@[simp] theorem shelf_put : (l.put t a).shelf = l.shelf ++ [a] := rfl

omit [DecidableEq α] in
theorem held_give : (l.give t a).held u = if u = t then a :: l.held t else l.held u :=
  Function.update_apply ..

theorem held_take : (l.take t a).held u = if u = t then a :: l.held t else l.held u :=
  Function.update_apply ..

theorem held_put : (l.put t a).held u = if u = t then (l.held t).erase a else l.held u :=
  Function.update_apply ..

/-! ## Owners -/

variable [Fintype τ]

/-- In how many places `a` is. -/
def owners (l : Leases τ α) (a : α) : Nat := l.shelf.count a + ∑ t, (l.held t).count a

omit [DecidableEq τ] in
@[simp] theorem owners_empty : (empty : Leases τ α).owners a = 0 := by
  simp [owners, empty]

theorem owners_give : (l.give t a).owners b = l.owners b + if a = b then 1 else 0 := by
  have hsum := sum_weight_update (List.count b) l.held t (a :: l.held t)
  simp only [List.count_cons, beq_iff_eq] at hsum
  simp only [owners, give]
  omega

theorem owners_take (h : a ∈ l.shelf) : (l.take t a).owners b = l.owners b := by
  have hsum := sum_weight_update (List.count b) l.held t (a :: l.held t)
  have hpos := List.count_pos_iff.mpr h
  simp only [List.count_cons, beq_iff_eq] at hsum
  simp only [owners, take, List.count_erase, beq_iff_eq]
  by_cases hb : a = b
  · subst hb
    simp only [if_true] at hsum ⊢
    omega
  · simp only [if_neg hb] at hsum ⊢
    omega

theorem owners_put (h : a ∈ l.held t) : (l.put t a).owners b = l.owners b := by
  have hsum := sum_weight_update (List.count b) l.held t ((l.held t).erase a)
  have hpos := List.count_pos_iff.mpr h
  simp only [List.count_erase, beq_iff_eq] at hsum
  simp only [owners, put, List.count_append, List.count_singleton, beq_iff_eq]
  by_cases hb : a = b
  · subst hb
    simp only [if_true] at hsum ⊢
    omega
  · simp only [if_neg hb] at hsum ⊢
    omega

/-! ## One owner -/

/-- Every object is in one place at most. -/
def Exclusive (l : Leases τ α) : Prop := ∀ a, l.owners a ≤ 1

omit [DecidableEq τ] in
/-- The shelf and one hand are part of the count. -/
theorem count_add_count_le (t : τ) : l.shelf.count a + (l.held t).count a ≤ l.owners a :=
  Nat.add_le_add_left (Finset.single_le_sum (f := fun t => (l.held t).count a)
    (fun _ _ => Nat.zero_le _) (Finset.mem_univ t)) _

omit [DecidableEq τ] in
theorem Exclusive.not_held (h : l.Exclusive) (ha : a ∈ l.shelf) (t : τ) : a ∉ l.held t := by
  intro ht
  have hle := Nat.le_trans (count_add_count_le t) (h a)
  have hshelf := List.count_pos_iff.mpr ha
  have hheld := List.count_pos_iff.mpr ht
  omega

theorem Exclusive.holder (h : l.Exclusive) (ht : a ∈ l.held t) (hu : a ∈ l.held u) : t = u := by
  by_contra hne
  have hsum := Finset.add_sum_erase Finset.univ (fun t => (l.held t).count a) (Finset.mem_univ t)
  have hrest := Finset.single_le_sum (f := fun t => (l.held t).count a)
    (fun _ _ => Nat.zero_le _) (Finset.mem_erase.mpr ⟨Ne.symm hne, Finset.mem_univ u⟩)
  have hown := h a
  have h1 := List.count_pos_iff.mpr ht
  have h2 := List.count_pos_iff.mpr hu
  simp only [owners] at hown
  omega

omit [DecidableEq τ] in
theorem Exclusive.nodup (h : l.Exclusive) (t : τ) : (l.held t).Nodup :=
  List.nodup_iff_count_le_one.mpr fun a =>
    Nat.le_trans (Nat.le_trans (Nat.le_add_left _ _) (count_add_count_le t)) (h a)

omit [DecidableEq τ] in
theorem Exclusive.nodup_shelf (h : l.Exclusive) : l.shelf.Nodup :=
  List.nodup_iff_count_le_one.mpr fun a => Nat.le_trans (Nat.le_add_right _ _) (h a)

omit [DecidableEq τ] in
theorem owners_pos (h : a ∈ l.shelf ∨ ∃ t, a ∈ l.held t) : 0 < l.owners a := by
  rcases h with h | ⟨t, h⟩
  · exact Nat.lt_of_lt_of_le (List.count_pos_iff.mpr h) (Nat.le_add_right _ _)
  · exact Nat.lt_of_lt_of_le (List.count_pos_iff.mpr h)
      (Nat.le_trans (Nat.le_add_left _ _) (count_add_count_le t))

omit [DecidableEq τ] in
/-- An object with an owner is on the shelf or in a hand. -/
theorem somewhere (h : 0 < l.owners a) : a ∈ l.shelf ∨ ∃ t, a ∈ l.held t := by
  by_cases hs : a ∈ l.shelf
  · exact .inl hs
  · refine .inr ?_
    by_contra hno
    push Not at hno
    have hzero : l.owners a = 0 := by
      simp [owners, List.count_eq_zero.mpr hs, fun t => List.count_eq_zero.mpr (hno t)]
    exact absurd hzero (Nat.ne_of_gt h)

end Leases

end HighJump.Lib
