/-
HighJump.Lib.RowMajor — the numbers of the cells of a table.

Row by row, the cell `q, r` of a table with rows of length `d` has the
number `q * d + r`. Quotient and remainder take the number apart again
(`divMod_mul_add`), so no two cells share one, and the cells of the first
`n` rows have the numbers below `n * d`, in lexicographic order.
-/
import Mathlib.Tactic.Common

namespace HighJump.Lib

variable {n d q r q' r' : Nat}

theorem mul_add_lt (hq : q < n) (hr : r < d) : q * d + r < n * d := by
  have hle : (q + 1) * d ≤ n * d := Nat.mul_le_mul_right d hq
  rw [Nat.succ_mul] at hle
  omega

theorem divMod_mul_add (hr : r < d) : (q * d + r) / d = q ∧ (q * d + r) % d = r := by
  refine ⟨?_, ?_⟩
  · rw [Nat.mul_comm, Nat.mul_add_div (by omega), Nat.div_eq_of_lt hr, Nat.add_zero]
  · rw [Nat.mul_comm, Nat.mul_add_mod, Nat.mod_eq_of_lt hr]

theorem mul_add_inj (hr : r < d) (hr' : r' < d) (h : q * d + r = q' * d + r') :
    q = q' ∧ r = r' := by
  obtain ⟨hdiv, hmod⟩ := divMod_mul_add (q := q) hr
  obtain ⟨hdiv', hmod'⟩ := divMod_mul_add (q := q') hr'
  rw [h] at hdiv hmod
  exact ⟨hdiv.symm.trans hdiv', hmod.symm.trans hmod'⟩

/-- The numbers below `n * d` are the pairs below `n` and `d`. -/
theorem exists_divMod_iff : (∃ i, i < n * d ∧ i / d = q ∧ i % d = r) ↔ q < n ∧ r < d := by
  constructor
  · rintro ⟨i, hi, rfl, rfl⟩
    have hd : 0 < d := Nat.pos_of_ne_zero fun h => by rw [h, Nat.mul_zero] at hi; omega
    exact ⟨Nat.div_lt_of_lt_mul (by rwa [Nat.mul_comm]), Nat.mod_lt i hd⟩
  · rintro ⟨hq, hr⟩
    exact ⟨q * d + r, mul_add_lt hq hr, divMod_mul_add hr⟩

/-- Quotient and remainder grow with the number, the quotient first. -/
theorem divMod_lt {i j : Nat} (h : i < j) : i / d < j / d ∨ (i / d = j / d ∧ i % d < j % d) := by
  rcases Nat.lt_or_ge (i / d) (j / d) with hlt | hge
  · exact .inl hlt
  · have heq : i / d = j / d := Nat.le_antisymm (Nat.div_le_div_right (Nat.le_of_lt h)) hge
    have hi := Nat.div_add_mod i d
    have hj := Nat.div_add_mod j d
    rw [← heq] at hj
    exact .inr ⟨heq, by omega⟩

/-! ## Tables of rows of one length -/

section Rows

universe u

variable {α : Type u} {table : List (List α)}

theorem length_flatten_of_length (h : ∀ row ∈ table, row.length = d) :
    table.flatten.length = table.length * d := by
  induction table with
  | nil => simp
  | cons row table ih =>
    rw [List.flatten_cons, List.length_append, ih fun x hx => h x (by simp [hx]),
      h row (by simp), List.length_cons, Nat.succ_mul, Nat.add_comm]

/-- The cell `q, r` of the table. -/
theorem getElem?_flatten_of_length (h : ∀ row ∈ table, row.length = d) (hq : q < table.length)
    (hr : r < d) : table.flatten[q * d + r]? = table[q][r]? := by
  induction table generalizing q with
  | nil => simp at hq
  | cons row table ih =>
    have hrow : row.length = d := h row (by simp)
    rw [List.flatten_cons]
    cases q with
    | zero => simp [List.getElem?_append_left, hrow, hr]
    | succ q =>
      have hle : row.length ≤ (q + 1) * d + r := by
        rw [Nat.succ_mul]
        omega
      have hsub : (q + 1) * d + r - row.length = q * d + r := by
        rw [Nat.succ_mul, hrow]
        omega
      rw [List.getElem?_append_right hle, hsub, ih (fun x hx => h x (by simp [hx]))
        (by simpa using hq), List.getElem_cons_succ]

end Rows

end HighJump.Lib
