/-
HighJump.Lib.Threads — sums over threads.

A system of threads keeps a control point for each. What all of them hold
together is a sum of weights over the control points, and one thread that
moves changes it by its own two weights.
-/
import Mathlib.Algebra.BigOperators.Group.Finset.Piecewise

namespace HighJump.Lib

variable {ι κ : Type} [Fintype ι] [DecidableEq ι]

/-- The sum after one thread moved. -/
theorem sum_weight_update (weight : κ → Nat) (pc : ι → κ) (i : ι) (k : κ) :
    (∑ j, weight (Function.update pc i k j)) + weight (pc i) = (∑ j, weight (pc j)) + weight k := by
  have hupd : (fun j => weight (Function.update pc i k j))
      = Function.update (fun j => weight (pc j)) i (weight k) := by
    funext j
    by_cases hj : j = i
    · subst hj
      simp
    · simp [hj]
  rw [hupd, Finset.sum_update_of_mem (Finset.mem_univ i), Finset.sdiff_singleton_eq_erase,
    ← Finset.add_sum_erase Finset.univ (fun j => weight (pc j)) (Finset.mem_univ i)]
  omega

end HighJump.Lib
