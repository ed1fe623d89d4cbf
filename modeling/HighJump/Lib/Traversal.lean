/-
HighJump.Lib.Traversal — reading a divided collection part by part while
others write to it.

The entries of a collection are kept in parts, and each key has its place
in one of them. A traversal reads the parts in turn, each as it is at that
moment. What it collects need not be what the collection ever held at one
time; but it meets no key twice (`Collected.nodup`), what it meets was
there when it was met (`Collected.sound`), and what was there throughout
it meets (`Collected.complete`).
-/
import Mathlib.Data.List.Nodup

namespace HighJump.Lib

universe u v w

/-- Which part a key belongs to, and what a part holds. -/
structure Divided (σ : Type u) (K : Type v) (V : Type w) where
  home : K → Nat
  part : σ → Nat → List (K × V)

namespace Divided

variable {σ : Type u} {K : Type v} {V : Type w} (D : Divided σ K V)

/-- Every key is in its place, and there once. -/
def Placed (s : σ) : Prop :=
  ∀ i, ((D.part s i).map Prod.fst).Nodup ∧ ∀ e ∈ D.part s i, D.home e.1 = i

/-- The first `n` parts, each as some state of `seen` had it. -/
inductive Collected (seen : σ → Prop) : Nat → List (K × V) → Prop where
  | start : Collected seen 0 []
  | read {n : Nat} {es : List (K × V)} {s : σ} :
      Collected seen n es → seen s → Collected seen (n + 1) (es ++ D.part s n)

variable {D} {seen seen' : σ → Prop} {n : Nat} {es : List (K × V)}

theorem Collected.mono (h : D.Collected seen n es) (hsub : ∀ s, seen s → seen' s) :
    D.Collected seen' n es := by
  induction h with
  | start => exact .start
  | read _ hs ih => exact ih.read (hsub _ hs)

/-- Only the parts that were read are in it. -/
theorem Collected.home_lt (h : D.Collected seen n es) (hplaced : ∀ s, seen s → D.Placed s) :
    ∀ e ∈ es, D.home e.1 < n := by
  induction h with
  | start => simp
  | @read n _ s _ hs ih =>
    intro e he
    rcases List.mem_append.mp he with he | he
    · exact Nat.lt_succ_of_lt (ih e he)
    · rw [((hplaced s hs) n).2 e he]
      exact Nat.lt_succ_self n

theorem Collected.nodup (h : D.Collected seen n es) (hplaced : ∀ s, seen s → D.Placed s) :
    (es.map Prod.fst).Nodup := by
  induction h with
  | start => exact List.nodup_nil
  | @read n es s hcoll hs ih =>
    rw [List.map_append]
    refine ih.append ((hplaced s hs) n).1 ?_
    intro k hk hk'
    obtain ⟨e, he, rfl⟩ := List.mem_map.mp hk
    obtain ⟨e', he', heq⟩ := List.mem_map.mp hk'
    have hlt := hcoll.home_lt hplaced e he
    have hhome := ((hplaced s hs) n).2 e' he'
    rw [heq] at hhome
    exact absurd hhome (Nat.ne_of_lt hlt)

theorem Collected.sound (h : D.Collected seen n es) (hplaced : ∀ s, seen s → D.Placed s) :
    ∀ e ∈ es, ∃ s, seen s ∧ e ∈ D.part s (D.home e.1) := by
  induction h with
  | start => simp
  | @read n _ s _ hs ih =>
    intro e he
    rcases List.mem_append.mp he with he | he
    · exact ih e he
    · refine ⟨s, hs, ?_⟩
      rwa [((hplaced s hs) n).2 e he]

theorem Collected.complete (h : D.Collected seen n es) {k : K} (hk : D.home k < n)
    (hthere : ∀ s, seen s → ∃ v, (k, v) ∈ D.part s (D.home k)) : k ∈ es.map Prod.fst := by
  induction h with
  | start => exact absurd hk (Nat.not_lt_zero _)
  | @read n es s _ hs ih =>
    rw [List.map_append, List.mem_append]
    rcases Nat.lt_succ_iff_lt_or_eq.mp hk with hlt | heq
    · exact .inl (ih hlt)
    · obtain ⟨v, hv⟩ := hthere s hs
      rw [heq] at hv
      exact .inr (List.mem_map.mpr ⟨(k, v), hv, rfl⟩)

end Divided

end HighJump.Lib
