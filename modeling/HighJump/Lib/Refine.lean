/-
HighJump.Lib.Refine — machines that answer, their runs, and refinement.

A machine takes an input and either fails or answers and moves on. A
specification does the same and never fails. `runAll_refines` is the
forward simulation: a relation that every step keeps, answers included,
is kept by every run, and the run does not fail.
-/
import Mathlib.Data.List.Basic

namespace HighJump.Lib

universe u

variable {σ τ ι ο ε : Type u}

/-- The answers of a machine to a list of inputs, and where it stops. -/
def runAll (step : σ → ι → Except ε (σ × ο)) : σ → List ι → Except ε (σ × List ο)
  | s, [] => .ok (s, [])
  | s, i :: is =>
      match step s i with
      | .error e => .error e
      | .ok (s, o) =>
          match runAll step s is with
          | .error e => .error e
          | .ok (s, os) => .ok (s, o :: os)

/-- The answers of a specification. -/
def specAll (spec : τ → ι → τ × ο) : τ → List ι → τ × List ο
  | t, [] => (t, [])
  | t, i :: is =>
      let (t, o) := spec t i
      let (t, os) := specAll spec t is
      (t, o :: os)

theorem specAll_append (spec : τ → ι → τ × ο) (is js : List ι) :
    ∀ t, specAll spec t (is ++ js)
      = ((specAll spec (specAll spec t is).1 js).1,
          (specAll spec t is).2 ++ (specAll spec (specAll spec t is).1 js).2) := by
  induction is with
  | nil => intro t; rfl
  | cons i is ih =>
    intro t
    simp only [List.cons_append, specAll, ih]

/-- Two machines that never fail and answer alike step by step answer alike
in every run. -/
theorem specAll_refines {f : σ → ι → σ × ο} {g : τ → ι → τ × ο} {R : σ → τ → Prop}
    (hstep : ∀ s t i, R s t → (f s i).2 = (g t i).2 ∧ R (f s i).1 (g t i).1) :
    ∀ (is : List ι) {s : σ} {t : τ}, R s t →
      (specAll f s is).2 = (specAll g t is).2 ∧ R (specAll f s is).1 (specAll g t is).1 := by
  intro is
  induction is with
  | nil => exact fun h => ⟨rfl, h⟩
  | cons i is ih =>
    intro s t h
    obtain ⟨hout, h1⟩ := hstep s t i h
    obtain ⟨houts, h2⟩ := ih h1
    refine ⟨?_, h2⟩
    simp only [specAll, hout, houts]

/-- **Forward simulation**: what one step keeps, a run keeps. -/
theorem runAll_refines {step : σ → ι → Except ε (σ × ο)} {spec : τ → ι → τ × ο} {R : σ → τ → Prop}
    (hstep : ∀ s t i, R s t → ∃ s', step s i = .ok (s', (spec t i).2) ∧ R s' (spec t i).1) :
    ∀ (is : List ι) {s : σ} {t : τ}, R s t →
      ∃ s', runAll step s is = .ok (s', (specAll spec t is).2) ∧ R s' (specAll spec t is).1 := by
  intro is
  induction is with
  | nil => exact fun h => ⟨_, rfl, h⟩
  | cons i is ih =>
    intro s t h
    obtain ⟨s1, hs1, h1⟩ := hstep s t i h
    obtain ⟨s2, hs2, h2⟩ := ih h1
    refine ⟨s2, ?_, h2⟩
    simp only [runAll, hs1, hs2]
    rfl

end HighJump.Lib
