/-
HighJump.Lib.Lts — labelled transition systems, their runs, and the
induction rules every run-level theorem of the development goes through.

Nothing here names a component of the library: a system is an initial
predicate and a labelled step relation over arbitrary types. A run is
indexed by the list of labels it performed, oldest first, so a theorem
about what a system ANSWERED (ids issued, values returned) is a theorem
about the label list, and one about what it IS is a theorem about the
state.
-/
import Mathlib.Data.List.Basic

namespace HighJump.Lib

universe u v

/-- A labelled transition system: which states it may start in, and
which steps it may take, each under a label. -/
structure Lts (σ : Type u) (α : Type v) where
  init : σ → Prop
  step : σ → α → σ → Prop

namespace Lts

variable {σ : Type u} {α : Type v} (M : Lts σ α)

/-- `M.Run tr s`: from some initial state the labels `tr`, oldest first,
lead to `s`. -/
inductive Run : List α → σ → Prop where
  | start {s : σ} : M.init s → Run [] s
  | snoc {tr : List α} {s s' : σ} {a : α} :
      Run tr s → M.step s a s' → Run (tr ++ [a]) s'

/-- `s` is reached by some run. -/
def Reachable (s : σ) : Prop := ∃ tr, M.Run tr s

/-- The runs of `M` whose every step meets `P`, which looks at the state
before the step and at its label. -/
def guarded (P : σ → α → Prop) : Lts σ α where
  init := M.init
  step s a s' := P s a ∧ M.step s a s'

variable {M}

/-- A guarded run goes on with a step that meets the guard. -/
theorem Run.snocGuarded {P : σ → α → Prop} {tr : List α} {s s' : σ} {a : α}
    (h : (M.guarded P).Run tr s) (hs : M.step s a s') (hp : P s a) :
    (M.guarded P).Run (tr ++ [a]) s' :=
  h.snoc ⟨hp, hs⟩

/-- The invariant rule over runs: a relation between the trace and the
state that holds at the start and survives a step holds of every run. -/
theorem Run.invariant {I : List α → σ → Prop}
    (h0 : ∀ s, M.init s → I [] s)
    (hstep : ∀ tr s a s', M.Run tr s → I tr s → M.step s a s' → I (tr ++ [a]) s')
    {tr : List α} {s : σ} (h : M.Run tr s) : I tr s := by
  induction h with
  | start hi => exact h0 _ hi
  | snoc hr hs ih => exact hstep _ _ _ _ hr ih hs

/-- A guarded run is a run. -/
theorem Run.unguarded {P : σ → α → Prop} {tr : List α} {s : σ} (h : (M.guarded P).Run tr s) :
    M.Run tr s := by
  induction h with
  | start hi => exact .start hi
  | snoc _ hs ih => exact ih.snoc hs.2

/-- The rule backwards: where a property behind a step shows that the
step met the guard and that the property held before it, a run that ends
with the property is guarded. -/
theorem Run.guarded_of_back {P : σ → α → Prop} {I : σ → Prop}
    (hback : ∀ tr s a s', M.Run tr s → M.step s a s' → I s' → P s a ∧ I s)
    {tr : List α} {s : σ} (h : M.Run tr s) (hI : I s) : (M.guarded P).Run tr s := by
  induction h with
  | start hi => exact .start hi
  | snoc hr hs ih =>
    obtain ⟨hp, hI'⟩ := hback _ _ _ _ hr hs hI
    exact (ih hI').snocGuarded hs hp

/-- A guard that is enough to keep an invariant keeps it over a run. -/
theorem Run.guarded_invariant {P : σ → α → Prop} {I : σ → Prop} (h0 : ∀ s, M.init s → I s)
    (hkeep : ∀ s a s', I s → M.step s a s' → P s a → I s') {tr : List α} {s : σ}
    (h : (M.guarded P).Run tr s) : I s :=
  Run.invariant (M := M.guarded P) (I := fun _ s => I s) h0
    (fun _ _ _ _ _ hi hs => hkeep _ _ _ hi hs.2 hs.1) h

/-- A guard that says where the step leads says it of the state reached. -/
theorem Run.guarded_post {P : σ → α → Prop} {I : σ → Prop} (h0 : ∀ s, M.init s → I s)
    (hpost : ∀ s a s', M.step s a s' → P s a → I s') {tr : List α} {s : σ}
    (h : (M.guarded P).Run tr s) : I s :=
  Run.guarded_invariant h0 (fun _ _ _ _ hs hp => hpost _ _ _ hs hp) h

/-- Two guards that agree wherever the one of them keeps the invariant
guard the same runs. -/
theorem Run.guarded_congr {P Q : σ → α → Prop} {I : σ → Prop} (h0 : ∀ s, M.init s → I s)
    (hiff : ∀ s a s', I s → M.step s a s' → (P s a ↔ Q s a))
    (hkeep : ∀ s a s', I s → M.step s a s' → Q s a → I s') {tr : List α} {s : σ} :
    (M.guarded P).Run tr s ↔ (M.guarded Q).Run tr s := by
  have hinv : ∀ {tr : List α} {s : σ}, (M.guarded Q).Run tr s → I s :=
    Run.guarded_invariant h0 hkeep
  constructor
  · intro h
    induction h with
    | start hi => exact .start hi
    | snoc _ hs ih => exact ih.snocGuarded hs.2 ((hiff _ _ _ (hinv ih) hs.2).mp hs.1)
  · intro h
    induction h with
    | start hi => exact .start hi
    | snoc hr hs ih => exact ih.snocGuarded hs.2 ((hiff _ _ _ (hinv hr) hs.2).mpr hs.1)

/-- The accounting rule: an amount that steps within the guard keep and
other steps lower never rises above what it starts with, and is still
that exactly if the whole run was within the guard. -/
theorem Run.amount_eq_iff_guarded {P : σ → α → Prop} {amount : σ → Nat} {n : Nat}
    (h0 : ∀ s, M.init s → amount s = n)
    (hkeep : ∀ s a s', M.step s a s' → P s a → amount s' = amount s)
    (hlower : ∀ s a s', M.step s a s' → ¬ P s a → amount s' < amount s)
    {tr : List α} {s : σ} (h : M.Run tr s) :
    amount s ≤ n ∧ (amount s = n ↔ (M.guarded P).Run tr s) := by
  have hle : ∀ {tr : List α} {s : σ}, M.Run tr s → amount s ≤ n := by
    intro tr s h
    induction h with
    | start hi => exact Nat.le_of_eq (h0 _ hi)
    | @snoc _ s _ a _ hs ih =>
      by_cases hp : P s a
      · exact Nat.le_trans (Nat.le_of_eq (hkeep _ _ _ hs hp)) ih
      · exact Nat.le_trans (Nat.le_of_lt (hlower _ _ _ hs hp)) ih
  refine ⟨hle h, fun heq => ?_, fun hg => ?_⟩
  · refine Run.guarded_of_back (I := fun s => amount s = n) (fun tr s a s' hr hs heq => ?_) h heq
    by_cases hp : P s a
    · exact ⟨hp, (hkeep s a s' hs hp).symm.trans heq⟩
    · have hlt := Nat.lt_of_lt_of_le (hlower s a s' hs hp) (hle hr)
      exact absurd heq (Nat.ne_of_lt hlt)
  · refine Run.invariant (M := M.guarded P) (I := fun _ s => amount s = n) h0 ?_ hg
    intro tr s a s' _ hi hs
    exact (hkeep s a s' hs.2 hs.1).trans hi

/-- The invariant rule over states. -/
theorem Reachable.invariant {I : σ → Prop} (h0 : ∀ s, M.init s → I s)
    (hstep : ∀ s a s', I s → M.step s a s' → I s') {s : σ}
    (h : M.Reachable s) : I s := by
  obtain ⟨tr, hr⟩ := h
  exact Run.invariant (I := fun _ s => I s) h0
    (fun _ _ _ _ _ hi hs => hstep _ _ _ hi hs) hr

end Lts

end HighJump.Lib
