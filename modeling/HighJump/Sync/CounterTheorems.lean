/-
HighJump.Sync.CounterTheorems — what the bounds of `hj::counter` are worth.

The source tests the bounds on the result it has computed. A result that
wrapped is tested like any other, and where it lands inside the bounds it
is stored. `run_exact_iff` says when that happens: the value never leaves
the bounds, and the run is exact if and only if at no step some other
number inside the bounds is congruent to the exact result modulo the
width of the promoted type. Types of 8 and 16 bits are promoted to 32 and
are always exact (`noAlias_of_narrow`).
-/
import HighJump.Sync.Counter
import Mathlib.Tactic.Linarith

namespace HighJump.Sync.Counter

open HighJump.Lib (IntType)

/-! ## One operation -/

/-- Bounds that are values of `T`, around the value. -/
structure Valid (T : IntType) (c : Counter) : Prop where
  min_mem : T.Mem c.min
  max_mem : T.Mem c.max
  le_value : c.min ≤ c.value
  value_le : c.value ≤ c.max

/-- The result in exact arithmetic. -/
def exactResult (c : Counter) : Op → Int
  | .plusPlus | .plusPlusPost | .inc => c.value + c.step
  | .minusMinus | .minusMinusPost | .dec => c.value - c.step
  | .plusEq arg => c.value + arg.read c.value
  | .minusEq arg => c.value - arg.read c.value
  | .timesEq arg => c.value * arg.read c.value
  | .reset value => value

/-- An operation that does what its exact result says: takes it if it lies
within the bounds, and else changes nothing. -/
def Faithful (c : Counter) (op : Op) (c' : Counter) : Prop :=
  c' = if c.min ≤ c.exactResult op ∧ c.exactResult op ≤ c.max then
    { c with value := c.exactResult op } else c

/-- Nothing within the bounds can be mistaken for the exact result: what is
congruent to it at the width of the promoted type is the result itself, or
the value as it is. `reset` computes nothing and cannot be mistaken. -/
def NoAlias (T : IntType) (c : Counter) (op : Op) : Prop :=
  (∀ value, op ≠ .reset value) → ∀ x, c.min ≤ x → x ≤ c.max →
    T.promoted.modulus ∣ c.exactResult op - x → x = c.exactResult op ∨ x = c.value

variable {T : IntType} {c : Counter}

/-- What lies within the bounds is a value of `T`. -/
theorem Valid.mem (h : c.Valid T) {x : Int} (hlo : c.min ≤ x) (hhi : x ≤ c.max) : T.Mem x :=
  ⟨Int.le_trans h.min_mem.1 hlo, Int.le_trans hhi h.max_mem.2⟩

theorem Valid.bounded_eq (h : c.Valid T) (r : Int) :
    c.bounded T r = if c.min ≤ r ∧ r ≤ c.max then some r else none := by
  unfold bounded
  by_cases hin : c.min ≤ r ∧ r ≤ c.max
  · rw [if_pos hin, if_neg (by omega), T.wrap_of_mem (h.mem hin.1 hin.2)]
  · rw [if_neg hin, if_pos (by omega)]

/-- The loop stores a result within the bounds, however often the swap
fails before it succeeds. -/
theorem Valid.update_eq (h : c.Valid T) (f : Int → Int) (fails : Nat) :
    c.update T f fails
      = (if c.min ≤ f c.value ∧ f c.value ≤ c.max then { c with value := f c.value } else c,
          c.value) := by
  have hd := h.bounded_eq (f c.value)
  by_cases hin : c.min ≤ f c.value ∧ f c.value ≤ c.max
  · rw [if_pos hin] at hd ⊢
    induction fails with
    | zero => rw [update, hd]
    | succ n ih => rw [update, hd, ih]
  · rw [if_neg hin] at hd ⊢
    cases fails with
    | zero => rw [update, hd]
    | succ n => rw [update, hd]

/-- The machine's result is the exact one, wrapped. -/
theorem result_eq (T : IntType) (c : Counter) {op : Op} (hop : ∀ value, op ≠ .reset value) :
    c.result T op c.value = T.promoted.wrap (c.exactResult op) := by
  cases op with
  | reset value => exact absurd rfl (hop value)
  | plusPlus | plusPlusPost | inc => rfl
  | minusMinus | minusMinusPost | dec => rfl
  | plusEq arg => rfl
  | minusEq arg => rfl
  | timesEq arg => rfl

/-- **One operation** stores the machine's result if it lies within the
bounds. -/
theorem Valid.exec_eq (h : c.Valid T) (op : Op) (fails : Nat) :
    (c.exec T op fails).1
      = if c.min ≤ c.result T op c.value ∧ c.result T op c.value ≤ c.max then
          { c with value := c.result T op c.value } else c := by
  cases op with
  | reset value =>
    have hres : c.result T (.reset value) c.value = value := rfl
    have hexec : (c.exec T (.reset value) fails).1 = c.reset value := rfl
    rw [hres, hexec, reset]
    by_cases hin : c.min ≤ value ∧ value ≤ c.max
    · rw [if_pos hin, if_neg (by omega)]
    · rw [if_neg hin, if_pos (by omega)]
  | plusPlus | plusPlusPost | inc | minusMinus | minusMinusPost | dec | plusEq | minusEq | timesEq =>
    simp only [exec, h.update_eq]

/-- The bounds are kept. -/
theorem Valid.exec (h : c.Valid T) (op : Op) (fails : Nat) : (c.exec T op fails).1.Valid T := by
  rw [h.exec_eq]
  split
  next hin => exact ⟨h.min_mem, h.max_mem, hin.1, hin.2⟩
  next => exact h

/-- **One operation is exact** if and only if its result cannot be
mistaken. -/
theorem Valid.faithful_iff (h : c.Valid T) (op : Op) (fails : Nat) :
    c.Faithful op (c.exec T op fails).1 ↔ c.NoAlias T op := by
  by_cases hreset : ∀ value, op ≠ .reset value
  · -- `m` is the wrapped result; of the numbers within the bounds it alone is congruent to `r`
    obtain ⟨m, hm⟩ : ∃ m, m = T.promoted.wrap (c.exactResult op) := ⟨_, rfl⟩
    have hunique {x : Int} (hlo : c.min ≤ x) (hhi : x ≤ c.max)
        (hdvd : T.promoted.modulus ∣ c.exactResult op - x) : x = m := by
      rw [hm, T.promoted.wrap_eq_of_dvd (T.mem_promoted (h.mem hlo hhi)) hdvd]
    have hcongr : T.promoted.modulus ∣ c.exactResult op - m := by
      rw [hm]; exact T.promoted.modulus_dvd_sub_wrap _
    rw [Faithful, h.exec_eq, result_eq T c hreset, ← hm]
    by_cases hr : c.min ≤ c.exactResult op ∧ c.exactResult op ≤ c.max
    · have hmr : m = c.exactResult op := by
        rw [hm, T.promoted.wrap_of_mem (T.mem_promoted (h.mem hr.1 hr.2))]
      refine iff_of_true ?_ fun _ x hlo hhi hdvd => .inl ((hunique hlo hhi hdvd).trans hmr)
      rw [hmr]
    · rw [if_neg hr]
      constructor
      · intro hsame _ x hlo hhi hdvd
        have hx := hunique hlo hhi hdvd
        subst hx
        rw [if_pos ⟨hlo, hhi⟩] at hsame
        exact .inr (congrArg Counter.value hsame)
      · intro hno
        by_cases hin : c.min ≤ m ∧ m ≤ c.max
        · have hmv : m = c.value := by
            refine (hno hreset m hin.1 hin.2 hcongr).resolve_left fun hmr => hr ?_
            rwa [hmr] at hin
          rw [if_pos hin, hmv]
        · rw [if_neg hin]
  · obtain ⟨value, rfl⟩ : ∃ value, op = .reset value := by
      by_contra hno
      exact hreset fun value heq => hno ⟨value, heq⟩
    refine iff_of_true ?_ fun h => absurd rfl (h value)
    rw [Faithful, h.exec_eq]
    rfl

/-! ## Runs -/

/-- **Bounded counters.** Over every run from a value within the bounds,
however often each swap fails: the value stays within the bounds, which do
not change; and every step is exact if and only if at every step nothing
within the bounds can be mistaken for the exact result. -/
theorem run_exact_iff (ops : List (Op × Nat)) (h : c.Valid T) :
    (∀ t ∈ c.steps T ops, t.2.2.min = c.min ∧ t.2.2.max = c.max ∧
      c.min ≤ t.2.2.value ∧ t.2.2.value ≤ c.max) ∧
    ((∀ t ∈ c.steps T ops, t.1.Faithful t.2.1 t.2.2) ↔
      ∀ t ∈ c.steps T ops, t.1.NoAlias T t.2.1) := by
  induction ops generalizing c with
  | nil => exact ⟨by simp [steps], by simp [steps]⟩
  | cons o ops ih =>
    obtain ⟨op, fails⟩ := o
    have hvalid := h.exec op fails
    have hbounds : (c.exec T op fails).1.min = c.min ∧ (c.exec T op fails).1.max = c.max := by
      rw [h.exec_eq]
      split <;> exact ⟨rfl, rfl⟩
    obtain ⟨hrange, hiff⟩ := ih hvalid
    rw [hbounds.1, hbounds.2] at hrange
    simp only [steps, List.forall_mem_cons]
    refine ⟨⟨⟨hbounds.1, hbounds.2, ?_, ?_⟩, hrange⟩, ?_⟩
    · rw [← hbounds.1]; exact hvalid.le_value
    · rw [← hbounds.2]; exact hvalid.value_le
    · rw [h.faithful_iff op fails, hiff]

/-- One below zero: `counter<uint32_t>(0)` counts down to 4294967295. -/
theorem not_exact_uint32 :
    (ofValue .uint32 0).steps .uint32 [(.minusMinus, 0)]
        = [(ofValue .uint32 0, .minusMinus, { ofValue .uint32 0 with value := 4294967295 })] ∧
      ¬ (ofValue .uint32 0).Faithful .minusMinus { ofValue .uint32 0 with value := 4294967295 } := by
  refine ⟨by decide, ?_⟩
  unfold Faithful
  decide

/-- Up to a bound and no further, then back. -/
theorem run_exact_iff_bounded :
    (∀ t ∈ steps .int32 ⟨4, 0, 5, 1⟩ [(.inc, 0), (.inc, 2), (.dec, 1)],
      t.2.2.min = 0 ∧ t.2.2.max = 5 ∧ 0 ≤ t.2.2.value ∧ t.2.2.value ≤ 5) ∧
    ((∀ t ∈ steps .int32 ⟨4, 0, 5, 1⟩ [(.inc, 0), (.inc, 2), (.dec, 1)],
      t.1.Faithful t.2.1 t.2.2) ↔
      ∀ t ∈ steps .int32 ⟨4, 0, 5, 1⟩ [(.inc, 0), (.inc, 2), (.dec, 1)],
        t.1.NoAlias .int32 t.2.1) :=
  run_exact_iff _ ⟨by decide, by decide, by decide, by decide⟩

/-! ## Narrow types -/

/-- The operand of the operation is a value of `T`. -/
def Op.Operand (T : IntType) : Op → Prop
  | .plusEq (.val a) | .minusEq (.val a) | .timesEq (.val a) => T.Mem a
  | _ => True

/-- Values of a type of 8 or 16 bits, and their products. -/
theorem narrow_bounds (hT : T.width.bits < 32) {x y : Int} (hx : T.Mem x) (hy : T.Mem y) :
    -32768 ≤ x ∧ x ≤ 65535 ∧ -1073741824 ≤ x * y ∧ x * y ≤ 4294836225 := by
  have hcases : (-32768 ≤ T.min ∧ T.max ≤ 32767) ∨ (T.min = 0 ∧ T.max ≤ 65535) := by
    obtain ⟨w, s⟩ := T
    revert hT
    cases w <;> cases s <;> decide
  obtain ⟨hx1, hx2⟩ := hx
  obtain ⟨hy1, hy2⟩ := hy
  rcases hcases with ⟨hmin, hmax⟩ | ⟨hmin, hmax⟩
  · refine ⟨by omega, by omega, ?_, ?_⟩
    · nlinarith [mul_nonneg (show 0 ≤ x + 32768 by omega) (show 0 ≤ y + 32768 by omega),
        mul_nonneg (show 0 ≤ 32768 - x by omega) (show 0 ≤ 32768 - y by omega)]
    · nlinarith [mul_nonneg (show 0 ≤ x + 32768 by omega) (show 0 ≤ 32768 - y by omega),
        mul_nonneg (show 0 ≤ 32768 - x by omega) (show 0 ≤ y + 32768 by omega)]
  · have hxy := mul_nonneg (show 0 ≤ x by omega) (show 0 ≤ y by omega)
    refine ⟨by omega, by omega, by omega, ?_⟩
    nlinarith [mul_nonneg (show 0 ≤ 65535 - x by omega) (show 0 ≤ y by omega)]

/-- **Narrow types cannot be mistaken**: at 32 bits there is room for every
sum, difference and product of 16-bit values. -/
theorem noAlias_of_narrow (hT : T.width.bits < 32) (h : c.Valid T) (hstep : T.Mem c.step)
    {op : Op} (hop : op.Operand T) : c.NoAlias T op := by
  have hmod : T.promoted.modulus = 4294967296 := by
    obtain ⟨w, s⟩ := T
    revert hT
    cases w <;> cases s <;> decide
  have hv := h.mem h.le_value h.value_le
  intro hreset x hlo hhi hdvd
  obtain ⟨hx1, hx2, -⟩ := narrow_bounds hT (h.mem hlo hhi) hv
  -- the exact result is less than 2^32 away from everything within the bounds
  suffices hnear : -4294967296 < c.exactResult op - x ∧ c.exactResult op - x < 4294967296 by
    obtain ⟨k, hk⟩ := hdvd
    rw [hmod] at hk
    exact .inl (by omega)
  obtain ⟨hv1, hv2, -⟩ := narrow_bounds hT hv hv
  have hread {arg : Arg} (hmem : ∀ a, arg = .val a → T.Mem a) : T.Mem (arg.read c.value) := by
    cases arg with
    | val a => exact hmem a rfl
    | self => exact hv
  cases op with
  | reset value => exact absurd rfl (hreset value)
  | plusPlus | plusPlusPost | inc | minusMinus | minusMinusPost | dec =>
    obtain ⟨h1, h2, -⟩ := narrow_bounds hT hstep hv
    simp only [exactResult]
    omega
  | plusEq arg | minusEq arg =>
    have hmem : T.Mem (arg.read c.value) := hread fun a ha => by subst ha; exact hop
    obtain ⟨h1, h2, -⟩ := narrow_bounds hT hmem hv
    simp only [exactResult]
    omega
  | timesEq arg =>
    have hmem : T.Mem (arg.read c.value) := hread fun a ha => by subst ha; exact hop
    obtain ⟨-, -, h1, h2⟩ := narrow_bounds hT hv hmem
    simp only [exactResult]
    omega

end HighJump.Sync.Counter
