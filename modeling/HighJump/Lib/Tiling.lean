/-
HighJump.Lib.Tiling — an ordered type cut into consecutive tiles.

The tiles are numbered by the integers, tile `i` holding what is from
`start i` on and before `start (i + 1)`; `index` finds the tile. Tiles
are unions of smaller ones by composition: `S.trans T` cuts the numbers
of `S`'s tiles by `T`, and its tiles are those of `S` joined.
-/
import Mathlib.Order.Monotone.Basic
import Mathlib.Algebra.Order.Group.Int
import Mathlib.Tactic.Common

namespace HighJump.Lib

universe u

/-- Consecutive tiles `[start i, start (i + 1))`, none of them empty. -/
structure Tiling (α : Type u) [LinearOrder α] where
  index : α → Int
  start : Int → α
  start_index_le : ∀ a, start (index a) ≤ a
  lt_start_succ : ∀ a, a < start (index a + 1)
  start_lt_start_succ : ∀ i, start i < start (i + 1)

namespace Tiling

variable {α : Type u} [LinearOrder α] (T : Tiling α)

theorem start_lt_iff {i j : Int} : T.start i < T.start j ↔ i < j :=
  (strictMono_int_of_lt_succ T.start_lt_start_succ).lt_iff_lt

theorem start_mono {i j : Int} (h : i ≤ j) : T.start i ≤ T.start j :=
  (strictMono_int_of_lt_succ T.start_lt_start_succ).monotone h

/-- What is in a tile has its number. -/
theorem index_eq_iff {a : α} {i : Int} : T.index a = i ↔ T.start i ≤ a ∧ a < T.start (i + 1) := by
  constructor
  · rintro rfl
    exact ⟨T.start_index_le a, T.lt_start_succ a⟩
  · rintro ⟨hle, hlt⟩
    -- a lower number ends too early, a higher one starts too late
    have hlo : i < T.index a + 1 :=
      T.start_lt_iff.mp (lt_of_le_of_lt hle (T.lt_start_succ a))
    have hhi : T.index a < i + 1 :=
      T.start_lt_iff.mp (lt_of_le_of_lt (T.start_index_le a) hlt)
    omega

@[simp] theorem index_start (i : Int) : T.index (T.start i) = i :=
  T.index_eq_iff.mpr ⟨le_refl _, T.start_lt_start_succ i⟩

theorem le_index_iff {a : α} {i : Int} : i ≤ T.index a ↔ T.start i ≤ a := by
  constructor
  · intro h
    exact le_trans (T.start_mono h) (T.start_index_le a)
  · intro h
    have hlt : i < T.index a + 1 :=
      T.start_lt_iff.mp (lt_of_le_of_lt h (T.lt_start_succ a))
    omega

theorem index_lt_iff {a : α} {i : Int} : T.index a < i ↔ a < T.start i := by
  rw [← not_le, T.le_index_iff, not_le]

theorem index_mono {a b : α} (h : a ≤ b) : T.index a ≤ T.index b :=
  T.le_index_iff.mpr (le_trans (T.start_index_le a) h)

/-- The tiles of `S`, joined as `T` joins their numbers. -/
def trans (S : Tiling α) (T : Tiling Int) : Tiling α where
  index a := T.index (S.index a)
  start i := S.start (T.start i)
  start_index_le _ := S.le_index_iff.mp (T.start_index_le _)
  lt_start_succ _ := S.index_lt_iff.mp (T.lt_start_succ _)
  start_lt_start_succ i := S.start_lt_iff.mpr (T.start_lt_start_succ i)

@[simp] theorem trans_index (S : Tiling α) (T : Tiling Int) (a : α) :
    (S.trans T).index a = T.index (S.index a) := rfl

@[simp] theorem trans_start (S : Tiling α) (T : Tiling Int) (i : Int) :
    (S.trans T).start i = S.start (T.start i) := rfl

/-- No tile of `S` reaches across a border of `T`. -/
def Refines (S T : Tiling α) : Prop := ∀ a b, S.index a = S.index b → T.index a = T.index b

/-- A finer tile lies within the coarser one. -/
theorem Refines.within {S T : Tiling α} (h : S.Refines T) (a : α) :
    T.start (T.index a) ≤ S.start (S.index a) ∧
      S.start (S.index a + 1) ≤ T.start (T.index a + 1) := by
  constructor
  · have hfirst : T.index (S.start (S.index a)) = T.index a := h _ _ (S.index_start _)
    rw [← hfirst]
    exact T.start_index_le _
  · -- otherwise the coarser tile's end would be a point of the finer one
    by_contra hlt
    have hlo : S.start (S.index a) ≤ T.start (T.index a + 1) :=
      le_trans (S.start_index_le a) (T.lt_start_succ a).le
    have hin : S.index (T.start (T.index a + 1)) = S.index a :=
      S.index_eq_iff.mpr ⟨hlo, not_le.mp hlt⟩
    have hsame := h _ _ hin
    rw [T.index_start] at hsame
    omega

theorem refines_trans (S : Tiling α) (T : Tiling Int) : S.Refines (S.trans T) :=
  fun _ _ h => congrArg T.index h

theorem Refines.trans_left (S : Tiling α) {T T' : Tiling Int} (h : T.Refines T') :
    (S.trans T).Refines (S.trans T') := fun a b => h (S.index a) (S.index b)

/-- Tiles of `k` integers each, number 0 starting at `-shift`. -/
def blocks (k shift : Int) (hk : 0 < k) : Tiling Int where
  index a := (a + shift) / k
  start i := k * i - shift
  start_index_le a := by
    have h := Int.mul_ediv_self_le (x := a + shift) (k := k) (by omega)
    omega
  lt_start_succ a := by
    have h := Int.lt_mul_ediv_self_add (x := a + shift) hk
    have hmul : k * ((a + shift) / k + 1) = k * ((a + shift) / k) + k := by
      rw [Int.mul_add, Int.mul_one]
    omega
  start_lt_start_succ i := by
    have hmul : k * (i + 1) = k * i + k := by rw [Int.mul_add, Int.mul_one]
    omega

@[simp] theorem blocks_index (k shift : Int) (hk : 0 < k) (a : Int) :
    (blocks k shift hk).index a = (a + shift) / k := rfl

@[simp] theorem blocks_start (k shift : Int) (hk : 0 < k) (i : Int) :
    (blocks k shift hk).start i = k * i - shift := rfl

end Tiling

end HighJump.Lib
