/-
HighJump.Math.MatrixHeapTheorems — when the accesses of `matrix<T>` are
inside its blocks.

Each private function comes to one heap, if its accesses are in bounds:
`create_eq`, `clean_eq`, `copyCells_eq`, `copyN_eq`. An operation on
matrices replaces at most one buffer by another (`Swaps`), and that keeps
what every matrix owns and deletes exactly the rows that were allocated
(`Sound.replace`). It goes wrong in two ways only, more rows than columns
and a row of a vector that is too short, so a run is in bounds exactly if
it keeps off these (`run_in_bounds_iff`).
-/
import HighJump.Lib.Ownership
import HighJump.Math.MatrixHeap
import HighJump.Math.MatrixTheorems

namespace HighJump.Math.MatrixHeap

open HighJump.Lib

variable {T : Type} {h : Heap T} {buf R C : Nat} {f : Nat → Nat → T}

/-! ## The buffer of a matrix -/

/-- A table of `C` pointers, the first `R` of them to rows of `C` cells. -/
def grid (C R : Nat) (f : Nat → Nat → T) : Table T :=
  { size := C, elem := fun r => if r < R then some { size := C, elem := f r } else none }

/-- Behind `_create`. -/
def Heap.created (h : Heap T) (blank : T) (R C : Nat) : Heap T :=
  { h.put h.next (grid C R fun _ _ => blank) with
    next := h.next + 1
    allocated := Function.update h.allocated h.next (h.allocated h.next ++ List.range R) }

/-- Behind `_clean`. -/
def Heap.cleaned (h : Heap T) (buf R : Nat) : Heap T :=
  { h with
    tables := Function.update h.tables buf none
    freed := Function.update h.freed buf (h.freed buf ++ List.range R) }

theorem grid_get {r : Nat} (hr : r < R) (hRC : R ≤ C) :
    (grid C R f).get r = some (some { size := C, elem := f r }) := by
  have hlt : r < (grid C R f).size := Nat.lt_of_lt_of_le hr hRC
  rw [Block.get, if_pos hlt]
  exact congrArg some (if_pos hr)

/-- One cell of a grid is set. -/
theorem grid_set {r c : Nat} (hr : r < R) (hRC : R ≤ C) (value : T) :
    (grid C R f).set r (some { size := C, elem := Function.update (f r) c value }) =
      some (grid C R fun j k => if j = r ∧ k = c then value else f j k) := by
  have hlt : r < (grid C R f).size := Nat.lt_of_lt_of_le hr hRC
  rw [Block.set, if_pos hlt, grid, grid, Option.some.injEq, Block.mk.injEq]
  refine ⟨rfl, funext fun j => ?_⟩
  by_cases hj : j = r
  · subst hj
    rw [Function.update_self, if_pos hr, Option.some.injEq, Block.mk.injEq]
    refine ⟨rfl, funext fun k => ?_⟩
    by_cases hk : k = c
    · rw [hk, Function.update_self, if_pos ⟨rfl, rfl⟩]
    · rw [Function.update_of_ne hk, if_neg fun hand => hk hand.2]
  · rw [Function.update_of_ne hj]
    refine if_congr Iff.rfl ?_ rfl
    rw [Option.some.injEq, Block.mk.injEq]
    exact ⟨rfl, funext fun k => (if_neg fun hand => hj hand.1).symm⟩

namespace Heap

@[simp] theorem tables_put_self (t : Table T) : (h.put buf t).tables buf = some t :=
  Function.update_self ..

@[simp] theorem tables_put_ne {other : Nat} (hne : other ≠ buf) (t : Table T) :
    (h.put buf t).tables other = h.tables other :=
  Function.update_of_ne hne ..

theorem tables_created (blank : T) :
    (h.created blank R C).tables h.next = some (grid C R fun _ _ => blank) :=
  Function.update_self ..

@[simp] theorem put_put (t t' : Table T) : (h.put buf t).put buf t' = h.put buf t' := by
  exact Heap.ext rfl (Function.update_idem ..) rfl rfl

theorem put_eq_self {t : Table T} (ht : h.tables buf = some t) : h.put buf t = h := by
  rw [put, ← ht, Function.update_eq_self]

theorem cell_grid (ht : h.tables buf = some (grid C R f)) {r c : Nat} (hr : r < R) (hRC : R ≤ C)
    (hc : c < C) : h.cell buf r c = some (f r c) := by
  rw [cell, ht, Option.bind_eq_bind, Option.bind_some, grid_get hr hRC]
  exact if_pos hc

theorem setCell_grid (ht : h.tables buf = some (grid C R f)) {r c : Nat} (hr : r < R)
    (hRC : R ≤ C) (hc : c < C) (value : T) :
    h.setCell buf r c value =
      some (h.put buf (grid C R fun j k => if j = r ∧ k = c then value else f j k)) := by
  have hrow : Block.set { size := C, elem := f r } c value =
      some { size := C, elem := Function.update (f r) c value } := if_pos hc
  rw [setCell, ht, Option.bind_eq_bind, Option.bind_some, grid_get hr hRC, Option.bind_eq_bind,
    Option.bind_some, Option.bind_eq_bind, Option.bind_some, hrow, Option.bind_some,
    grid_set hr hRC]
  rfl

end Heap

/-! ## `_create` -/

/-- The next row of a table. -/
theorem newRow_created {blank : T} {i : Nat} (hi : i < C) :
    (h.created blank i C).newRow blank h.next i C = some (h.created blank (i + 1) C) := by
  have ht := h.tables_created (R := i) (C := C) blank
  have hset : (grid C i fun _ _ => blank).set i (some { size := C, elem := fun _ => blank }) =
      some (grid C (i + 1) fun _ _ => blank) := by
    rw [Block.set, if_pos (show i < (grid C i fun _ _ => blank).size from hi), grid, grid,
      Option.some.injEq, Block.mk.injEq]
    refine ⟨rfl, funext fun r => ?_⟩
    by_cases hr : r = i
    · rw [hr, Function.update_self, if_pos (Nat.lt_succ_self i)]
    · rw [Function.update_of_ne hr]
      exact if_congr (by omega) rfl rfl
  rw [Heap.newRow, ht, Option.bind_eq_bind, Option.bind_some, hset, Option.bind_some]
  refine congrArg some (Heap.ext rfl ?_ ?_ rfl)
  · exact Function.update_idem ..
  · change Function.update (Function.update h.allocated h.next _) h.next
      (Function.update h.allocated h.next _ h.next ++ [i]) = _
    rw [Function.update_idem, Function.update_self, List.append_assoc, ← List.range_succ]
    rfl

theorem newTable_eq (blank : T) : h.newTable C = h.created blank 0 C := by
  have hgrid : (grid C 0 fun _ _ => blank) = { size := C, elem := fun _ => none } := by
    rw [grid, Block.mk.injEq]
    exact ⟨rfl, funext fun r => if_neg (Nat.not_lt_zero r)⟩
  rw [Heap.newTable, Heap.created, hgrid, List.range_zero, List.append_nil,
    Function.update_eq_self]
  rfl

theorem forUp_newRow {blank : T} (hRC : R ≤ C) :
    forUp (fun row h' => h'.newRow blank h.next row C) R 0 (h.newTable C) =
      some (h.created blank R C) := by
  obtain ⟨h', hloop, heq⟩ := @forUp_spec _ (fun row h' => h'.newRow blank h.next row C)
    (fun i h' => h' = h.created blank i C) R 0 (h.newTable C)
    (fun i h' _ hi heq => ⟨_, heq ▸ newRow_created (by omega), rfl⟩) (newTable_eq blank)
  rw [hloop, heq, Nat.zero_add]

theorem create_eq {blank : T} {rowN colN : Int} (hcol : 0 ≤ colN) (hle : rowN ≤ colN) :
    create blank h rowN colN = some (some h.next, h.created blank rowN.toNat colN.toNat) := by
  have hrows : forUp (fun row h' => h'.newRow blank h.next row colN.toNat) rowN.toNat 0
      (h.newTable colN.toNat) = _ := forUp_newRow (by omega)
  rw [create, if_neg (by omega)]
  simp only [hrows]
  rfl

/-- **More rows than columns**: the table is full before the rows are. -/
theorem create_eq_none {blank : T} {rowN colN : Int} (hcol : 0 ≤ colN) (hlt : colN < rowN) :
    create blank h rowN colN = none := by
  obtain ⟨k, hk⟩ : ∃ k, rowN.toNat = colN.toNat + (k + 1) :=
    ⟨rowN.toNat - colN.toNat - 1, by omega⟩
  have hfull : (h.created blank colN.toNat colN.toNat).newRow blank h.next colN.toNat colN.toNat =
      none := by
    have ht := h.tables_created (R := colN.toNat) (C := colN.toNat) blank
    rw [Heap.newRow, ht, Option.bind_eq_bind, Option.bind_some, Block.set,
      if_neg (show ¬ colN.toNat < (grid colN.toNat colN.toNat fun _ _ => blank).size from
        Nat.lt_irrefl _)]
    rfl
  have hrows : forUp (fun row h' => h'.newRow blank h.next row colN.toNat) colN.toNat 0
      (h.newTable colN.toNat) = _ := forUp_newRow (Nat.le_refl colN.toNat)
  rw [create, if_neg (by omega)]
  simp only [hk, forUp_add, hrows, Option.bind_some, Nat.zero_add, forUp, hfull, Option.bind_none,
    Option.map_none]

/-! ## `_clean` -/

/-- A grid without its first `i` rows. -/
def rest (C R : Nat) (f : Nat → Nat → T) (i : Nat) : Table T :=
  { size := C, elem := fun r => if i ≤ r ∧ r < R then some { size := C, elem := f r } else none }

theorem rest_get {i : Nat} (hi : i < R) (hRC : R ≤ C) :
    (rest C R f i).get i = some (some { size := C, elem := f i }) := by
  have hlt : i < (rest C R f i).size := Nat.lt_of_lt_of_le hi hRC
  rw [Block.get, if_pos hlt]
  exact congrArg some (if_pos ⟨Nat.le_refl i, hi⟩)

theorem rest_set {i : Nat} (hi : i < R) (hRC : R ≤ C) :
    (rest C R f i).set i none = some (rest C R f (i + 1)) := by
  have hlt : i < (rest C R f i).size := Nat.lt_of_lt_of_le hi hRC
  rw [Block.set, if_pos hlt, rest, rest, Option.some.injEq, Block.mk.injEq]
  refine ⟨rfl, funext fun r => ?_⟩
  by_cases hr : r = i
  · rw [hr, Function.update_self, if_neg (by omega)]
  · rw [Function.update_of_ne hr]
    exact if_congr (by omega) rfl rfl

theorem rest_zero : rest C R f 0 = grid C R f := by
  rw [rest, grid, Block.mk.injEq]
  exact ⟨rfl, funext fun r => if_congr (and_iff_right (Nat.zero_le r)) rfl rfl⟩

/-- The heap with the first `i` rows of a grid deleted. -/
def Heap.cleaning (h : Heap T) (buf C R : Nat) (f : Nat → Nat → T) (i : Nat) : Heap T :=
  { h.put buf (rest C R f i) with
    freed := Function.update h.freed buf (h.freed buf ++ List.range i) }

theorem deleteRow_cleaning {i : Nat} (hi : i < R) (hRC : R ≤ C) :
    (h.cleaning buf C R f i).deleteRow buf i = some (h.cleaning buf C R f (i + 1)) := by
  have ht : (h.cleaning buf C R f i).tables buf = some (rest C R f i) := Function.update_self ..
  rw [Heap.deleteRow, ht, Option.bind_eq_bind, Option.bind_some, rest_get hi hRC,
    Option.bind_eq_bind, Option.bind_some, Option.bind_eq_bind, Option.bind_some,
    rest_set hi hRC, Option.bind_some]
  refine congrArg some (Heap.ext rfl ?_ rfl ?_)
  · exact Function.update_idem ..
  · change Function.update (Function.update h.freed buf _) buf
      (Function.update h.freed buf _ buf ++ [i]) = _
    rw [Function.update_idem, Function.update_self, List.append_assoc, ← List.range_succ]
    rfl

theorem clean_eq (ht : h.tables buf = some (grid C R f)) (hRC : R ≤ C) {rowN : Int}
    (hrow : rowN.toNat = R) : clean h buf rowN = some (h.cleaned buf R) := by
  have hstart : h = h.cleaning buf C R f 0 := by
    rw [Heap.cleaning, rest_zero, Heap.put_eq_self ht, List.range_zero, List.append_nil,
      Function.update_eq_self]
  obtain ⟨h', hloop, heq⟩ := @forUp_spec _ (fun row h' => h'.deleteRow buf row)
    (fun i h' => h' = h.cleaning buf C R f i) R 0 h
    (fun i h' _ hi heq => ⟨_, heq ▸ deleteRow_cleaning (by omega) hRC, rfl⟩) hstart
  have ht' : h'.tables buf = some (rest C R f (0 + R)) := by
    rw [heq]
    exact Function.update_self ..
  rw [clean, hrow, hloop, Option.bind_some, Heap.deleteTable, ht', Option.bind_eq_bind,
    Option.bind_some, heq, Nat.zero_add]
  exact congrArg some (Heap.ext rfl (Function.update_idem ..) rfl rfl)

/-! ## `_copy_from` and `_copy_n` -/

/-- `h` with the cells of `v` on `A` in the grid of `buf`. -/
def Copied (h : Heap T) (buf C R : Nat) (v f : Nat → Nat → T) (A : Nat × Nat → Prop)
    (h' : Heap T) : Prop :=
  ∃ f', h' = h.put buf (grid C R f') ∧ (∀ r c, A (r, c) → f' r c = v r c) ∧
    ∀ r c, ¬ A (r, c) → f' r c = f r c

/-- Copying a region that can be read. -/
theorem copyCells_eq (ht : h.tables buf = some (grid C R f)) (hRC : R ≤ C)
    {rhs : Heap T → Nat → Nat → Option T} {v : Nat → Nat → T} {rowN colN : Int}
    (hrow : rowN.toNat ≤ R) (hcol : colN.toNat ≤ C)
    (hrhs : ∀ r c t, r < rowN.toNat → c < colN.toNat → rhs (h.put buf t) r c = some (v r c)) :
    ∃ f', copyCells h buf rhs rowN colN = some (h.put buf (grid C R f')) ∧
      (∀ r c, r < rowN.toNat → c < colN.toNat → f' r c = v r c) ∧
      ∀ r c, ¬ (r < rowN.toNat ∧ c < colN.toNat) → f' r c = f r c := by
  have hloop := @forUp_union _ _ (fun row h =>
      forUp (fun col h => (rhs h row col).bind fun value => h.setCell buf row col value)
        colN.toNat 0 h)
    (Copied h buf C R v f) (fun row p => ∃ col, 0 ≤ col ∧ col < 0 + colN.toNat ∧ p = (row, col))
    rowN.toNat 0 (fun _ => False) h ?_ ?_
  · obtain ⟨h', hcopy, f', rfl, hin, hout⟩ := hloop
    refine ⟨f', hcopy, fun r c hr hc => hin r c (.inr ⟨r, Nat.zero_le r, by omega, c,
      Nat.zero_le c, by omega, rfl⟩), fun r c hno => hout r c ?_⟩
    rintro (hfalse | ⟨r', -, hr', c', -, hc', heq⟩)
    · exact hfalse
    · obtain ⟨rfl, rfl⟩ := Prod.mk.inj heq
      exact hno ⟨by omega, by omega⟩
  · intro row _ hrlt A h' hA
    refine forUp_union (Copied h buf C R v f) (fun col p => p = (row, col)) colN.toNat ?_ hA
    rintro col _ hclt A h' ⟨f', rfl, hin, hout⟩
    refine ⟨h.put buf (grid C R fun j k => if j = row ∧ k = col then v row col else f' j k), ?_, _,
      rfl, fun r c hp => ?_, fun r c hp => ?_⟩
    · rw [hrhs row col _ (by omega) (by omega), Option.bind_some,
        Heap.setCell_grid (Heap.tables_put_self _) (by omega) hRC (by omega), Heap.put_put]
    · by_cases hself : r = row ∧ c = col
      · rw [if_pos hself, hself.1, hself.2]
      · rw [if_neg hself]
        exact hin r c (hp.resolve_right fun heq => hself (Prod.mk.inj heq))
    · have hself : ¬ (r = row ∧ c = col) := by
        rintro ⟨rfl, rfl⟩
        exact hp (.inr rfl)
      rw [if_neg hself]
      exact hout r c fun hA => hp (.inl hA)
  · exact ⟨f, (Heap.put_eq_self ht).symm, fun _ _ hfalse => hfalse.elim, fun _ _ _ => rfl⟩

/-- One cell that cannot be read. -/
theorem copyCells_eq_none {rhs : Heap T → Nat → Nat → Option T} {rowN colN : Int} {r c : Nat}
    (hr : r < rowN.toNat) (hc : c < colN.toNat) (hrhs : ∀ h', rhs h' r c = none) :
    copyCells h buf rhs rowN colN = none := by
  refine forUp_eq_none (i := r) (fun h' => ?_) rowN.toNat 0 h (Nat.zero_le r) (by omega)
  refine forUp_eq_none (i := c) (fun h' => ?_) colN.toNat 0 h' (Nat.zero_le c) (by omega)
  rw [hrhs]
  rfl

theorem copyN_eq (ht : h.tables buf = some (grid C R f)) (hRC : R ≤ C) {rowN colN : Int}
    (hrow : rowN.toNat = R) (hcol : colN.toNat = C) (value : T) :
    ∃ f', copyN h buf rowN colN value = some (h.put buf (grid C R f')) := by
  have hloop := @forUp_spec _ (fun row (s : Heap T × Int) =>
      forUp (fun col s =>
          if s.2 = 0 then some s
          else (s.1.setCell buf row col value).map fun h => (h, IntType.int32.wrap (s.2 - 1)))
        colN.toNat 0 s)
    (fun _ s => ∃ f', s.1 = h.put buf (grid C R f')) rowN.toNat 0
    (h, IntType.int32.wrap (rowN * colN)) ?_ ⟨f, (Heap.put_eq_self ht).symm⟩
  · obtain ⟨s, hcopy, f', hf'⟩ := hloop
    exact ⟨f', by rw [copyN, hcopy, Option.map_some, hf']⟩
  · intro row s _ hrlt hs
    refine forUp_spec (fun _ s => ∃ f', s.1 = h.put buf (grid C R f')) colN.toNat 0 s ?_ hs
    rintro col ⟨h', n⟩ _ hclt ⟨f', heq⟩
    obtain rfl : h' = _ := heq
    by_cases hn : n = 0
    · exact ⟨_, if_pos hn, f', rfl⟩
    · refine ⟨(h.put buf (grid C R fun j k => if j = row ∧ k = col then value else f' j k),
        IntType.int32.wrap (n - 1)), (if_neg hn).trans ?_, _, rfl⟩
      rw [Heap.setCell_grid (Heap.tables_put_self _) (by omega) hRC (by omega), Option.map_some,
        Heap.put_put]

/-! ## What a world should be -/

/-- Each matrix has a buffer of its own, with the rows it was allocated,
and there are no other buffers; of a buffer that is gone exactly the rows
were deleted that were allocated for it. -/
structure World.Sound (w : World T) : Prop where
  shape : ∀ k m, w.mats k = some m → 0 ≤ m.colN ∧ m.rowN ≤ m.colN ∧
    ∃ f, w.heap.tables m.buf = some (grid m.colN.toNat m.rowN.toNat f)
  own : ∀ k k' m m', w.mats k = some m → w.mats k' = some m' → m.buf = m'.buf → k = k'
  kept : ∀ k m, w.mats k = some m →
    w.heap.allocated m.buf = List.range m.rowN.toNat ∧ w.heap.freed m.buf = []
  noOther : ∀ b t, w.heap.tables b = some t → ∃ k m, w.mats k = some m ∧ m.buf = b
  gone : ∀ b, w.heap.tables b = none → w.heap.freed b = w.heap.allocated b
  unmade : ∀ b, w.heap.next ≤ b → w.heap.tables b = none ∧ w.heap.allocated b = []

theorem sound_new : (World.new : World T).Sound where
  shape := nofun
  own := nofun
  kept := nofun
  noOther := nofun
  gone _ _ := rfl
  unmade _ _ := ⟨rfl, rfl⟩

/-- From `h` to `h'` the buffer of `old` is deleted and the one of `new`
is made. -/
structure Swaps (h : Heap T) (old new : Option Obj) (h' : Heap T) : Prop where
  next_le : h.next ≤ h'.next
  new_fresh : ∀ m, new = some m → h.next ≤ m.buf ∧ m.buf < h'.next
  new_shape : ∀ m, new = some m → 0 ≤ m.colN ∧ m.rowN ≤ m.colN ∧
    ∃ f, h'.tables m.buf = some (grid m.colN.toNat m.rowN.toNat f)
  new_kept : ∀ m, new = some m →
    h'.allocated m.buf = List.range m.rowN.toNat ∧ h'.freed m.buf = []
  old_gone : ∀ m, old = some m → h'.tables m.buf = none ∧
    h'.freed m.buf = List.range m.rowN.toNat ∧ h'.allocated m.buf = h.allocated m.buf
  other : ∀ b, (∀ m, old = some m → m.buf ≠ b) → (∀ m, new = some m → m.buf ≠ b) →
    h'.tables b = h.tables b ∧ h'.allocated b = h.allocated b ∧ h'.freed b = h.freed b

/-- The new buffer is none of those there were. -/
theorem Swaps.new_ne {old new : Option Obj} {h' : Heap T} (hs : Swaps h old new h') {m : Obj}
    (hm : new = some m) {b : Nat} (hb : b < h.next) : m.buf ≠ b := by
  have hfresh := (hs.new_fresh m hm).1
  omega

section Replace

variable {w : World T} {k : Nat} {new : Option Obj} {h' : Heap T}

theorem World.Sound.buf_lt (hw : w.Sound) {j : Nat} {m : Obj} (hm : w.mats j = some m) :
    m.buf < w.heap.next := by
  obtain ⟨-, -, f, ht⟩ := hw.shape j m hm
  by_contra hge
  rw [(hw.unmade m.buf (by omega)).1] at ht
  cases ht

/-- The other matrices do not notice. -/
theorem Swaps.frame (hs : Swaps w.heap (w.mats k) new h') (hw : w.Sound) {j : Nat} {m : Obj}
    (hj : j ≠ k) (hm : w.mats j = some m) :
    h'.tables m.buf = w.heap.tables m.buf ∧ h'.allocated m.buf = w.heap.allocated m.buf ∧
      h'.freed m.buf = w.heap.freed m.buf := by
  refine hs.other m.buf (fun old hold heq => ?_) (fun m' hm' heq => ?_)
  · exact hj (hw.own k j old m hold hm heq).symm
  · exact hs.new_ne hm' (hw.buf_lt hm) heq

/-- A buffer is the new one, or the one that goes, or is left alone. -/
theorem Swaps.buf_cases (hs : Swaps w.heap (w.mats k) new h') (b : Nat) :
    (∃ m, new = some m ∧ m.buf = b) ∨ (∃ m, w.mats k = some m ∧ m.buf = b) ∨
      ((∀ m, w.mats k = some m → m.buf ≠ b) ∧ h'.tables b = w.heap.tables b ∧
        h'.allocated b = w.heap.allocated b ∧ h'.freed b = w.heap.freed b) := by
  by_cases hnew : ∃ m, new = some m ∧ m.buf = b
  · exact .inl hnew
  · by_cases hold : ∃ m, w.mats k = some m ∧ m.buf = b
    · exact .inr (.inl hold)
    · have hkept : ∀ m, w.mats k = some m → m.buf ≠ b := fun m hm heq => hold ⟨m, hm, heq⟩
      exact .inr (.inr ⟨hkept, hs.other b hkept fun m hm heq => hnew ⟨m, hm, heq⟩⟩)

/-- **One buffer for another**, and the world is as it should be. -/
theorem World.Sound.replace (hw : w.Sound) (hs : Swaps w.heap (w.mats k) new h') :
    World.Sound { heap := h', mats := Function.update w.mats k new } := by
  constructor
  case shape =>
    intro j m hm
    rcases update_cases hm with ⟨-, hnew⟩ | ⟨hj, hold⟩
    · exact hs.new_shape m hnew
    · obtain ⟨hcol, hle, f, ht⟩ := hw.shape j m hold
      exact ⟨hcol, hle, f, (hs.frame hw hj hold).1.trans ht⟩
  case own =>
    intro j j' m m' hm hm' heq
    rcases update_cases hm with ⟨hj, hnew⟩ | ⟨-, hold⟩
    · rcases update_cases hm' with ⟨hj', -⟩ | ⟨-, hold'⟩
      · rw [hj, hj']
      · exact absurd heq (hs.new_ne hnew (hw.buf_lt hold'))
    · rcases update_cases hm' with ⟨-, hnew'⟩ | ⟨-, hold'⟩
      · exact absurd heq.symm (hs.new_ne hnew' (hw.buf_lt hold))
      · exact hw.own j j' m m' hold hold' heq
  case kept =>
    intro j m hm
    rcases update_cases hm with ⟨-, hnew⟩ | ⟨hj, hold⟩
    · exact hs.new_kept m hnew
    · obtain ⟨-, halloc, hfreed⟩ := hs.frame hw hj hold
      obtain ⟨hrange, hnil⟩ := hw.kept j m hold
      exact ⟨halloc.trans hrange, hfreed.trans hnil⟩
  case noOther =>
    intro b t ht
    change h'.tables b = some t at ht
    rcases hs.buf_cases b with ⟨m, hm, hb⟩ | ⟨m, hm, rfl⟩ | ⟨hkept, hsame, -, -⟩
    · exact ⟨k, m, (Function.update_self ..).trans hm, hb⟩
    · rw [(hs.old_gone m hm).1] at ht
      cases ht
    · obtain ⟨j, m, hm, hb⟩ := hw.noOther b t (hsame.symm.trans ht)
      have hj : j ≠ k := by
        rintro rfl
        exact hkept m hm hb
      exact ⟨j, m, (Function.update_of_ne hj ..).trans hm, hb⟩
  case gone =>
    intro b hb
    change h'.tables b = none at hb
    rcases hs.buf_cases b with ⟨m, hm, rfl⟩ | ⟨m, hm, rfl⟩ | ⟨-, ht, halloc, hfreed⟩
    · obtain ⟨-, -, f, ht⟩ := hs.new_shape m hm
      rw [ht] at hb
      cases hb
    · obtain ⟨-, hfreed, halloc⟩ := hs.old_gone m hm
      exact hfreed.trans ((hw.kept k m hm).1.symm.trans halloc.symm)
    · exact hfreed.trans ((hw.gone b (ht.symm.trans hb)).trans halloc.symm)
  case unmade =>
    intro b hb
    change h'.next ≤ b at hb
    have hle := hs.next_le
    obtain ⟨ht, halloc, -⟩ := hs.other b
      (fun m hm heq => by have hlt := hw.buf_lt hm; omega)
      (fun m hm heq => by have hlt := (hs.new_fresh m hm).2; omega)
    obtain ⟨hnone, hnil⟩ := hw.unmade b (by omega)
    exact ⟨ht.trans hnone, halloc.trans hnil⟩

end Replace

/-! ## Making and deleting a buffer -/

section Swaps

variable {h₁ h₂ : Heap T} {old new : Option Obj} {m : Obj}

/-- A new buffer, whatever its cells are. -/
theorem swaps_made {blank : T} (hnone : h.allocated h.next = []) (hfreed : h.freed h.next = [])
    {rowN colN : Int} (hcol : 0 ≤ colN) (hle : rowN ≤ colN) (f : Nat → Nat → T) :
    Swaps h none (some { buf := h.next, rowN, colN })
      ((h.created blank rowN.toNat colN.toNat).put h.next (grid colN.toNat rowN.toNat f)) where
  next_le := Nat.le_succ _
  new_fresh m hm := by
    obtain rfl := Option.some.inj hm
    exact ⟨Nat.le_refl _, Nat.lt_succ_self _⟩
  new_shape m hm := by
    obtain rfl := Option.some.inj hm
    exact ⟨hcol, hle, f, Heap.tables_put_self _⟩
  new_kept m hm := by
    obtain rfl := Option.some.inj hm
    refine ⟨(Function.update_self ..).trans ?_, hfreed⟩
    rw [hnone, List.nil_append]
  old_gone := nofun
  other b _ hb := by
    have hne : b ≠ h.next := fun heq => hb _ rfl heq.symm
    refine ⟨(Heap.tables_put_ne hne _).trans ?_, Function.update_of_ne hne .., rfl⟩
    exact Function.update_of_ne hne ..

theorem swaps_deleted (hfreed : h.freed m.buf = []) :
    Swaps h (some m) none (h.cleaned m.buf m.rowN.toNat) where
  next_le := Nat.le_refl _
  new_fresh := nofun
  new_shape := nofun
  new_kept := nofun
  old_gone m' hm := by
    obtain rfl := Option.some.inj hm
    refine ⟨Function.update_self .., (Function.update_self ..).trans ?_, rfl⟩
    rw [hfreed, List.nil_append]
  other b hb _ := by
    have hne : b ≠ m.buf := fun heq => hb m rfl heq.symm
    exact ⟨Function.update_of_ne hne .., rfl, Function.update_of_ne hne ..⟩

/-- First the old buffer is deleted, as in `operator=`. -/
theorem Swaps.then_made (hs : Swaps h old none h₁) (hs' : Swaps h₁ none new h₂)
    (hold : ∀ m, old = some m → m.buf < h.next) : Swaps h old new h₂ where
  next_le := Nat.le_trans hs.next_le hs'.next_le
  new_fresh m hm := ⟨Nat.le_trans hs.next_le (hs'.new_fresh m hm).1, (hs'.new_fresh m hm).2⟩
  new_shape := hs'.new_shape
  new_kept := hs'.new_kept
  old_gone m hm := by
    obtain ⟨ht, hfreed, halloc⟩ := hs.old_gone m hm
    have hlt : m.buf < h₁.next := Nat.lt_of_lt_of_le (hold m hm) hs.next_le
    obtain ⟨ht', halloc', hfreed'⟩ := hs'.other m.buf nofun fun _ hm' => hs'.new_ne hm' hlt
    exact ⟨ht'.trans ht, hfreed'.trans hfreed, halloc'.trans halloc⟩
  other b hb hb' := by
    obtain ⟨ht, halloc, hfreed⟩ := hs.other b hb nofun
    obtain ⟨ht', halloc', hfreed'⟩ := hs'.other b nofun hb'
    exact ⟨ht'.trans ht, halloc'.trans halloc, hfreed'.trans hfreed⟩

/-- First the new buffer is made, as in `resize`. -/
theorem Swaps.then_deleted (hs : Swaps h none new h₁) (hs' : Swaps h₁ old none h₂)
    (hold : ∀ m, old = some m → m.buf < h.next) : Swaps h old new h₂ where
  next_le := Nat.le_trans hs.next_le hs'.next_le
  new_fresh m hm := ⟨(hs.new_fresh m hm).1, Nat.lt_of_lt_of_le (hs.new_fresh m hm).2 hs'.next_le⟩
  new_shape m hm := by
    obtain ⟨hcol, hle, f, ht⟩ := hs.new_shape m hm
    have hother := hs'.other m.buf (fun m' hm' => (hs.new_ne hm (hold m' hm')).symm) nofun
    exact ⟨hcol, hle, f, hother.1.trans ht⟩
  new_kept m hm := by
    obtain ⟨halloc, hfreed⟩ := hs.new_kept m hm
    obtain ⟨-, halloc', hfreed'⟩ :=
      hs'.other m.buf (fun m' hm' => (hs.new_ne hm (hold m' hm')).symm) nofun
    exact ⟨halloc'.trans halloc, hfreed'.trans hfreed⟩
  old_gone m hm := by
    obtain ⟨ht, hfreed, halloc⟩ := hs'.old_gone m hm
    have hsame := hs.other m.buf nofun fun _ hm' => hs.new_ne hm' (hold m hm)
    exact ⟨ht, hfreed, halloc.trans hsame.2.1⟩
  other b hb hb' := by
    obtain ⟨ht, halloc, hfreed⟩ := hs.other b nofun hb'
    obtain ⟨ht', halloc', hfreed'⟩ := hs'.other b hb nofun
    exact ⟨ht'.trans ht, halloc'.trans halloc, hfreed'.trans hfreed⟩

end Swaps

/-! ## The operations -/

/-- No more rows than columns, and no row of a vector shorter than the
first one. (A vector with too long a first row makes `new` throw.) -/
def Op.Meets : Op T → Prop
  | .construct _ rowN colN => rowN ≤ colN
  | .fill _ rowN colN _ => rowN ≤ colN
  | .fromVector _ rows => vectorColN rows < 0 ∨ (vectorRowN rows ≤ vectorColN rows ∧
      ∀ (r : Nat) row, r < vectorRowN rows → rows[r]? = some row → vectorColN rows ≤ row.length)
  | .resize _ rowN colN => rowN ≤ colN
  | _ => True

/-- Every access is in bounds, and the world is as it should be. -/
def World.Good (blank : T) (w : World T) (op : Op T) : Prop :=
  ∃ w', w.call blank op = some w' ∧ w'.Sound

section Ops

variable {blank : T} {w : World T} {k : Nat}

theorem Heap.cell_congr {h h' : Heap T} (ht : h'.tables buf = h.tables buf) (r c : Nat) :
    h'.cell buf r c = h.cell buf r c := by
  rw [cell, cell, ht]

/-- A cell of a buffer there is, while a new one is filled. -/
theorem World.Sound.cell_created (hw : w.Sound) {j : Nat} {m : Obj} (hm : w.mats j = some m)
    {f : Nat → Nat → T} (ht : w.heap.tables m.buf = some (grid m.colN.toNat m.rowN.toNat f))
    {h : Heap T} (hsame : h.tables m.buf = w.heap.tables m.buf) (hnext : h.next = w.heap.next)
    (R C : Nat) (t : Table T) {r c : Nat} (hr : r < m.rowN.toNat) (hc : c < m.colN.toNat) :
    ((h.created blank R C).put h.next t).cell m.buf r c = some (f r c) := by
  have hlt := hw.buf_lt hm
  have hne : m.buf ≠ h.next := by omega
  have hle := (hw.shape j m hm).2.1
  have htables : ((h.created blank R C).put h.next t).tables m.buf = w.heap.tables m.buf :=
    (Heap.tables_put_ne hne t).trans ((Function.update_of_ne hne ..).trans hsame)
  rw [Heap.cell_congr htables]
  exact Heap.cell_grid ht hr (by omega) hc

theorem constructWith_eq {rowN colN : Int} {cells : Heap T → Nat → Option (Heap T)} {h' : Heap T}
    (hcol : 0 ≤ colN) (hle : rowN ≤ colN)
    (hcells : cells (w.heap.created blank rowN.toNat colN.toNat) w.heap.next = some h') :
    w.constructWith blank k rowN colN cells = some {
      heap := h'
      mats := Function.update w.mats k (some { buf := w.heap.next, rowN, colN }) } := by
  rw [World.constructWith, create_eq hcol hle, Option.bind_eq_bind, Option.bind_some]
  simp only [hcells, Option.bind_some, Option.bind_eq_bind]
  rfl

theorem constructWith_eq_none {rowN colN : Int} {cells : Heap T → Nat → Option (Heap T)}
    (hcol : 0 ≤ colN) (hlt : colN < rowN) :
    w.constructWith blank k rowN colN cells = none := by
  rw [World.constructWith, create_eq_none hcol hlt]
  rfl

/-- A constructor whose cells can be filled. -/
theorem World.Sound.constructWith (hw : w.Sound) (hk : w.mats k = none) {rowN colN : Int}
    {cells : Heap T → Nat → Option (Heap T)} (hcol : 0 ≤ colN) (hle : rowN ≤ colN)
    (hcells : ∃ f, cells (w.heap.created blank rowN.toNat colN.toNat) w.heap.next =
      some ((w.heap.created blank rowN.toNat colN.toNat).put w.heap.next
        (grid colN.toNat rowN.toNat f))) :
    ∃ w', w.constructWith blank k rowN colN cells = some w' ∧ w'.Sound := by
  obtain ⟨f, hf⟩ := hcells
  obtain ⟨hnone, hnil⟩ := hw.unmade w.heap.next (Nat.le_refl _)
  refine ⟨_, constructWith_eq hcol hle hf, hw.replace ?_⟩
  rw [hk]
  exact swaps_made hnil ((hw.gone _ hnone).trans hnil) hcol hle f

/-- The dimensions of a vector. -/
theorem vectorRowN_le (rows : List (List T)) : vectorRowN rows ≤ rows.length := by
  simp only [vectorRowN, IntType.wrap, IntType.int32, IntType.min, IntType.modulus, Width.bits]
  omega

theorem constructWith_eq_none_of_cells {rowN colN : Int}
    {cells : Heap T → Nat → Option (Heap T)} (hcol : 0 ≤ colN) (hle : rowN ≤ colN)
    (hcells : ∀ h, cells h w.heap.next = none) :
    w.constructWith blank k rowN colN cells = none := by
  rw [World.constructWith, create_eq hcol hle, Option.bind_eq_bind, Option.bind_some]
  simp only [hcells]
  rfl

theorem good_construct (hw : w.Sound) (hk : w.mats k = none) {rowN colN : Int} (hcol : 0 ≤ colN)
    (hle : rowN ≤ colN) : w.Good blank (.construct k rowN colN) :=
  hw.constructWith hk hcol hle
    ⟨_, congrArg some (Heap.put_eq_self (w.heap.tables_created blank)).symm⟩

theorem good_fill (hw : w.Sound) (hk : w.mats k = none) {rowN colN : Int} (hcol : 0 ≤ colN)
    (hle : rowN ≤ colN) (value : T) : w.Good blank (.fill k rowN colN value) :=
  hw.constructWith hk hcol hle
    (copyN_eq (w.heap.tables_created blank) (by omega) rfl rfl value)

/-- The cells of a vector, as the constructor reads them. -/
def vectorCell (rows : List (List T)) (r c : Nat) : Option T := (rows[r]?).bind fun row => row[c]?

theorem vectorCell_eq {rows : List (List T)} {r c : Nat} {row : List T} (hr : rows[r]? = some row)
    (hc : c < row.length) : vectorCell rows r c = some ((vectorCell rows r c).getD blank) := by
  rw [vectorCell, hr, Option.bind_some, List.getElem?_eq_getElem hc]
  rfl

theorem vectorCell_eq_none {rows : List (List T)} {r c : Nat} {row : List T}
    (hr : rows[r]? = some row) (hc : row.length ≤ c) : vectorCell rows r c = none := by
  rw [vectorCell, hr, Option.bind_some, List.getElem?_eq_none hc]

theorem call_fromVector (rows : List (List T)) :
    w.call blank (.fromVector k rows) =
      w.constructWith blank k (vectorRowN rows) (vectorColN rows) fun h buf =>
        copyCells h buf (fun _ => vectorCell rows) (vectorRowN rows) (vectorColN rows) := rfl

theorem good_fromVector (hw : w.Sound) (hk : w.mats k = none) {rows : List (List T)}
    (h : Op.Meets (.fromVector k rows)) : w.Good blank (.fromVector k rows) := by
  have hrowle := vectorRowN_le rows
  rw [World.Good, call_fromVector]
  rw [Op.Meets] at h
  generalize vectorRowN rows = rowN at h hrowle ⊢
  generalize vectorColN rows = colN at h ⊢
  rcases Int.lt_or_le colN 0 with hneg | hcol
  · -- `new` throws
    refine ⟨w, ?_, hw⟩
    rw [World.constructWith, create, if_pos hneg]
    rfl
  · obtain ⟨hle, hlong⟩ := h.resolve_left (by omega)
    have hcopy : ∃ f, copyCells (w.heap.created blank rowN.toNat colN.toNat) w.heap.next
        (fun _ => vectorCell rows) rowN colN = some _ ∧ _ :=
      copyCells_eq (v := fun r c => (vectorCell rows r c).getD blank) (w.heap.tables_created blank)
        (by omega) (Nat.le_refl _) (Nat.le_refl _) fun r c _ hr hc => by
          have hbound : r < rows.length := by omega
          have hget : rows[r]? = some rows[r] := List.getElem?_eq_getElem hbound
          have hlen := hlong r _ (by omega) hget
          exact vectorCell_eq hget (by omega)
    obtain ⟨f, hf, -⟩ := hcopy
    exact hw.constructWith hk hcol hle ⟨f, hf⟩

/-- The pointers of a table, or the cells of a row, run out. -/
theorem call_fromVector_eq_none {rows : List (List T)} (h : ¬ Op.Meets (.fromVector k rows)) :
    w.call blank (.fromVector k rows) = none := by
  rw [call_fromVector]
  rw [Op.Meets] at h
  generalize vectorRowN rows = rowN at h ⊢
  generalize vectorColN rows = colN at h ⊢
  have hcol : 0 ≤ colN := by
    by_contra hneg
    exact h (.inl (by omega))
  rcases Int.lt_or_le colN rowN with hlt | hle
  · exact constructWith_eq_none hcol hlt
  · have hshort : ∃ (r : Nat) (row : List T),
        r < rowN ∧ rows[r]? = some row ∧ row.length < colN := by
      by_contra hno
      refine h (.inr ⟨hle, fun r row hr hget => ?_⟩)
      by_contra hlt
      exact hno ⟨r, row, hr, hget, by omega⟩
    obtain ⟨r, row, hr, hget, hlt⟩ := hshort
    exact constructWith_eq_none_of_cells hcol hle fun h =>
      copyCells_eq_none (by omega) (by omega) fun _ =>
        vectorCell_eq_none hget (Nat.le_refl row.length)

/-- Cells of a matrix are copied to a new buffer. -/
theorem World.Sound.copy_created (blank : T) (hw : w.Sound) {j : Nat} {m : Obj}
    (hm : w.mats j = some m) {f : Nat → Nat → T}
    (ht : w.heap.tables m.buf = some (grid m.colN.toNat m.rowN.toNat f))
    {h : Heap T} (hsame : h.tables m.buf = w.heap.tables m.buf) (hnext : h.next = w.heap.next)
    {R C : Nat} (hRC : R ≤ C) {rowN colN : Int} (hrow : rowN.toNat ≤ R)
    (hrow' : rowN.toNat ≤ m.rowN.toNat) (hcol : colN.toNat ≤ C)
    (hcol' : colN.toNat ≤ m.colN.toNat) :
    ∃ f', copyCells (h.created blank R C) h.next (fun h => h.cell m.buf) rowN colN =
        some ((h.created blank R C).put h.next (grid C R f')) ∧
      (∀ r c, r < rowN.toNat → c < colN.toNat → f' r c = f r c) ∧
      ∀ r c, ¬ (r < rowN.toNat ∧ c < colN.toNat) → f' r c = blank :=
  copyCells_eq (h.tables_created blank) hRC hrow hcol fun _ _ t hr hc =>
    hw.cell_created hm ht hsame hnext R C t (by omega) (by omega)

theorem good_copy (hw : w.Sound) (hk : w.mats k = none) {src : Nat} (hsrc : w.mats src ≠ none) :
    w.Good blank (.copy k src) := by
  obtain ⟨m, hm⟩ := Option.ne_none_iff_exists'.mp hsrc
  obtain ⟨hcol, hle, f, ht⟩ := hw.shape src m hm
  obtain ⟨f', hcopy, -⟩ := hw.copy_created blank hm ht rfl rfl
    (show m.rowN.toNat ≤ m.colN.toNat by omega) (Nat.le_refl _) (Nat.le_refl _) (Nat.le_refl _)
    (Nat.le_refl _)
  have hcall : w.call blank (.copy k src) =
      w.constructWith blank k m.rowN m.colN fun h buf =>
        copyCells h buf (fun h => h.cell m.buf) m.rowN m.colN := by
    rw [World.call, hm]
    rfl
  rw [World.Good, hcall]
  exact hw.constructWith hk hcol hle ⟨f', hcopy⟩

theorem good_destroy (hw : w.Sound) (hk : w.mats k ≠ none) : w.Good blank (.destroy k) := by
  obtain ⟨m, hm⟩ := Option.ne_none_iff_exists'.mp hk
  obtain ⟨-, hle, f, ht⟩ := hw.shape k m hm
  have hs : Swaps w.heap (w.mats k) none (w.heap.cleaned m.buf m.rowN.toNat) := by
    rw [hm]
    exact swaps_deleted (hw.kept k m hm).2
  refine ⟨_, ?_, hw.replace hs⟩
  rw [World.call, hm, Option.bind_eq_bind, Option.bind_some, clean_eq ht (by omega) rfl]
  rfl

theorem good_assign (hw : w.Sound) {src : Nat} (hk : w.mats k ≠ none) (hsrc : w.mats src ≠ none) :
    w.Good blank (.assign k src) := by
  by_cases hself : k = src
  · exact ⟨w, by rw [World.call, if_pos hself], hw⟩
  obtain ⟨m, hm⟩ := Option.ne_none_iff_exists'.mp hk
  obtain ⟨rhs, hrhs⟩ := Option.ne_none_iff_exists'.mp hsrc
  obtain ⟨-, hle, f, ht⟩ := hw.shape k m hm
  obtain ⟨hcol, hle', f₂, ht₂⟩ := hw.shape src rhs hrhs
  obtain ⟨hnone, hnil⟩ := hw.unmade w.heap.next (Nat.le_refl _)
  have hlt := hw.buf_lt hm
  have hapart : rhs.buf ≠ m.buf := fun heq => hself (hw.own k src m rhs hm hrhs heq.symm)
  have hfree : (w.heap.cleaned m.buf m.rowN.toNat).freed w.heap.next = [] :=
    (Function.update_of_ne (by omega) ..).trans ((hw.gone _ hnone).trans hnil)
  obtain ⟨f', hcopy, -⟩ := hw.copy_created blank (h := w.heap.cleaned m.buf m.rowN.toNat) hrhs ht₂
    (Function.update_of_ne hapart ..) rfl (show rhs.rowN.toNat ≤ rhs.colN.toNat by omega)
    (Nat.le_refl _) (Nat.le_refl _) (Nat.le_refl _) (Nat.le_refl _)
  have hs : Swaps w.heap (w.mats k) (some { rhs with buf := w.heap.next })
      (((w.heap.cleaned m.buf m.rowN.toNat).created blank rhs.rowN.toNat rhs.colN.toNat).put
        w.heap.next (grid rhs.colN.toNat rhs.rowN.toNat f')) := by
    rw [hm]
    refine (swaps_deleted (hw.kept k m hm).2).then_made
      (swaps_made (h := w.heap.cleaned m.buf m.rowN.toNat) hnil hfree hcol hle' f') ?_
    exact fun m' hm' => Option.some.inj hm' ▸ hlt
  refine ⟨_, ?_, hw.replace hs⟩
  rw [World.call, if_neg hself, hm, hrhs, Option.bind_eq_bind, Option.bind_some,
    Option.bind_some, World.assignFrom, clean_eq ht (by omega) rfl,
    Option.bind_eq_bind, Option.bind_some, create_eq hcol hle', Option.bind_eq_bind,
    Option.bind_some]
  change ((copyCells _ (w.heap.cleaned m.buf m.rowN.toNat).next _ _ _).bind _ :
    Option (World T)) = _
  rw [hcopy]
  rfl

/-- What `resize` comes to: the cells in both shapes are copied to the new
buffer, and the old one is deleted. -/
theorem resize_eq (hw : w.Sound) {m : Obj} (hm : w.mats k = some m) {f : Nat → Nat → T}
    (ht : w.heap.tables m.buf = some (grid m.colN.toNat m.rowN.toNat f)) {rowN colN : Int}
    (hcol : 0 ≤ colN) (hle : rowN ≤ colN) :
    ∃ f', w.call blank (.resize k rowN colN) = some {
        heap := ((w.heap.created blank rowN.toNat colN.toNat).put w.heap.next
          (grid colN.toNat rowN.toNat f')).cleaned m.buf m.rowN.toNat
        mats := Function.update w.mats k (some { buf := w.heap.next, rowN, colN }) } ∧
      ∀ r c : Nat, f' r c =
        if r < min m.rowN rowN ∧ c < min m.colN colN then f r c else blank := by
  have hle' := (hw.shape k m hm).2.1
  have hlt := hw.buf_lt hm
  have hne : m.buf ≠ w.heap.next := by omega
  obtain ⟨f', hcopy, hin, hout⟩ := hw.copy_created blank hm ht rfl rfl
    (show rowN.toNat ≤ colN.toNat by omega)
    (show (if m.rowN < rowN then m.rowN else rowN).toNat ≤ rowN.toNat by split <;> omega)
    (show _ ≤ m.rowN.toNat by split <;> omega)
    (show (if m.colN < colN then m.colN else colN).toNat ≤ colN.toNat by split <;> omega)
    (show _ ≤ m.colN.toNat by split <;> omega)
  have htables : ((w.heap.created blank rowN.toNat colN.toNat).put w.heap.next
      (grid colN.toNat rowN.toNat f')).tables m.buf = some _ :=
    (Heap.tables_put_ne hne _).trans ((Function.update_of_ne hne ..).trans ht)
  refine ⟨f', ?_, fun r c => ?_⟩
  · rw [World.call, hm, Option.bind_eq_bind, Option.bind_some, World.resize,
      create_eq hcol hle, Option.bind_eq_bind, Option.bind_some]
    simp only [hcopy, clean_eq htables (show m.rowN.toNat ≤ m.colN.toNat by omega) rfl,
      Option.bind_eq_bind, Option.bind_some]
    rfl
  · have hrow : r < (if m.rowN < rowN then m.rowN else rowN).toNat ↔
        (r : Int) < min m.rowN rowN := by
      split <;> omega
    have hcol : c < (if m.colN < colN then m.colN else colN).toNat ↔
        (c : Int) < min m.colN colN := by
      split <;> omega
    by_cases hboth : (r : Int) < min m.rowN rowN ∧ (c : Int) < min m.colN colN
    · rw [if_pos hboth]
      exact hin r c (hrow.mpr hboth.1) (hcol.mpr hboth.2)
    · rw [if_neg hboth]
      exact hout r c fun hlt => hboth ⟨hrow.mp hlt.1, hcol.mp hlt.2⟩

theorem good_resize (hw : w.Sound) (hk : w.mats k ≠ none) {rowN colN : Int} (hcol : 0 ≤ colN)
    (hle : rowN ≤ colN) : w.Good blank (.resize k rowN colN) := by
  obtain ⟨m, hm⟩ := Option.ne_none_iff_exists'.mp hk
  obtain ⟨-, -, f, ht⟩ := hw.shape k m hm
  obtain ⟨hnone, hnil⟩ := hw.unmade w.heap.next (Nat.le_refl _)
  have hlt := hw.buf_lt hm
  obtain ⟨f', hcall, -⟩ : ∃ f', w.call blank (.resize k rowN colN) = some _ ∧ _ :=
    resize_eq hw hm ht hcol hle
  refine ⟨_, hcall, hw.replace ?_⟩
  rw [hm]
  refine (swaps_made hnil ((hw.gone _ hnone).trans hnil) hcol hle f').then_deleted
    (swaps_deleted ?_) fun m' hm' => Option.some.inj hm' ▸ hlt
  exact (hw.kept k m hm).2

/-- An operation that meets its condition is in bounds; any other is not. -/
theorem call_cases (hw : w.Sound) {op : Op T} (hv : w.Valid op) :
    (op.Meets ∧ w.Good blank op) ∨ (¬ op.Meets ∧ w.call blank op = none) := by
  cases op with
  | construct k rowN colN =>
      obtain ⟨hk, -, hcol⟩ := hv
      by_cases hle : rowN ≤ colN
      · exact .inl ⟨hle, good_construct hw hk hcol hle⟩
      · exact .inr ⟨hle, constructWith_eq_none hcol (by omega)⟩
  | fill k rowN colN value =>
      obtain ⟨hk, -, hcol⟩ := hv
      by_cases hle : rowN ≤ colN
      · exact .inl ⟨hle, good_fill hw hk hcol hle value⟩
      · exact .inr ⟨hle, constructWith_eq_none hcol (by omega)⟩
  | fromVector k rows =>
      by_cases hmeets : Op.Meets (.fromVector k rows)
      · exact .inl ⟨hmeets, good_fromVector hw hv hmeets⟩
      · exact .inr ⟨hmeets, call_fromVector_eq_none hmeets⟩
  | copy k src => exact .inl ⟨trivial, good_copy hw hv.1 hv.2⟩
  | assign k src => exact .inl ⟨trivial, good_assign hw hv.1 hv.2⟩
  | resize k rowN colN =>
      obtain ⟨hk, -, hcol⟩ := hv
      by_cases hle : rowN ≤ colN
      · exact .inl ⟨hle, good_resize hw hk hcol hle⟩
      · obtain ⟨m, hm⟩ := Option.ne_none_iff_exists'.mp hk
        refine .inr ⟨hle, ?_⟩
        rw [World.call, hm, Option.bind_eq_bind, Option.bind_some, World.resize,
          create_eq_none hcol (by omega)]
        rfl
  | destroy k => exact .inl ⟨trivial, good_destroy hw hv⟩

end Ops

/-! ## Runs -/

section Runs

variable {blank : T} {tr : List (Op T)} {s : Option (World T)}

/-- What is reached is sound, and something is reached exactly if every
operation so far met its condition. -/
theorem run_spec (h : (matrixLts blank).Run tr s) :
    (∀ w, s = some w → w.Sound) ∧ (s ≠ none ↔ ∀ op ∈ tr, Op.Meets op) := by
  induction h with
  | start hi =>
      refine ⟨fun w hw => ?_, iff_of_true ?_ fun op hop => absurd hop List.not_mem_nil⟩
      · obtain rfl := Option.some.inj (hw.symm.trans hi)
        exact sound_new
      · rw [hi]
        exact Option.some_ne_none _
  | @snoc tr s s' op _ hs ih =>
      obtain ⟨w, rfl, hv, rfl⟩ := hs
      have hw := ih.1 w rfl
      have hbefore : ∀ op ∈ tr, Op.Meets op := ih.2.mp (Option.some_ne_none w)
      have hall : (∀ o ∈ tr ++ [op], Op.Meets o) ↔ op.Meets := by
        constructor
        · exact fun hall => hall op (List.mem_append_right _ List.mem_cons_self)
        · intro hop o ho
          rcases List.mem_append.mp ho with ho | ho
          · exact hbefore o ho
          · exact List.mem_singleton.mp ho ▸ hop
      rw [hall]
      have hcases : _ ∨ (¬ op.Meets ∧ w.call blank op = none) := call_cases hw hv
      rcases hcases with ⟨hmeets, w', hcall, hsound⟩ | ⟨hno, hcall⟩
      · rw [hcall]
        exact ⟨fun w'' heq => Option.some.inj heq ▸ hsound,
          iff_of_true (Option.some_ne_none w') hmeets⟩
      · rw [hcall]
        exact ⟨fun w'' heq => absurd heq.symm (Option.some_ne_none w''),
          iff_of_false (fun hne => hne rfl) hno⟩

/-- **Every access of a run is in bounds, and what was destroyed had
exactly its rows deleted**, exactly if no operation asked for more rows
than columns or gave a vector with too short a row. -/
theorem run_in_bounds_iff (h : (matrixLts blank).Run tr s) :
    (∃ w, s = some w ∧ w.Sound) ↔ ∀ op ∈ tr, Op.Meets op := by
  obtain ⟨hsound, hiff⟩ := run_spec h
  rw [← hiff]
  constructor
  · rintro ⟨w, rfl, -⟩
    exact Option.some_ne_none w
  · intro hne
    obtain ⟨w, rfl⟩ := Option.ne_none_iff_exists'.mp hne
    exact ⟨w, rfl, hsound w rfl⟩

end Runs

theorem run_call {blank : T} {tr : List (Op T)} {w : World T}
    (h : (matrixLts blank).Run tr (some w)) (op : Op T) (hv : w.Valid op) :
    (matrixLts blank).Run (tr ++ [op]) (w.call blank op) := h.snoc ⟨w, rfl, hv, rfl⟩

/-- Two rows of three, resized to one of four, and destroyed. -/
theorem run_in_bounds_iff_resized :
    ∃ s, (matrixLts (0 : Int)).Run ([.construct 0 2 3] ++ [.resize 0 1 4] ++ [.destroy 0]) s ∧
      ∃ w, s = some w ∧ w.Sound := by
  have hmade : (matrixLts (0 : Int)).Run _ _ :=
    run_call (.start rfl) (.construct 0 2 3) ⟨rfl, by decide, by decide⟩
  have hresized := run_call hmade (.resize 0 1 4)
    ⟨Option.some_ne_none _, by decide, by decide⟩
  have hrun := run_call hresized (.destroy 0) (Option.some_ne_none _)
  refine ⟨_, hrun, (run_in_bounds_iff hrun).mpr ?_⟩
  simp [Op.Meets]

/-- Two rows of one: the second row pointer is stored past the end. -/
theorem run_column_vector :
    ¬ ∀ tr s, (matrixLts (0 : Int)).Run tr s → ∃ w, s = some w ∧ w.Sound := by
  intro hall
  have hrun : (matrixLts (0 : Int)).Run _ _ :=
    run_call (.start rfl) (.construct 0 2 1) ⟨rfl, by decide, by decide⟩
  have hnone : World.new.call (0 : Int) (.construct 0 2 1) = none := rfl
  obtain ⟨w, hw, -⟩ := hall _ _ hrun
  rw [hnone] at hw
  cases hw

/-! ## The cells -/

/-- Matrix `k` has these dimensions and these cells. -/
def World.Reads (w : World T) (k : Nat) (g : Matrix T) : Prop :=
  ∃ m, w.mats k = some m ∧ m.rowN = g.rowN ∧ m.colN = g.colN ∧
    ∀ r c : Nat, r < g.rowN → c < g.colN → w.heap.cell m.buf r c = some (g.buf r c)

/-- **`resize` in memory is `resize` on cells**, where it is in bounds. -/
theorem resize_refines {blank : T} {w : World T} (hw : w.Sound) {k : Nat} {g : Matrix T}
    (hg : w.Reads k g) {rowN colN : Int} (hcol : 0 ≤ colN) (hle : rowN ≤ colN) :
    ∃ w', w.call blank (.resize k rowN colN) = some w' ∧
      w'.Reads k (g.resize blank rowN colN).1 := by
  obtain ⟨m, hm, hrowN, hcolN, hcells⟩ := hg
  obtain ⟨-, hle', f, ht⟩ := hw.shape k m hm
  obtain ⟨f', hcall, hf'⟩ : ∃ f', w.call blank (.resize k rowN colN) = some _ ∧ _ :=
    resize_eq hw hm ht hcol hle
  have hlt := hw.buf_lt hm
  refine ⟨_, hcall, _, Function.update_self .., rfl, rfl, fun r c hr hc => ?_⟩
  have hr' : (r : Int) < rowN := hr
  have hc' : (c : Int) < colN := hc
  have hnew : ((w.heap.created blank rowN.toNat colN.toNat).put w.heap.next
      (grid colN.toNat rowN.toNat f')).cell w.heap.next r c = some (f' r c) :=
    Heap.cell_grid (Heap.tables_put_self _) (by omega) (by omega) (by omega)
  have hcell : (((w.heap.created blank rowN.toNat colN.toNat).put w.heap.next
      (grid colN.toNat rowN.toNat f')).cleaned m.buf m.rowN.toNat).cell w.heap.next r c =
        some (f' r c) := by
    rw [← hnew]
    exact Heap.cell_congr (Function.update_of_ne (by omega) ..) r c
  refine hcell.trans (congrArg some ?_)
  rw [hf', Matrix.resize_buf, ← hrowN, ← hcolN]
  by_cases hboth : (r : Int) < min m.rowN rowN ∧ (c : Int) < min m.colN colN
  · rw [if_pos hboth, if_pos ⟨Int.natCast_nonneg r, hboth.1, Int.natCast_nonneg c, hboth.2⟩]
    have hold := hcells r c (by omega) (by omega)
    rw [Heap.cell_grid ht (by omega) (by omega) (by omega)] at hold
    exact Option.some.inj hold
  · rw [if_neg hboth, if_neg fun hin => hboth ⟨hin.2.1, hin.2.2.2⟩]

end HighJump.Math.MatrixHeap
