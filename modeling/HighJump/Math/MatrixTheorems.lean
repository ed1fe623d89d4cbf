/-
HighJump.Math.MatrixTheorems — what the iterators of a matrix visit, and
what `resize` keeps.

Both kinds of iterators count one offset from zero to the number of cells;
they differ in how they take it apart. So the loop is followed once
(`traverse_eq`), for any way to see a cell, and then each kind is a
division with remainder: by the columns the offsets enumerate the cells
row by row, by the rows column by column. A matrix without cells has no
offset to take apart, and nothing is divided by zero.
-/
import HighJump.Lib.RowMajor
import HighJump.Math.Matrix

namespace HighJump.Math

open HighJump.Lib

variable {T : Type}

/-! ## `resize` -/

/-- One row. -/
theorem copyRow_apply (rhs buf : Int → Int → T) (row : Int) (n : Nat) (r c : Int) :
    (List.range n).foldl (fun buf (col : Nat) => setCell buf row col (rhs row col)) buf r c =
      if r = row ∧ 0 ≤ c ∧ c < n then rhs r c else buf r c := by
  induction n with
  | zero =>
      rw [if_neg (by omega)]
      rfl
  | succ n ih =>
      rw [List.range_succ, List.foldl_append]
      change setCell _ row n (rhs row n) r c = _
      rw [setCell, ih]
      by_cases hlast : r = row ∧ c = n
      · obtain ⟨rfl, rfl⟩ := hlast
        rw [if_pos ⟨rfl, rfl⟩, if_pos ⟨rfl, by omega, by omega⟩]
      · rw [if_neg hlast]
        exact if_congr (by omega) rfl rfl

/-- Copying changes the first rows and columns and nothing else. -/
theorem copyCells_apply (rowN colN : Int) (rhs buf : Int → Int → T) (r c : Int) :
    copyCells rowN colN rhs buf r c =
      if 0 ≤ r ∧ r < rowN ∧ 0 ≤ c ∧ c < colN then rhs r c else buf r c := by
  have hrows : ∀ n : Nat, (List.range n).foldl (fun buf (row : Nat) =>
      (List.range colN.toNat).foldl (fun buf (col : Nat) => setCell buf row col (rhs row col)) buf)
      buf r c = if 0 ≤ r ∧ r < n ∧ 0 ≤ c ∧ c < colN then rhs r c else buf r c := by
    intro n
    induction n with
    | zero =>
        rw [if_neg (by omega)]
        rfl
    | succ n ih =>
        rw [List.range_succ, List.foldl_append]
        change (List.range colN.toNat).foldl (fun buf (col : Nat) => setCell buf n col (rhs n col))
          _ r c = _
        rw [copyRow_apply, ih]
        by_cases hlast : r = n ∧ 0 ≤ c ∧ c < colN
        · rw [if_pos (by omega), if_pos (by omega)]
        · rw [if_neg (by omega)]
          exact if_congr (by omega) rfl rfl
  rw [copyCells, hrows]
  exact if_congr (by omega) rfl rfl

namespace Matrix

theorem resize_dims (blank : T) (m : Matrix T) (rowN colN : Int) :
    (m.resize blank rowN colN).1.rowN = rowN ∧ (m.resize blank rowN colN).1.colN = colN :=
  ⟨rfl, rfl⟩

/-- What is in both shapes is kept, the rest is new. -/
theorem resize_buf (blank : T) (m : Matrix T) (rowN colN r c : Int) :
    (m.resize blank rowN colN).1.buf r c =
      if 0 ≤ r ∧ r < min m.rowN rowN ∧ 0 ≤ c ∧ c < min m.colN colN then m.buf r c else blank := by
  have hcopy : (m.resize blank rowN colN).1.buf r c =
      copyCells (if m.rowN < rowN then m.rowN else rowN) (if m.colN < colN then m.colN else colN)
        m.buf (fun _ _ => blank) r c := rfl
  rw [hcopy, copyCells_apply]
  refine if_congr ?_ rfl rfl
  split <;> split <;> omega

end Matrix

/-! ## Offsets -/

theorem next_eq {it : Iterator} {n : Nat} (h : it.offset = n) (hlt : n + 1 < 2 ^ 31) :
    it.next = some { it with offset := ((n + 1 : Nat) : Int) } := by
  have hoffset : it.offset + 1 = ((n + 1 : Nat) : Int) := by omega
  rw [Iterator.next, hoffset, checkInt_natCast hlt]
  rfl

/-- A loop that starts at the `k`-th of `k + n` cells sees the rest. -/
theorem loop_eq {cell : Iterator → Option (Cell T)} {at_ : Nat → Cell T} {nRow nCol : Int}
    {last : Iterator} (n : Nat) :
    ∀ (k fuel : Nat), last.offset = ((k + n : Nat) : Int) → k + n < 2 ^ 31 → n < fuel →
      (∀ i, i < k + n → cell { offset := i, nRow, nCol } = some (at_ i)) →
      (loop (fun s : Iterator × List (Cell T) => s.1.offset != last.offset)
        (fun s => do return (← s.1.next, s.2 ++ [← cell s.1])) fuel
        ({ offset := k, nRow, nCol }, (List.range k).map at_)).map (·.2) =
      some ((List.range (k + n)).map at_) := by
  induction n with
  | zero =>
      intro k fuel hlast _ hfuel _
      obtain ⟨f, rfl⟩ : ∃ f, fuel = f + 1 := ⟨fuel - 1, by omega⟩
      have hguard : ((k : Int) != last.offset) = false := by
        rw [hlast, bne_eq_false_iff_eq]
        rfl
      rw [loop, if_neg (by rw [hguard]; exact Bool.false_ne_true)]
      rfl
  | succ n ih =>
      intro k fuel hlast hlt hfuel hcell
      obtain ⟨f, rfl⟩ : ∃ f, fuel = f + 1 := ⟨fuel - 1, by omega⟩
      have hguard : ((k : Int) != last.offset) = true := by
        rw [hlast, bne_iff_ne]
        omega
      have hshift : k + (n + 1) = k + 1 + n := by omega
      rw [loop, if_pos hguard, hcell k (by omega), next_eq rfl (by omega)]
      have hsnoc : (List.range k).map at_ ++ [at_ k] = (List.range (k + 1)).map at_ := by
        rw [List.range_succ, List.map_append]
        rfl
      have hrest := ih (k + 1) f (by rw [hlast, hshift]) (by omega) (by omega)
        (fun i hi => hcell i (by omega))
      rw [← hsnoc, ← hshift] at hrest
      exact hrest

/-- The loop from the first offset to the last. -/
theorem traverse_eq {cell : Iterator → Option (Cell T)} {at_ : Nat → Cell T} {nRow nCol : Int}
    {n : Nat} {last : Iterator} (hlast : last.offset = n) (hlt : n < 2 ^ 31)
    (hcell : ∀ i, i < n → cell { offset := i, nRow, nCol } = some (at_ i)) {fuel : Nat}
    (hfuel : n < fuel) :
    traverse cell { offset := 0, nRow, nCol } last fuel = some ((List.range n).map at_) := by
  have hloop := loop_eq n 0 fuel (by rw [hlast, Nat.zero_add]) (by omega) hfuel
    (fun i hi => hcell i (by omega))
  rw [Nat.zero_add] at hloop
  exact hloop

/-! ## Rows and columns exchanged -/

/-- The matrix with rows and columns exchanged. -/
def Matrix.transpose (m : Matrix T) : Matrix T :=
  { rowN := m.colN, colN := m.rowN, buf := fun r c => m.buf c r }

/-- A cell of the one as a cell of the other. -/
def Cell.flip (a : Cell T) : Cell T := (a.2.1, a.1, a.2.2)

/-- Row by row there is column by column here. -/
theorem Visits.transpose {m : Matrix T} {cells : List (Cell T)}
    (h : Visits m.transpose RowMajor cells) : Visits m ColMajor (cells.map Cell.flip) where
  ordered := List.pairwise_map.mpr h.ordered
  mem_iff r c v := by
    have hmem : (r, c, v) ∈ cells.map Cell.flip ↔ (c, r, v) ∈ cells := by
      rw [List.mem_map]
      constructor
      · rintro ⟨a, ha, heq⟩
        obtain ⟨rfl, hcv⟩ := Prod.mk.inj heq
        obtain ⟨rfl, rfl⟩ := Prod.mk.inj hcv
        exact ha
      · exact fun ha => ⟨(c, r, v), ha, rfl⟩
    rw [hmem, h.mem_iff]
    constructor
    · rintro ⟨hc0, hcC, hr0, hrR, hv⟩
      exact ⟨hr0, hrR, hc0, hcC, hv⟩
    · rintro ⟨hr0, hrR, hc0, hcC, hv⟩
      exact ⟨hc0, hcC, hr0, hrR, hv⟩

section Cells

variable {m : Matrix T} {R C : Nat} (hrow : m.rowN = R) (hcol : m.colN = C)

/-- The cell at an offset, row by row. -/
def rowCell (m : Matrix T) (C i : Nat) : Cell T :=
  (((i / C : Nat) : Int), ((i % C : Nat) : Int), m.buf (i / C : Nat) (i % C : Nat))

/-- The cell at an offset, column by column. -/
def colCell (m : Matrix T) (R i : Nat) : Cell T :=
  (((i % R : Nat) : Int), ((i / R : Nat) : Int), m.buf (i % R : Nat) (i / R : Nat))

include hcol in
theorem matrixIterator_cell {i : Nat} (hi : i < 2 ^ 31) (hC : 0 < C) :
    MatrixIterator.cell m (m.iterator i) = some (rowCell m C i) := by
  have hdiv : divInt i m.colN = some ((i / C : Nat) : Int) := hcol ▸ divInt_natCast hi hC
  have hmod : modInt i m.colN = some ((i % C : Nat) : Int) := hcol ▸ modInt_natCast hi hC
  rw [MatrixIterator.cell, MatrixIterator.row, MatrixIterator.col, MatrixIterator.deref,
    Matrix.iterator, hdiv, hmod]
  rfl

include hrow in
theorem matrixVerticalIterator_cell {i : Nat} (hi : i < 2 ^ 31) (hR : 0 < R) :
    MatrixVerticalIterator.cell m (m.iterator i) = some (colCell m R i) := by
  have hdiv : divInt i m.rowN = some ((i / R : Nat) : Int) := hrow ▸ divInt_natCast hi hR
  have hmod : modInt i m.rowN = some ((i % R : Nat) : Int) := hrow ▸ modInt_natCast hi hR
  rw [MatrixVerticalIterator.cell, MatrixVerticalIterator.row, MatrixVerticalIterator.col,
    MatrixVerticalIterator.deref, Matrix.iterator, hdiv, hmod]
  rfl

include hrow hcol in
theorem visits_rows : Visits m RowMajor ((List.range (R * C)).map (rowCell m C)) where
  ordered := by
    refine List.pairwise_map.mpr (List.pairwise_lt_range.imp fun {i j} hij => ?_)
    rcases divMod_lt (d := C) hij with hlt | ⟨heq, hlt⟩
    · exact .inl (Int.ofNat_lt.mpr hlt)
    · exact .inr ⟨congrArg Int.ofNat heq, Int.ofNat_lt.mpr hlt⟩
  mem_iff r c v := by
    rw [List.mem_map, hrow, hcol]
    constructor
    · rintro ⟨i, hi, heq⟩
      obtain ⟨rfl, hcv⟩ := Prod.mk.inj heq
      obtain ⟨rfl, rfl⟩ := Prod.mk.inj hcv
      have hin := exists_divMod_iff.mp ⟨i, List.mem_range.mp hi, rfl, rfl⟩
      exact ⟨Int.natCast_nonneg _, Int.ofNat_lt.mpr hin.1, Int.natCast_nonneg _,
        Int.ofNat_lt.mpr hin.2, rfl⟩
    · rintro ⟨hr0, hrR, hc0, hcC, rfl⟩
      obtain ⟨i, hi, hq, hm⟩ := exists_divMod_iff.mpr
        (show r.toNat < R ∧ c.toNat < C from ⟨by omega, by omega⟩)
      refine ⟨i, List.mem_range.mpr hi, ?_⟩
      rw [rowCell, hq, hm, Int.toNat_of_nonneg hr0, Int.toNat_of_nonneg hc0]

include hrow hcol in
theorem visits_cols : Visits m ColMajor ((List.range (C * R)).map (colCell m R)) := by
  have hrows : Visits m.transpose RowMajor ((List.range (C * R)).map (rowCell m.transpose R)) :=
    visits_rows hcol hrow
  have hflip := hrows.transpose
  rw [List.map_map] at hflip
  exact hflip

end Cells

/-! ## The two loops -/

section Loops

variable {m : Matrix T} (hrow : 0 ≤ m.rowN) (hcol : 0 ≤ m.colN) (hsize : m.rowN * m.colN < 2 ^ 31)

include hrow hcol hsize in
theorem traverse_rows :
    ∃ last cells, m.end_ = some last ∧ Visits m RowMajor cells ∧
      ∀ fuel, (m.rowN * m.colN).toNat < fuel →
        traverse (MatrixIterator.cell m) m.begin last fuel = some cells := by
  obtain ⟨R, hR⟩ : ∃ R : Nat, m.rowN = R := ⟨m.rowN.toNat, by omega⟩
  obtain ⟨C, hC⟩ : ∃ C : Nat, m.colN = C := ⟨m.colN.toNat, by omega⟩
  have hprod : m.rowN * m.colN = ((R * C : Nat) : Int) := by rw [hR, hC, Int.natCast_mul]
  rw [hprod] at hsize ⊢
  have hlast : m.end_ = some (m.iterator ((R * C : Nat) : Int)) := by
    rw [Matrix.end_, hprod, checkInt_natCast (by omega)]
    rfl
  refine ⟨_, _, hlast, visits_rows hR hC, fun fuel hfuel => ?_⟩
  refine traverse_eq rfl (by omega) (fun i hi => ?_) (by omega)
  have hpos : 0 < C := Nat.pos_of_ne_zero fun h => by rw [h, Nat.mul_zero] at hi; omega
  exact matrixIterator_cell hC (by omega) hpos

include hrow hcol hsize in
theorem traverse_cols :
    ∃ last cells, m.vend = some last ∧ Visits m ColMajor cells ∧
      ∀ fuel, (m.rowN * m.colN).toNat < fuel →
        traverse (MatrixVerticalIterator.cell m) m.vbegin last fuel = some cells := by
  obtain ⟨R, hR⟩ : ∃ R : Nat, m.rowN = R := ⟨m.rowN.toNat, by omega⟩
  obtain ⟨C, hC⟩ : ∃ C : Nat, m.colN = C := ⟨m.colN.toNat, by omega⟩
  have hprod : m.colN * m.rowN = ((C * R : Nat) : Int) := by rw [hR, hC, Int.natCast_mul]
  rw [Int.mul_comm, hprod] at hsize
  have hlast : m.vend = some (m.iterator ((C * R : Nat) : Int)) := by
    rw [Matrix.vend, hprod, checkInt_natCast (by omega)]
    rfl
  refine ⟨_, _, hlast, visits_cols hR hC, fun fuel hfuel => ?_⟩
  rw [Int.mul_comm, hprod] at hfuel
  refine traverse_eq rfl (by omega) (fun i hi => ?_) (by omega)
  have hpos : 0 < R := Nat.pos_of_ne_zero fun h => by rw [h, Nat.mul_zero] at hi; omega
  exact matrixVerticalIterator_cell hR (by omega) hpos

end Loops

/-! ## `find` and `vfind` -/

theorem cell_eq_some {row col : Option Int} {value : Option T} {r c : Int} {v : T}
    (h : (do return (← row, ← col, ← value) : Option (Cell T)) = some (r, c, v)) :
    row = some r ∧ col = some c ∧ value = some v := by
  cases row with
  | none => cases h
  | some r' =>
      cases col with
      | none => cases h
      | some c' =>
          cases value with
          | none => cases h
          | some v' =>
              cases h
              exact ⟨rfl, rfl, rfl⟩

/-- The offset of a cell: its arithmetic does not overflow, and it is taken
apart again. -/
theorem offset_spec {n d q r : Nat} (hq : q < n) (hr : r < d) (hlt : n * d < 2 ^ 31) :
    checkInt ((q : Int) * d) = some ((q * d : Nat) : Int) ∧
      checkInt (((q * d : Nat) : Int) + r) = some ((q * d + r : Nat) : Int) ∧
      q * d + r < 2 ^ 31 ∧ (q * d + r) / d = q ∧ (q * d + r) % d = r := by
  have hindex := mul_add_lt hq hr
  refine ⟨?_, ?_, by omega, divMod_mul_add hr⟩
  · rw [← Int.natCast_mul]
    exact checkInt_natCast (by omega)
  · rw [← Int.natCast_add]
    exact checkInt_natCast (by omega)

section Find

variable {m : Matrix T} {r c : Int} (hsize : m.rowN * m.colN < 2 ^ 31) (hr0 : 0 ≤ r)
  (hrR : r < m.rowN) (hc0 : 0 ≤ c) (hcC : c < m.colN)

include hsize hr0 hrR hc0 hcC in
theorem find_spec :
    ∃ it, m.find r c = some it ∧ MatrixIterator.row it = some r ∧
      MatrixIterator.col it = some c ∧ MatrixIterator.deref m it = some (m.buf r c) := by
  obtain ⟨R, hR⟩ : ∃ R : Nat, m.rowN = R := ⟨m.rowN.toNat, by omega⟩
  obtain ⟨C, hC⟩ : ∃ C : Nat, m.colN = C := ⟨m.colN.toNat, by omega⟩
  obtain ⟨r, rfl⟩ : ∃ r' : Nat, r = r' := ⟨r.toNat, by omega⟩
  obtain ⟨c, rfl⟩ : ∃ c' : Nat, c = c' := ⟨c.toNat, by omega⟩
  rw [hR, hC, ← Int.natCast_mul] at hsize
  obtain ⟨hstart, hoffset, hlt, hdiv, hmod⟩ :=
    offset_spec (n := R) (d := C) (q := r) (r := c) (by omega) (by omega) (by omega)
  refine ⟨m.iterator ((r * C + c : Nat) : Int), ?_, cell_eq_some ?_⟩
  · rw [Matrix.find, hC, hstart, Option.bind_eq_bind, Option.bind_some, hoffset]
    rfl
  · refine (matrixIterator_cell hC hlt (by omega)).trans ?_
    rw [rowCell, hdiv, hmod]

include hsize hr0 hrR hc0 hcC in
theorem vfind_spec :
    ∃ it, m.vfind r c = some it ∧ MatrixVerticalIterator.row it = some r ∧
      MatrixVerticalIterator.col it = some c ∧
      MatrixVerticalIterator.deref m it = some (m.buf r c) := by
  obtain ⟨R, hR⟩ : ∃ R : Nat, m.rowN = R := ⟨m.rowN.toNat, by omega⟩
  obtain ⟨C, hC⟩ : ∃ C : Nat, m.colN = C := ⟨m.colN.toNat, by omega⟩
  obtain ⟨r, rfl⟩ : ∃ r' : Nat, r = r' := ⟨r.toNat, by omega⟩
  obtain ⟨c, rfl⟩ : ∃ c' : Nat, c = c' := ⟨c.toNat, by omega⟩
  rw [hR, hC, Int.mul_comm, ← Int.natCast_mul] at hsize
  obtain ⟨hstart, hoffset, hlt, hdiv, hmod⟩ :=
    offset_spec (n := C) (d := R) (q := c) (r := r) (by omega) (by omega) (by omega)
  refine ⟨m.iterator ((c * R + r : Nat) : Int), ?_, cell_eq_some ?_⟩
  · rw [Matrix.vfind, hR, hstart, Option.bind_eq_bind, Option.bind_some, hoffset]
    rfl
  · refine (matrixVerticalIterator_cell hR hlt (by omega)).trans ?_
    rw [colCell, hdiv, hmod]

end Find

/-- **Traversal and resize**, for a matrix of any shape whose size is an
`int`. -/
theorem traversal_and_resize (m : Matrix T) (hrow : 0 ≤ m.rowN) (hcol : 0 ≤ m.colN)
    (hsize : m.rowN * m.colN < 2 ^ 31) :
    (∃ last cells, m.end_ = some last ∧ Visits m RowMajor cells ∧
      ∀ fuel, (m.rowN * m.colN).toNat < fuel →
        traverse (MatrixIterator.cell m) m.begin last fuel = some cells) ∧
    (∃ last cells, m.vend = some last ∧ Visits m ColMajor cells ∧
      ∀ fuel, (m.rowN * m.colN).toNat < fuel →
        traverse (MatrixVerticalIterator.cell m) m.vbegin last fuel = some cells) ∧
    (∀ r c, 0 ≤ r → r < m.rowN → 0 ≤ c → c < m.colN →
      (∃ it, m.find r c = some it ∧ MatrixIterator.row it = some r ∧
        MatrixIterator.col it = some c ∧ MatrixIterator.deref m it = some (m.buf r c)) ∧
      ∃ it, m.vfind r c = some it ∧ MatrixVerticalIterator.row it = some r ∧
        MatrixVerticalIterator.col it = some c ∧
        MatrixVerticalIterator.deref m it = some (m.buf r c)) ∧
    ∀ (blank : T) (rowN colN : Int), 0 ≤ rowN → 0 ≤ colN →
      (m.resize blank rowN colN).1.rowN = rowN ∧ (m.resize blank rowN colN).1.colN = colN ∧
      ∀ r c, 0 ≤ r → r < min m.rowN rowN → 0 ≤ c → c < min m.colN colN →
        (m.resize blank rowN colN).1.buf r c = m.buf r c := by
  refine ⟨traverse_rows hrow hcol hsize, traverse_cols hrow hcol hsize,
    fun r c hr0 hrR hc0 hcC => ?_, fun blank rowN colN _ _ => ?_⟩
  · exact ⟨find_spec hsize hr0 hrR hc0 hcC, vfind_spec hsize hr0 hrR hc0 hcC⟩
  · obtain ⟨hrowN, hcolN⟩ := Matrix.resize_dims blank m rowN colN
    refine ⟨hrowN, hcolN, fun r c hr0 hr hc0 hc => ?_⟩
    rw [Matrix.resize_buf, if_pos ⟨hr0, hr, hc0, hc⟩]

/-- Two rows of three. -/
theorem traversal_and_resize_two_three :
    ∃ last cells, (⟨2, 3, fun r c => 10 * r + c⟩ : Matrix Int).end_ = some last ∧
      Visits ⟨2, 3, fun r c => 10 * r + c⟩ RowMajor cells ∧
      ∀ fuel, 6 < fuel → traverse (MatrixIterator.cell ⟨2, 3, fun r c => 10 * r + c⟩)
        (⟨2, 3, fun r c => 10 * r + c⟩ : Matrix Int).begin last fuel = some cells :=
  (traversal_and_resize ⟨2, 3, fun r c => 10 * r + c⟩ (by decide) (by decide) (by decide)).1

end HighJump.Math
