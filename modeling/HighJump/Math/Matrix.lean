/-
HighJump.Math.Matrix — `matrix<T>` of `hj/math/matrix.hpp` as a function
from rows and columns to values, with the iterators of
`hj/math/matrix_iterator.hpp` and `hj/math/matrix_vertical_iterator.hpp`.

Where the cells are is not said here; `HighJump.Math.MatrixHeap` has the
row tables, and there `resize` is what it is here. The offsets of the
iterators are `int`s: a product that is none, and a division by zero, are
`none`.
-/
import HighJump.Lib.Loop
import HighJump.Lib.MachineInt

namespace HighJump.Math

open HighJump.Lib

variable {T : Type}

/-! ## Cells -/

/-- `_row_n`, `_col_n` and the cells; outside the two the function means
nothing. -/
structure Matrix (T : Type) where
  rowN : Int
  colN : Int
  buf : Int → Int → T

/-- `_buf[row][col] = value` -/
def setCell (buf : Int → Int → T) (row col : Int) (value : T) : Int → Int → T :=
  fun r c => if r = row ∧ c = col then value else buf r c

/-- `_buf[row][col] = rhs[row][col]` for every row and column below the
two. -/
def copyCells (rowN colN : Int) (rhs buf : Int → Int → T) : Int → Int → T :=
  (List.range rowN.toNat).foldl (fun buf (row : Nat) =>
    (List.range colN.toNat).foldl (fun buf (col : Nat) => setCell buf row col (rhs row col)) buf)
    buf

namespace Matrix

/-- `_copy_from(rhs, row_n, col_n)` -/
def copyFrom (m : Matrix T) (rhs : Int → Int → T) (rowN colN : Int) : Matrix T :=
  let rowN := if m.rowN < rowN then m.rowN else rowN
  let colN := if m.colN < colN then m.colN else colN
  { m with buf := copyCells rowN colN rhs m.buf }

/-- `resize`, where `blank` is what `new T[n]` leaves in a cell. -/
def resize (blank : T) (m : Matrix T) (rowN colN : Int) : Matrix T × (Int × Int) :=
  let old := m.buf
  let m := { m with buf := fun _ _ => blank }
  let m := m.copyFrom old rowN colN
  ({ m with rowN, colN }, (rowN, colN))

end Matrix

/-! ## Iterators -/

/-- The members the two kinds of iterators share, the matrix apart. -/
structure Iterator where
  offset : Int
  nRow : Int
  nCol : Int
  deriving DecidableEq, Repr

/-- `operator++` -/
def Iterator.next (it : Iterator) : Option Iterator :=
  (checkInt (it.offset + 1)).map fun offset => { it with offset }

namespace MatrixIterator

def row (it : Iterator) : Option Int := divInt it.offset it.nCol

def col (it : Iterator) : Option Int := modInt it.offset it.nCol

/-- `operator*` -/
def deref (m : Matrix T) (it : Iterator) : Option T := do
  let row ← divInt it.offset it.nCol
  let col ← modInt it.offset it.nCol
  return m.buf row col

end MatrixIterator

namespace MatrixVerticalIterator

def row (it : Iterator) : Option Int := modInt it.offset it.nRow

def col (it : Iterator) : Option Int := divInt it.offset it.nRow

/-- `operator*` -/
def deref (m : Matrix T) (it : Iterator) : Option T := do
  let col ← divInt it.offset it.nRow
  let row ← modInt it.offset it.nRow
  return m.buf row col

end MatrixVerticalIterator

namespace Matrix

variable (m : Matrix T)

/-- The iterator at an offset. -/
def iterator (offset : Int) : Iterator := { offset, nRow := m.rowN, nCol := m.colN }

def begin : Iterator := m.iterator 0

def end_ : Option Iterator := (checkInt (m.rowN * m.colN)).map m.iterator

def vbegin : Iterator := m.iterator 0

def vend : Option Iterator := (checkInt (m.colN * m.rowN)).map m.iterator

def find (row col : Int) : Option Iterator := do
  let start ← checkInt (row * m.colN)
  let offset ← checkInt (start + col)
  return m.iterator offset

def vfind (row col : Int) : Option Iterator := do
  let start ← checkInt (col * m.rowN)
  let offset ← checkInt (start + row)
  return m.iterator offset

end Matrix

/-! ## Loops over a matrix -/

/-- A cell as a loop sees it: `it.row()`, `it.col()` and `*it`. -/
abbrev Cell (T : Type) := Int × Int × T

def MatrixIterator.cell (m : Matrix T) (it : Iterator) : Option (Cell T) := do
  return (← row it, ← col it, ← deref m it)

def MatrixVerticalIterator.cell (m : Matrix T) (it : Iterator) : Option (Cell T) := do
  return (← row it, ← col it, ← deref m it)

/-- `for(it = first; it != last; ++it)`, with the cells it has seen. -/
def traverse (cell : Iterator → Option (Cell T)) (first last : Iterator) (fuel : Nat) :
    Option (List (Cell T)) :=
  (loop (fun s : Iterator × List (Cell T) => s.1.offset != last.offset)
    (fun s => do return (← s.1.next, s.2 ++ [← cell s.1])) fuel (first, [])).map (·.2)

/-- Every cell of `m` once, in this order. -/
structure Visits (m : Matrix T) (before : Cell T → Cell T → Prop) (cells : List (Cell T)) :
    Prop where
  ordered : cells.Pairwise before
  mem_iff : ∀ r c v, (r, c, v) ∈ cells ↔
    0 ≤ r ∧ r < m.rowN ∧ 0 ≤ c ∧ c < m.colN ∧ v = m.buf r c

/-- Row by row. -/
def RowMajor (a b : Cell T) : Prop := a.1 < b.1 ∨ (a.1 = b.1 ∧ a.2.1 < b.2.1)

/-- Column by column. -/
def ColMajor (a b : Cell T) : Prop := a.2.1 < b.2.1 ∨ (a.2.1 = b.2.1 ∧ a.1 < b.1)

end HighJump.Math
