/-
HighJump.Math.MatrixHeap — the storage of `matrix<T>` in
`hj/math/matrix.hpp`: a table of row pointers and the rows behind them.

Tables and rows are blocks of known size, and an access outside of one, or
through a pointer that is not there, is `none`. A row is kept in the slot
its pointer is kept in, since no function of the class copies a row
pointer; a table has a number. For every table the heap remembers the
slots rows were allocated for and the slots rows were deleted from. Memory
is not exhausted.

`_create` makes a table of `col_n` pointers and stores `row_n` rows in it,
so a matrix with more rows than columns writes past the end; and a row of
a vector that is shorter than the first one is read past its end.
-/
import Mathlib.Logic.Function.Basic
import HighJump.Lib.Loop
import HighJump.Lib.Lts
import HighJump.Lib.MachineInt

namespace HighJump.Math.MatrixHeap

open HighJump.Lib

/-! ## Blocks -/

/-- `new α[size]` -/
structure Block (α : Type) where
  size : Nat
  elem : Nat → α

namespace Block

variable {α : Type}

def get (b : Block α) (i : Nat) : Option α := if i < b.size then some (b.elem i) else none

def set (b : Block α) (i : Nat) (x : α) : Option (Block α) :=
  if i < b.size then some { b with elem := Function.update b.elem i x } else none

end Block

variable {T : Type}

/-- The row pointers of a matrix, each with its row. -/
abbrev Table (T : Type) := Block (Option (Block T))

@[ext] structure Heap (T : Type) where
  next : Nat
  tables : Nat → Option (Table T)
  allocated : Nat → List Nat
  freed : Nat → List Nat

namespace Heap

def empty : Heap T :=
  { next := 0, tables := fun _ => none, allocated := fun _ => [], freed := fun _ => [] }

def put (h : Heap T) (buf : Nat) (t : Table T) : Heap T :=
  { h with tables := Function.update h.tables buf (some t) }

/-- `new T *[n]`; its number is `next`. -/
def newTable (h : Heap T) (n : Nat) : Heap T :=
  { h.put h.next { size := n, elem := fun _ => none } with next := h.next + 1 }

/-- `buf[row] = new T[n]` -/
def newRow (blank : T) (h : Heap T) (buf row n : Nat) : Option (Heap T) := do
  let t ← h.tables buf
  let t ← t.set row (some { size := n, elem := fun _ => blank })
  return { h.put buf t with
    allocated := Function.update h.allocated buf (h.allocated buf ++ [row]) }

/-- `delete[] buf[row]` -/
def deleteRow (h : Heap T) (buf row : Nat) : Option (Heap T) := do
  let t ← h.tables buf
  let _ ← (← t.get row)
  let t ← t.set row none
  return { h.put buf t with freed := Function.update h.freed buf (h.freed buf ++ [row]) }

/-- `delete[] buf` -/
def deleteTable (h : Heap T) (buf : Nat) : Option (Heap T) := do
  let _ ← h.tables buf
  return { h with tables := Function.update h.tables buf none }

/-- `buf[row][col]` -/
def cell (h : Heap T) (buf row col : Nat) : Option T := do
  let t ← h.tables buf
  let r ← (← t.get row)
  r.get col

/-- `buf[row][col] = value` -/
def setCell (h : Heap T) (buf row col : Nat) (value : T) : Option (Heap T) := do
  let t ← h.tables buf
  let r ← (← t.get row)
  let r ← r.set col value
  return h.put buf (← t.set row (some r))

end Heap

/-! ## The private functions -/

/-- `_create(row_n, col_n)`: the table, or none where `new` throws. -/
def create (blank : T) (h : Heap T) (rowN colN : Int) : Option (Option Nat × Heap T) :=
  if colN < 0 then some (none, h)
  else
    let bak := h.next
    (forUp (fun row h => h.newRow blank bak row colN.toNat) rowN.toNat 0
      (h.newTable colN.toNat)).map fun h => (some bak, h)

/-- `_clean(buf)` of a matrix with `rowN` rows. -/
def clean (h : Heap T) (buf : Nat) (rowN : Int) : Option (Heap T) :=
  (forUp (fun row h => h.deleteRow buf row) rowN.toNat 0 h).bind fun h => h.deleteTable buf

/-- `_buf[row][col] = rhs[row][col]` for the first rows and columns. -/
def copyCells (h : Heap T) (buf : Nat) (rhs : Heap T → Nat → Nat → Option T) (rowN colN : Int) :
    Option (Heap T) :=
  forUp (fun row h =>
      forUp (fun col h => (rhs h row col).bind fun value => h.setCell buf row col value)
        colN.toNat 0 h)
    rowN.toNat 0 h

/-- `_copy_n(value)`: `n` cells, and then it returns. A `size()` that
overflows is whatever it is. -/
def copyN (h : Heap T) (buf : Nat) (rowN colN : Int) (value : T) : Option (Heap T) :=
  let n := IntType.int32.wrap (rowN * colN)
  (forUp (fun row s =>
      forUp (fun col s =>
          if s.2 = 0 then some s
          else
            (s.1.setCell buf row col value).map fun h => (h, IntType.int32.wrap (s.2 - 1)))
        colN.toNat 0 s)
    rowN.toNat 0 (h, n)).map (·.1)

/-! ## Matrices -/

/-- The members of a matrix. -/
structure Obj where
  buf : Nat
  rowN : Int
  colN : Int
  deriving DecidableEq, Repr

structure World (T : Type) where
  heap : Heap T
  mats : Nat → Option Obj

def World.new : World T := { heap := .empty, mats := fun _ => none }

inductive Op (T : Type) where
  /-- `matrix(row_n, col_n)`, and with zeros the default constructor. -/
  | construct (k : Nat) (rowN colN : Int)
  /-- `matrix(row_n, col_n, value)` -/
  | fill (k : Nat) (rowN colN : Int) (value : T)
  | fromVector (k : Nat) (rows : List (List T))
  | copy (k src : Nat)
  | assign (k src : Nat)
  | resize (k : Nat) (rowN colN : Int)
  | destroy (k : Nat)

/-- `int(buf.size())` -/
def vectorRowN (rows : List (List T)) : Int := IntType.int32.wrap rows.length

/-- `_row_n > 0 ? int(buf[0].size()) : 0` -/
def vectorColN (rows : List (List T)) : Int :=
  if vectorRowN rows > 0 then IntType.int32.wrap (rows.headD []).length else 0

namespace World

variable (blank : T) (w : World T)

/-- A constructor: `_create`, and then what fills the cells. If `_create`
throws there is no object. -/
def constructWith (k : Nat) (rowN colN : Int)
    (cells : Heap T → Nat → Option (Heap T)) : Option (World T) := do
  match ← create blank w.heap rowN colN with
  | (none, _) => some w
  | (some buf, heap) =>
      let heap ← cells heap buf
      return { heap, mats := Function.update w.mats k (some { buf, rowN, colN }) }

/-- `operator=`, behind the check for the object itself. -/
def assignFrom (k : Nat) (m rhs : Obj) : Option (World T) := do
  let heap ← clean w.heap m.buf m.rowN
  match ← create blank heap rhs.rowN rhs.colN with
  | (none, heap) =>
      return { heap, mats := Function.update w.mats k (some { rhs with buf := m.buf }) }
  | (some buf, heap) =>
      let heap ← copyCells heap buf (fun h => h.cell rhs.buf) rhs.rowN rhs.colN
      return { heap, mats := Function.update w.mats k (some { rhs with buf }) }

def resize (k : Nat) (m : Obj) (rowN colN : Int) : Option (World T) := do
  let old := m.buf
  match ← create blank w.heap rowN colN with
  | (none, _) => some w
  | (some buf, heap) =>
      let heap ← copyCells heap buf (fun h => h.cell old)
        (if m.rowN < rowN then m.rowN else rowN) (if m.colN < colN then m.colN else colN)
      let heap ← clean heap old m.rowN
      return { heap, mats := Function.update w.mats k (some { buf, rowN, colN }) }

def call : Op T → Option (World T)
  | .construct k rowN colN => w.constructWith blank k rowN colN fun h _ => some h
  | .fill k rowN colN value =>
      w.constructWith blank k rowN colN fun h buf => copyN h buf rowN colN value
  | .fromVector k rows =>
      w.constructWith blank k (vectorRowN rows) (vectorColN rows) fun h buf =>
        copyCells h buf (fun _ row col => (rows[row]?).bind fun r => r[col]?) (vectorRowN rows)
          (vectorColN rows)
  | .copy k src => do
      let rhs ← w.mats src
      w.constructWith blank k rhs.rowN rhs.colN fun h buf =>
        copyCells h buf (fun h => h.cell rhs.buf) rhs.rowN rhs.colN
  | .assign k src =>
      if k = src then some w
      else do
        let m ← w.mats k
        let rhs ← w.mats src
        w.assignFrom blank k m rhs
  | .resize k rowN colN => do
      let m ← w.mats k
      w.resize blank k m rowN colN
  | .destroy k => do
      let m ← w.mats k
      let heap ← clean w.heap m.buf m.rowN
      return { heap, mats := Function.update w.mats k none }

/-- Objects are constructed where there is none, and used where there is
one; dimensions are not negative. -/
def Valid : Op T → Prop
  | .construct k rowN colN => w.mats k = none ∧ 0 ≤ rowN ∧ 0 ≤ colN
  | .fill k rowN colN _ => w.mats k = none ∧ 0 ≤ rowN ∧ 0 ≤ colN
  | .fromVector k _ => w.mats k = none
  | .copy k src => w.mats k = none ∧ w.mats src ≠ none
  | .assign k src => w.mats k ≠ none ∧ w.mats src ≠ none
  | .resize k rowN colN => w.mats k ≠ none ∧ 0 ≤ rowN ∧ 0 ≤ colN
  | .destroy k => w.mats k ≠ none

end World

/-- After an access out of bounds there is no world. -/
def matrixLts (blank : T) : Lts (Option (World T)) (Op T) where
  init s := s = some .new
  step s op s' := ∃ w, s = some w ∧ w.Valid op ∧ s' = w.call blank op

end HighJump.Math.MatrixHeap
