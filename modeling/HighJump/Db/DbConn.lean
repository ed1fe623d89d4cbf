/-
HighJump.Db.DbConn — the values and tables of `hj::db_conn`
(`hj/db/db_conn.hpp`), which its two connections share.

A `ret_t` is a table that is filled cell by cell, row by row, behind its
dimensions; nothing checks that the two agree. `IsTable` says that they
do. Floating-point values are opaque.
-/
import HighJump.Lib.RowMajor

namespace HighJump.Db

/-- `out_val_t`; a `double` is given by its bits. -/
inductive OutVal where
  | null
  | int (n : Int64)
  | double (d : BitVec 64)
  | text (s : List UInt8)
  | blob (s : List UInt8)
  deriving DecidableEq

/-- The codes of `std::errc` that the connections answer with. -/
inductive Errc where
  | notConnected
  | badMessage
  | invalidArgument
  | ioError
  deriving DecidableEq, Repr

/-- `exec_result` -/
structure ExecResult where
  ec : Option Errc
  affectedRows : Int
  lastInsertId : Int
  deriving DecidableEq, Repr

def ExecResult.failed (e : Errc) : ExecResult :=
  { ec := some e, affectedRows := 0, lastInsertId := 0 }

/-- `ret_t` -/
structure Ret where
  rows : Nat
  cols : Nat
  data : List OutVal
  deriving DecidableEq

def Ret.clear : Ret := { rows := 0, cols := 0, data := [] }

/-- `set_dim`, which leaves nothing of the table that was. -/
def Ret.setDim (rows cols : Nat) : Ret := { rows, cols, data := [] }

def Ret.emplaceBack (outs : Ret) (val : OutVal) : Ret := { outs with data := outs.data ++ [val] }

/-- `get(r, c)`; the element past the end of the data is `none`. -/
def Ret.get (outs : Ret) (r c : Nat) : Option OutVal := outs.data[r * outs.cols + c]?

/-- The table has these cells and no other data. -/
structure Ret.IsTable (outs : Ret) (rows cols : Nat) (cell : Nat → Nat → OutVal) : Prop where
  rows_eq : outs.rows = rows
  cols_eq : outs.cols = cols
  size : outs.data.length = rows * cols
  get : ∀ r < rows, ∀ c < cols, outs.get r c = some (cell r c)

theorem data_emplaceBack_all (vals : List OutVal) (outs : Ret) :
    vals.foldl Ret.emplaceBack outs = { outs with data := outs.data ++ vals } := by
  induction vals generalizing outs with
  | nil => simp
  | cons val vals ih =>
    rw [List.foldl_cons, ih]
    simp [Ret.emplaceBack]

/-- Filling a table with its rows, one behind the other. -/
theorem isTable_of_flatten {table : List (List OutVal)} {cols : Nat}
    (hcols : ∀ row ∈ table, row.length = cols) {cell : Nat → Nat → OutVal}
    (hcell : ∀ r c, (h : r < table.length) → c < cols → table[r][c]? = some (cell r c)) :
    (table.flatten.foldl Ret.emplaceBack (.setDim table.length cols)).IsTable table.length cols
      cell where
  rows_eq := by rw [data_emplaceBack_all]; rfl
  cols_eq := by rw [data_emplaceBack_all]; rfl
  size := by
    rw [data_emplaceBack_all]
    simpa [Ret.setDim] using Lib.length_flatten_of_length hcols
  get r hr c hc := by
    rw [data_emplaceBack_all]
    simpa [Ret.get, Ret.setDim, Lib.getElem?_flatten_of_length hcols hr hc] using hcell r c hr hc

end HighJump.Db
