/-
HighJump.Db.Sqlite — `hj::sqlite` (`hj/db/sqlite.hpp`): the connections,
and the calls that they make of SQLite.

Every function gives back, besides its result, the calls of the library
that concern a handle or a statement, in order. What SQLite answers is
data of the call (`Answers`), and so is the number of the handle or
statement it makes. Preparing an empty text comes off and makes no
statement; the calls on a null statement do nothing.

The arguments are bound by value and only their number is kept. One
connection is used by one thread at a time.
-/
import HighJump.Db.DbConn
import HighJump.Lib.Handles

namespace HighJump.Db.Sqlite

open HighJump.Lib
open HighJump.Lib.Handles (Call)

/-- `sqlite` -/
structure Conn where
  db : Option Nat
  dbPath : String
  lastErr : String
  deriving DecidableEq, Repr

def Conn.new : Conn := { db := none, dbPath := "", lastErr := "" }

/-- What `sqlite3_open` answers: whether it came off, and whether it made
a handle, which it may have done if not. -/
structure Opened where
  ok : Bool
  handle : Bool
  errmsg : String
  deriving DecidableEq, Repr

/-! ## Columns -/

/-- What `sqlite3_column_type` and its fellows answer of a column of the
row that is there. `text` and `blob` are the bytes from the pointer on, as
far as they may be read. -/
structure Column where
  type : Int
  int64 : Int64
  double : BitVec 64
  text : List UInt8
  blob : List UInt8
  bytes : Nat

/-- `SQLITE_INTEGER`, `SQLITE_FLOAT`, `SQLITE_TEXT`, `SQLITE_BLOB`. -/
def sqliteInteger : Int := 1

def sqliteFloat : Int := 2

def sqliteText : Int := 3

def sqliteBlob : Int := 4

/-- The `switch` of `query_impl`. -/
def Column.cell (col : Column) : OutVal :=
  if col.type = sqliteInteger then .int col.int64
  else if col.type = sqliteFloat then .double col.double
  else if col.type = sqliteText then .text (col.text.take col.bytes)
  else if col.type = sqliteBlob then .blob (col.blob.take col.bytes)
  else .null

/-- How many calls that takes, `sqlite3_column_type` among them. -/
def Column.asked (col : Column) : Nat :=
  if col.type = sqliteInteger ∨ col.type = sqliteFloat then 2
  else if col.type = sqliteText ∨ col.type = sqliteBlob then 3
  else 1

/-- What SQLite documents of the answers where the column holds a value:
the type is the storage class, `sqlite3_column_bytes` the length, and a
text has a null byte behind it. -/
def Column.Holds (col : Column) : OutVal → Prop
  | .int n => col.type = sqliteInteger ∧ col.int64 = n
  | .double d => col.type = sqliteFloat ∧ col.double = d
  | .text s => col.type = sqliteText ∧ (s ++ [0]) <+: col.text ∧ col.bytes = s.length
  | .blob s => col.type = sqliteBlob ∧ s <+: col.blob ∧ col.bytes = s.length
  | .null => col.type = 5

/-- What SQLite answers while a statement is run. The rows are those that
`sqlite3_step` stops at; then it is `done` or fails. -/
structure Answers where
  prepared : Bool
  stmt : Bool
  bound : Nat → Bool
  cols : Nat
  rows : List (Nat → Column)
  done : Bool
  changes : Int
  lastRowid : Int
  errmsg : String

/-! ## Handles -/

def Conn.close (conn : Conn) : Conn × List Call :=
  match conn.db with
  | none => (conn, [])
  | some h => ({ conn with db := none }, [.closeHandle h])

/-- `open(filename)`, where the handle is `h` if there is one. -/
def Conn.open (conn : Conn) (filename : String) (h : Nat) (a : Opened) :
    Conn × List Call × Bool :=
  let (conn, calls) := conn.close
  let conn := { conn with lastErr := "" }
  if a.ok then
    if a.handle then
      ({ conn with db := some h, dbPath := filename }, calls ++ [.openHandle h], true)
    else ({ conn with dbPath := filename }, calls, true)
  else if a.handle then
    ({ conn with lastErr := a.errmsg },
      calls ++ [.openHandle h] ++ [.useHandle h] ++ [.closeHandle h], false)
  else ({ conn with lastErr := "Failed to allocate sqlite memory" }, calls, false)

/-! ## Statements -/

/-- A call on a statement. -/
def onStmt (stmt : Option Nat) : List Call :=
  match stmt with
  | none => []
  | some c => [.useChild c]

/-- `sqlite3_prepare_v2` on the handle `h`. -/
def prepare (h c : Nat) (a : Answers) : Option Nat × List Call :=
  if a.prepared && a.stmt then (some c, [.useHandle h, .openChild h c])
  else (none, [.useHandle h])

def finalize (stmt : Option Nat) : List Call :=
  match stmt with
  | none => []
  | some c => [.closeChild c]

/-- The loop of `_bind_stmt_args` from argument `i` on, where `n` are
left. -/
def bindLoop (stmt : Option Nat) (h : Nat) (a : Answers) : Nat → Nat → Bool × List Call
  | 0, _ => (true, [])
  | n + 1, i =>
      if a.bound i then
        let (ok, calls) := bindLoop stmt h a n (i + 1)
        (ok, onStmt stmt ++ calls)
      else (false, onStmt stmt ++ [.useHandle h])

/-- `_bind_stmt_args`, where `none` is a null pointer for the arguments. -/
def bindStmtArgs (stmt : Option Nat) (h : Nat) (count : Option Nat) (a : Answers) :
    Bool × List Call :=
  match count with
  | none => (true, [])
  | some n => bindLoop stmt h a n 0

/-- `exec_impl`. One row is as good as the end. -/
def Conn.exec (conn : Conn) (c : Nat) (count : Option Nat) (a : Answers) :
    Conn × List Call × ExecResult :=
  match conn.db with
  | none => (conn, [], .failed .notConnected)
  | some h =>
      let (stmt, calls) := prepare h c a
      if !a.prepared then
        ({ conn with lastErr := a.errmsg }, calls ++ [.useHandle h], .failed .badMessage)
      else
        let (bound, bindCalls) := bindStmtArgs stmt h count a
        if !bound then
          ({ conn with lastErr := a.errmsg }, calls ++ bindCalls ++ finalize stmt,
            .failed .invalidArgument)
        else if a.done || !a.rows.isEmpty then
          (conn, calls ++ bindCalls ++ onStmt stmt ++ [.useHandle h] ++ [.useHandle h]
              ++ finalize stmt,
            { ec := none, affectedRows := a.changes, lastInsertId := a.lastRowid })
        else
          ({ conn with lastErr := a.errmsg },
            calls ++ bindCalls ++ onStmt stmt ++ [.useHandle h] ++ finalize stmt,
            .failed .ioError)

/-- The `while` of `query_impl`: the cells so far and the rows counted. -/
def fetch (cols : Nat) (tempData : List OutVal) (rowsCnt : Nat) :
    List (Nat → Column) → List OutVal × Nat
  | [] => (tempData, rowsCnt)
  | row :: rows =>
      fetch cols (tempData ++ (List.range cols).map fun c => (row c).cell) (rowsCnt + 1) rows

/-- Its calls: a step and the columns for each row, and a last step. -/
def fetchCalls (stmt : Option Nat) (cols : Nat) (rows : List (Nat → Column)) : List Call :=
  (rows.flatMap fun row => onStmt stmt ++ (List.range cols).flatMap fun c =>
      (List.replicate (row c).asked (onStmt stmt)).flatten)
    ++ onStmt stmt

/-- `query_impl` -/
def Conn.query (conn : Conn) (c : Nat) (outs : Ret) (count : Option Nat) (a : Answers) :
    Conn × List Call × Ret × Option Errc :=
  match conn.db with
  | none => (conn, [], outs, some .notConnected)
  | some h =>
      let (stmt, calls) := prepare h c a
      if !a.prepared then
        ({ conn with lastErr := a.errmsg }, calls ++ [.useHandle h], outs, some .badMessage)
      else
        let (bound, bindCalls) := bindStmtArgs stmt h count a
        if !bound then
          ({ conn with lastErr := a.errmsg }, calls ++ bindCalls ++ finalize stmt, outs,
            some .invalidArgument)
        else
          let (tempData, rowsCnt) := fetch a.cols [] 0 a.rows
          let calls := calls ++ bindCalls ++ onStmt stmt ++ fetchCalls stmt a.cols a.rows
            ++ finalize stmt
          if !a.done then
            ({ conn with lastErr := a.errmsg }, calls ++ [.useHandle h], outs, some .ioError)
          else (conn, calls, tempData.foldl Ret.emplaceBack (.setDim rowsCnt a.cols), none)

/-! ## Runs over any number of connections -/

structure World where
  conns : Nat → Option Conn
  log : List Call
  handles : Nat
  stmts : Nat

def World.new : World := { conns := fun _ => none, log := [], handles := 0, stmts := 0 }

inductive Op where
  | construct (k : Nat)
  | moveConstruct (k src : Nat)
  | moveAssign (k src : Nat)
  | destroy (k : Nat)
  | open (k : Nat) (filename : String) (a : Opened)
  | close (k : Nat)
  | exec (k : Nat) (count : Option Nat) (a : Answers)
  | query (k : Nat) (outs : Ret) (count : Option Nat) (a : Answers)

/-- Connection `k` is now `conn`, by these calls. -/
def World.put (w : World) (k : Nat) (conn : Option Conn) (calls : List Call) : World :=
  { w with conns := Function.update w.conns k conn, log := w.log ++ calls }

/-- A step on objects that are there, or are not yet. -/
def World.step (w : World) : Op → Option World
  | .construct k =>
      match w.conns k with
      | none => some (w.put k (some .new) [])
      | some _ => none
  | .moveConstruct k src =>
      match w.conns k, w.conns src with
      | none, some other => some ((w.put src (some .new) []).put k (some other) [])
      | _, _ => none
  | .moveAssign k src =>
      match w.conns k, w.conns src with
      | some conn, some other =>
          -- `this != &other`
          if k = src then some w
          else some ((w.put src (some .new) conn.close.2).put k (some other) [])
      | _, _ => none
  | .destroy k => (w.conns k).map fun conn => w.put k none conn.close.2
  | .open k filename a => (w.conns k).map fun conn =>
      let (conn, calls, _) := conn.open filename w.handles a
      { w.put k (some conn) calls with handles := w.handles + if a.handle then 1 else 0 }
  | .close k => (w.conns k).map fun conn => w.put k (some conn.close.1) conn.close.2
  | .exec k count a => (w.conns k).map fun conn =>
      let (conn, calls, _) := conn.exec w.stmts count a
      { w.put k (some conn) calls with stmts := w.stmts + 1 }
  | .query k outs count a => (w.conns k).map fun conn =>
      let (conn, calls, _) := conn.query w.stmts outs count a
      { w.put k (some conn) calls with stmts := w.stmts + 1 }

def lts : Lts World Op where
  init w := w = .new
  step w op w' := w.step op = some w'

/-- Whose handle it is. -/
def World.owner (w : World) (k : Nat) : Option Nat := (w.conns k).bind Conn.db

end HighJump.Db.Sqlite
