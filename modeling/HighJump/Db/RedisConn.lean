/-
HighJump.Db.RedisConn — `hj::redis` (`hj/db/redis.hpp`): the connections,
what they send, and what becomes of the replies.

`Db.Redis` builds the argument vector of a command; here are `connect`,
`close`, the moves, `exec_impl` and `query_impl` around it. As in
`Db.Sqlite`, what hiredis answers is data of the call. The context's `err`
is kept with the connection that owns the context; hiredis sets it and
nothing clears it. `sends` is ghost: the contexts that commands were sent
on, each with the `err` it had then.

`connect` returns `false` if the server refuses the password or the
database, and keeps the connection.
-/
import HighJump.Db.DbConn
import HighJump.Db.Redis
import HighJump.Lib.Handles

namespace HighJump.Db.RedisConn

open HighJump.Lib
open HighJump.Lib.Handles (Call)
open HighJump.Db.Redis (Bytes ValIn)

/-- `redis`; `err` is that of the context. -/
structure Conn where
  ctx : Option Nat
  err : Bool
  lastErr : String
  deriving DecidableEq, Repr

def Conn.new : Conn := { ctx := none, err := false, lastErr := "" }

/-- `redisReply`, with the types that the code knows. -/
inductive Reply where
  | string (s : Bytes)
  | status (s : Bytes)
  | integer (n : Int64)
  | error (str : Option String)
  | array (elements : List Reply)
  | other

/-- What `redisCommandArgv` answers: a reply or null, and the context's
`err` and `errstr` then. -/
structure Answer where
  reply : Option Reply
  err : Bool
  errstr : String

/-- What `redisConnectWithTimeout` answers. -/
structure Connected where
  made : Bool
  err : Bool
  errstr : String
  deriving DecidableEq, Repr

/-- A connection behind a call, and what the call did. -/
structure After (α : Type) where
  conn : Conn
  calls : List Call
  sends : List (Nat × Bool)
  result : α

section

variable (impl : Impl)

/-- `is_connected()`, with the context. -/
def Conn.connected (conn : Conn) : Option Nat := if conn.err then none else conn.ctx

def Conn.close (conn : Conn) : Conn × List Call :=
  match conn.ctx with
  | none => (conn, [])
  | some h => ({ conn with ctx := none, err := false }, [.closeHandle h])

/-- `_exec` on the context `h`. The reply has the number `c`; it is read
by the caller and freed behind that. -/
def Conn.send (conn : Conn) (h c : Nat) (cmdTmpl : Bytes) (args : List ValIn) (a : Answer) :
    After (Option Reply) :=
  match Redis.exec impl cmdTmpl args with
  | .error e => { conn := { conn with lastErr := e }, calls := [], sends := [], result := none }
  | .ok _ =>
      match a.reply with
      | none =>
          { conn := { conn with err := a.err, lastErr := a.errstr }, calls := [.useHandle h],
            sends := [(h, a.err)], result := none }
      | some reply =>
          { conn := { conn with err := a.err },
            calls := [.useHandle h, .openChild h c, .useChild c, .closeChild c],
            sends := [(h, a.err)], result := some reply }

/-- `std::strcmp(reply->str, "OK") == 0` -/
def isOk (s : Bytes) : Bool := s.takeWhile (· ≠ 0) == [0x4F, 0x4B]

/-- `exec_impl` -/
def Conn.exec (conn : Conn) (c : Nat) (cmdTmpl : Bytes) (args : List ValIn) (a : Answer) :
    After ExecResult :=
  match conn.connected with
  | none => { conn, calls := [], sends := [], result := .failed .notConnected }
  | some h =>
      let r := conn.send impl h c cmdTmpl args a
      match r.result with
      | none => { r with result := .failed .ioError }
      | some (.error str) =>
          { r with conn := { r.conn with lastErr := str.getD "Redis execution error" },
                   result := .failed .badMessage }
      | some (.integer n) =>
          { r with result := { ec := none, affectedRows := n.toInt, lastInsertId := 0 } }
      | some (.status s) =>
          { r with result := { ec := none, affectedRows := if isOk s then 1 else 0,
                               lastInsertId := 0 } }
      | some _ => { r with result := { ec := none, affectedRows := 0, lastInsertId := 0 } }

/-- A reply, or an element of one, as a cell. -/
def Reply.cell : Reply → OutVal
  | .string s | .status s => .text s
  | .integer n => .int n
  | _ => .null

/-- `_parse_reply_to_ret` -/
def Reply.toRet : Reply → Ret
  | .array elements =>
      (elements.map Reply.cell).foldl Ret.emplaceBack (.setDim elements.length 1)
  | reply => (Ret.setDim 1 1).emplaceBack reply.cell

/-- `query_impl`. The table is cleared first of all. -/
def Conn.query (conn : Conn) (c : Nat) (cmdTmpl : Bytes) (args : List ValIn) (a : Answer) :
    After (Ret × Option Errc) :=
  match conn.connected with
  | none => { conn, calls := [], sends := [], result := (.clear, some .notConnected) }
  | some h =>
      let r := conn.send impl h c cmdTmpl args a
      match r.result with
      | none => { r with result := (.clear, some .ioError) }
      | some (.error str) =>
          { r with conn := { r.conn with lastErr := str.getD "Redis query error" },
                   result := (.clear, some .badMessage) }
      | some reply => { r with result := (reply.toRet, none) }

/-- `"AUTH ?"` and `"SELECT ?"` -/
def authTmpl : Bytes := [0x41, 0x55, 0x54, 0x48, 0x20, 0x3F]

def selectTmpl : Bytes := [0x53, 0x45, 0x4C, 0x45, 0x43, 0x54, 0x20, 0x3F]

/-- A command of `connect`, where there is one: whether to go on. -/
def Conn.greet (conn : Conn) (needed : Bool) (c : Nat) (cmdTmpl : Bytes) (arg : ValIn)
    (a : Answer) : After Bool :=
  if needed then
    let r := conn.exec impl c cmdTmpl [arg] a
    { r with result := r.result.ec = none }
  else { conn, calls := [], sends := [], result := true }

/-- `connect(host, port, timeout_ms, password, db)`, where the context is
`h` if there is one and the replies are `c` and `c + 1`. -/
def Conn.connect (conn : Conn) (password : Bytes) (db : Int64) (h c : Nat) (a : Connected)
    (auth select : Answer) : After Bool :=
  let (conn, calls) := conn.close
  let conn := { conn with lastErr := "" }
  if !a.made then
    { conn := { conn with lastErr := "Failed to allocate redis context" }, calls, sends := [],
      result := false }
  else if a.err then
    { conn := { conn with lastErr := a.errstr },
      calls := calls ++ [.openHandle h] ++ [.useHandle h] ++ [.closeHandle h], sends := [],
      result := false }
  else
    let conn := { conn with ctx := some h, err := false }
    let r := conn.greet impl (password ≠ []) c authTmpl (.string password) auth
    if !r.result then { r with calls := calls ++ [.openHandle h] ++ r.calls, result := false }
    else
      let r' := r.conn.greet impl (0 < db.toInt) (c + 1) selectTmpl (.int db) select
      { r' with calls := calls ++ [.openHandle h] ++ (r.calls ++ r'.calls),
                sends := r.sends ++ r'.sends }

/-! ## Runs over any number of connections -/

structure World where
  conns : Nat → Option Conn
  log : List Call
  sends : List (Nat × Bool)
  ctxs : Nat
  replies : Nat

def World.new : World :=
  { conns := fun _ => none, log := [], sends := [], ctxs := 0, replies := 0 }

inductive Op where
  | construct (k : Nat)
  | moveConstruct (k src : Nat)
  | moveAssign (k src : Nat)
  | destroy (k : Nat)
  | connect (k : Nat) (password : Bytes) (db : Int64) (a : Connected) (auth select : Answer)
  | close (k : Nat)
  | exec (k : Nat) (cmdTmpl : Bytes) (args : List ValIn) (a : Answer)
  | query (k : Nat) (cmdTmpl : Bytes) (args : List ValIn) (a : Answer)

/-- Connection `k` is now `conn`, by these calls. -/
def World.put (w : World) (k : Nat) (conn : Option Conn) (calls : List Call)
    (sends : List (Nat × Bool)) : World :=
  { w with conns := Function.update w.conns k conn, log := w.log ++ calls,
           sends := w.sends ++ sends }

def World.step (w : World) : Op → Option World
  | .construct k =>
      match w.conns k with
      | none => some (w.put k (some .new) [] [])
      | some _ => none
  | .moveConstruct k src =>
      match w.conns k, w.conns src with
      | none, some other => some ((w.put src (some .new) [] []).put k (some other) [] [])
      | _, _ => none
  | .moveAssign k src =>
      match w.conns k, w.conns src with
      | some conn, some other =>
          -- `this != &other`
          if k = src then some w
          else some ((w.put src (some .new) conn.close.2 []).put k (some other) [] [])
      | _, _ => none
  | .destroy k => (w.conns k).map fun conn => w.put k none conn.close.2 []
  | .connect k password db a auth select => (w.conns k).map fun conn =>
      let r := conn.connect impl password db w.ctxs w.replies a auth select
      { w.put k (some r.conn) r.calls r.sends with
          ctxs := w.ctxs + if a.made then 1 else 0, replies := w.replies + 2 }
  | .close k => (w.conns k).map fun conn => w.put k (some conn.close.1) conn.close.2 []
  | .exec k cmdTmpl args a => (w.conns k).map fun conn =>
      let r := conn.exec impl w.replies cmdTmpl args a
      { w.put k (some r.conn) r.calls r.sends with replies := w.replies + 1 }
  | .query k cmdTmpl args a => (w.conns k).map fun conn =>
      let r := conn.query impl w.replies cmdTmpl args a
      { w.put k (some r.conn) r.calls r.sends with replies := w.replies + 1 }

def lts : Lts World Op where
  init w := w = .new
  step w op w' := w.step impl op = some w'

/-- Whose context it is. -/
def World.owner (w : World) (k : Nat) : Option Nat := (w.conns k).bind Conn.ctx

end

end HighJump.Db.RedisConn
