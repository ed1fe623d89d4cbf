/-
HighJump.Db.Redis — how `hj/db/redis.hpp` turns a command template and its
arguments into the argument vector of `redisCommandArgv`.

`_exec` cuts the template at its spaces and replaces the tokens `?` and
`%s` by the arguments, one after the other. A number is rendered into a
string at the end of `arg_buffers`, and the pointer to its characters is
taken at once, while later numbers may still make that vector move its
strings. What hiredis reads in the end is `Call.seen`; `asked` is what the
template and the arguments say.

The bytes of strings and blobs belong to the caller, who keeps them in
place during the call.
-/
import HighJump.Lib.Format
import HighJump.Lib.StringVector

namespace HighJump.Db.Redis

open HighJump.Lib

abbrev Bytes := List UInt8

/-! ## `std::to_string` -/

/-- `std::to_string(int64_t)` -/
def intToString (n : Int64) : Bytes :=
  (if n.toInt < 0 then [0x2D] else []) ++ ({} : Fmt).numeral n.toInt.natAbs

/-- `n / d` to the nearest, a tie to the even one. -/
def roundHalfEven (n d : Nat) : Nat :=
  if d < 2 * (n % d) ∨ (2 * (n % d) = d ∧ n / d % 2 = 1) then n / d + 1 else n / d

/-- `std::to_string(double)` of the double with these bits, which is
`printf("%f")`. -/
def doubleToString (d : BitVec 64) : Bytes :=
  let frac := d.toNat % 2 ^ 52
  let exp := d.toNat / 2 ^ 52 % 2 ^ 11
  let minus : Bytes := if d.msb then [0x2D] else []
  if exp = 2047 then
    minus ++ if frac = 0 then [0x69, 0x6E, 0x66] else [0x6E, 0x61, 0x6E]
  else
    -- the magnitude is `significand * 2 ^ (e - 1075)`
    let significand := if exp = 0 then frac else 2 ^ 52 + frac
    let e := if exp = 0 then 1 else exp
    let micros := roundHalfEven (significand * 10 ^ 6 * 2 ^ e) (2 ^ 1075)
    let six : Fmt := { width := 6, fill := 0x30 }
    minus ++ ({} : Fmt).numeral (micros / 10 ^ 6) ++
      0x2E :: six.pad [] (six.numeral (micros % 10 ^ 6))

/-! ## Arguments -/

/-- `db_conn::val_in_t`; a double by its bits. -/
inductive ValIn where
  | null
  | int (n : Int64)
  | double (d : BitVec 64)
  | string (bytes : Bytes)
  | blob (bytes : Bytes)
  deriving DecidableEq, Repr

/-- What `_append_val_in` writes to `arg_buffers`, if anything. -/
def ValIn.buffered : ValIn → Option Bytes
  | .int n => some (intToString n)
  | .double d => some (doubleToString d)
  | _ => none

/-- What an argument is in the command. -/
def ValIn.rendering : ValIn → Bytes
  | .null => []
  | .int n => intToString n
  | .double d => doubleToString d
  | .string bytes => bytes
  | .blob bytes => bytes

/-- An entry of `argv`: `""`, a place in the template, memory of the
caller, or the characters of a string of `arg_buffers`. -/
inductive CharPtr where
  | emptyLiteral
  | cmdTmpl (offset : Nat)
  | outside (bytes : Bytes)
  | argBuffer (p : DataPtr)
  deriving DecidableEq, Repr

/-- The characters behind a pointer. -/
def CharPtr.chars (cmdTmpl : Bytes) (argBuffers : StringVector) : CharPtr → Option Bytes
  | .emptyLiteral => some []
  | .cmdTmpl offset => some (cmdTmpl.drop offset)
  | .outside bytes => some bytes
  | .argBuffer p => argBuffers.read p

/-- `len` of them; `none` where they are not all there. -/
def CharPtr.readN (cmdTmpl : Bytes) (argBuffers : StringVector) (p : CharPtr) (len : Nat) :
    Option Bytes :=
  (p.chars cmdTmpl argBuffers).bind fun bytes =>
    if len ≤ bytes.length then some (bytes.take len) else none

/-! ## `_exec` -/

/-- The local variables of `_exec`. -/
structure Locals where
  argBuffers : StringVector := .empty
  argv : List CharPtr := []
  argvlen : List Nat := []
  argIdx : Nat := 0
  start : Nat := 0
  deriving DecidableEq, Repr

namespace Locals

def push (s : Locals) (p : CharPtr) (len : Nat) : Locals :=
  { s with argv := s.argv ++ [p], argvlen := s.argvlen ++ [len] }

/-- A number: its string goes to `arg_buffers`, `data()` and `size()` of
the new element go to `argv` and `argvlen`. -/
def pushBuffer (impl : Impl) (s : Locals) (str : Bytes) : Locals :=
  let argBuffers := s.argBuffers.pushBack impl str
  { s with argBuffers }.push (.argBuffer argBuffers.backData) str.length

/-- `_append_val_in` -/
def appendValIn (impl : Impl) (s : Locals) : ValIn → Locals
  | .null => s.push .emptyLiteral 0
  | .int n => s.pushBuffer impl (intToString n)
  | .double d => s.pushBuffer impl (doubleToString d)
  | .string bytes => s.push (.outside bytes) bytes.length
  | .blob bytes => s.push (.outside bytes) bytes.length

end Locals

/-- `token == "?" || token == "%s"` -/
def isPlaceholder (token : Bytes) : Bool := token == [0x3F] || token == [0x25, 0x73]

variable (impl : Impl) (cmdTmpl : Bytes) (args : List ValIn)

/-- The body of the loop at a space, and at the end of the template. -/
def endToken (s : Locals) (i : Nat) : Locals :=
  let s :=
    if i > s.start then
      let token := (cmdTmpl.drop s.start).take (i - s.start)
      if isPlaceholder token then
        match args[s.argIdx]? with
        | some val => { s with argIdx := s.argIdx + 1 }.appendValIn impl val
        | none => s
      else s.push (.cmdTmpl s.start) token.length
    else s
  { s with start := i + 1 }

/-- The loop from `i` on, `rest` the template from there. -/
def scan : Nat → Bytes → Locals → Locals
  | i, [], s => endToken impl cmdTmpl args s i
  | i, c :: rest, s =>
      if c ≠ 0x20 then scan (i + 1) rest s
      else scan (i + 1) rest (endToken impl cmdTmpl args s i)

/-- The arguments of `redisCommandArgv`, and the memory they point into. -/
structure Call where
  argc : Int
  argv : List CharPtr
  argvlen : List Nat
  cmdTmpl : Bytes
  argBuffers : StringVector
  deriving DecidableEq, Repr

/-- `_exec` up to the call, or the error it leaves without one. -/
def exec : Except String Call :=
  let s := scan impl cmdTmpl args 0 cmdTmpl {}
  if s.argv.isEmpty then .error "Empty command"
  else
    .ok {
      argc := (s.argv.length : Int).bmod (2 ^ 32)
      argv := s.argv
      argvlen := s.argvlen
      cmdTmpl
      argBuffers := s.argBuffers }

/-- What `redisCommandArgv` reads, entry by entry. -/
def Call.seen (call : Call) : List (Option Bytes) :=
  List.zipWith (CharPtr.readN call.cmdTmpl call.argBuffers) call.argv call.argvlen

/-! ## What was asked -/

/-- The space-separated tokens of a template. -/
def tokens (cmdTmpl : Bytes) : List Bytes := (cmdTmpl.splitOn 0x20).filter (· ≠ [])

/-- The tokens with the `k`-th placeholder replaced by the `k`-th argument. -/
def asked : List Bytes → List ValIn → List Bytes
  | [], _ => []
  | token :: ts, args =>
      if isPlaceholder token then
        match args with
        | val :: vals => val.rendering :: asked ts vals
        | [] => asked ts []
      else token :: asked ts args

/-- The strings that go to `arg_buffers`, in order. -/
def buffered (args : List ValIn) : List Bytes := args.filterMap ValIn.buffered

/-- No short number is followed by a number that makes `arg_buffers` move. -/
def Kept : Prop := ∀ j, j < (buffered args).length → StringVector.Survives impl (buffered args) j

end HighJump.Db.Redis
