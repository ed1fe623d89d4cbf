/-
HighJump.Io.ChainBuffer — `hj::chain_buffer` of `hj/io/chain_buffer.hpp`:
a byte queue in a vector of blocks with a read cursor.

Sizes are `Nat`. What can go wrong in the source is an `Error`: an index
past the end, a subtraction below zero (when the subtraction is the
trapping one), a vector asked to hold more than `max_size()`, and a loop
that does not come to an end. The two subtractions of the source whose
operands nothing in the same line bounds are made with the parameter
`sub`; the others (`len -= to_copy`, `_total_size -= avail`) follow a
`min` or a comparison that bounds them.
-/
import HighJump.Lib.MachineInt
import HighJump.Lib.Memory
import Mathlib.Logic.Function.Basic

namespace HighJump.Io

open HighJump.Lib

abbrev Bytes := List UInt8

/-- `std::vector<uint8_t>::max_size()`. -/
def maxSize : Nat := 2 ^ 63 - 1

/-- How an operation fails. -/
inductive Error where
  | outOfRange | underflow | lengthError | diverges
  deriving DecidableEq, Repr

/-- `chain_buffer`. -/
structure ChainBuffer where
  blockSize : Nat
  blocks : List Bytes
  totalSize : Nat
  readPos : Nat
  readBlock : Nat
  deriving DecidableEq, Repr

namespace ChainBuffer

/-- The constructor; `reserve` refuses a block no vector can hold. -/
def new (blockSize : Nat) : Except Error ChainBuffer :=
  if blockSize ≤ maxSize then
    .ok { blockSize, blocks := [[]], totalSize := 0, readPos := 0, readBlock := 0 }
  else .error .lengthError

/-- `size()`. -/
def size (b : ChainBuffer) : Nat := b.totalSize

/-- `empty()`. -/
def empty (b : ChainBuffer) : Bool := b.totalSize == 0

/-- `clear()`. -/
def clear (b : ChainBuffer) : ChainBuffer :=
  { b with blocks := [[]], totalSize := 0, readPos := 0, readBlock := 0 }

/-- `if(_blocks.empty() || _blocks.back().size() == _block_size) _blocks.emplace_back()`. -/
def withRoom (b : ChainBuffer) : ChainBuffer :=
  match b.blocks.getLast? with
  | none => { b with blocks := [[]] }
  | some back => if back.length = b.blockSize then { b with blocks := b.blocks ++ [[]] } else b

section Operations

variable (sub : Nat → Nat → Except Error Nat)

/-- The loop of `append(data, len)`; `p` is what is left of the data. -/
def appendLoop : Nat → ChainBuffer → Bytes → Except Error ChainBuffer
  | 0, _, _ => .error .diverges
  | fuel + 1, b, p =>
      if p.length > 0 then
        let b := b.withRoom
        match b.blocks.getLast? with
        | none => .error .outOfRange
        | some back => do
            let space ← sub b.blockSize back.length
            let toCopy := min space p.length
            if back.length + toCopy ≤ maxSize then
              appendLoop fuel
                { b with blocks := b.blocks.dropLast ++ [back ++ p.take toCopy],
                         totalSize := b.totalSize + toCopy }
                (p.drop toCopy)
            else .error .lengthError
      else .ok b

/-- `append(data, len)`. -/
def append (b : ChainBuffer) (data : Bytes) : Except Error ChainBuffer :=
  appendLoop sub (data.length + 1) b data

/-- The blocks of the other buffer in `append(other)`: taken over by a
buffer that has none of its own, else copied one by one. -/
def appendBlocks (b other : ChainBuffer) : Except Error ChainBuffer :=
  if b.readBlock = 0 ∧ b.readPos = 0 ∧ b.blocks = [[]] then .ok { b with blocks := other.blocks }
  else other.blocks.foldlM (fun b blk => if blk.isEmpty then .ok b else append sub b blk) b

/-- `append(other)`: both buffers afterwards. -/
def appendBuffer (b other : ChainBuffer) : Except Error (ChainBuffer × ChainBuffer) :=
  if other.empty then .ok (b, other)
  else (appendBlocks sub b other).map fun b =>
    ({ b with totalSize := b.totalSize + other.totalSize }, other.clear)

/-- The loop of `read(out, len)`; `out` is what has been copied. -/
def readLoop (b : ChainBuffer) :
    Nat → (len copied blkIdx pos : Nat) → Bytes → Except Error (Nat × Bytes)
  | 0, _, _, _, _, _ => .error .diverges
  | fuel + 1, len, copied, blkIdx, pos, out =>
      if len > 0 ∧ blkIdx < b.blocks.length then
        match b.blocks[blkIdx]? with
        | none => .error .outOfRange
        | some blk =>
            if pos ≥ blk.length then readLoop b fuel len copied (blkIdx + 1) 0 out
            else do
              let avail ← sub blk.length pos
              let toCopy := min avail len
              match readN blk pos toCopy with
              | none => .error .outOfRange
              | some xs =>
                  readLoop b fuel (len - toCopy) (copied + toCopy) blkIdx (pos + toCopy) (out ++ xs)
      else .ok (copied, out)

/-- `read(out, len)`: the number returned and the bytes written to `out`. -/
def read (b : ChainBuffer) (len : Nat) : Except Error (Nat × Bytes) :=
  readLoop sub b (2 * b.blocks.length + 1) len 0 b.readBlock b.readPos []

/-- The loop of `consume(len)` and what follows it. The return from inside
the loop skips the erasing of consumed blocks. -/
def consumeLoop : Nat → ChainBuffer → (len consumed : Nat) → Except Error (ChainBuffer × Nat)
  | 0, _, _, _ => .error .diverges
  | fuel + 1, b, len, consumed =>
      if len > 0 ∧ b.blocks ≠ [] then
        match b.blocks[b.readBlock]? with
        | none => .error .outOfRange
        | some blk => do
            let avail ← sub blk.length b.readPos
            if len < avail then
              .ok ({ b with readPos := b.readPos + len, totalSize := b.totalSize - len },
                consumed + len)
            else
              consumeLoop fuel
                { b with totalSize := b.totalSize - avail, readBlock := b.readBlock + 1,
                         readPos := 0 }
                (len - avail) (consumed + avail)
      else if b.readBlock > 0 then
        if b.readBlock ≤ b.blocks.length then
          .ok ({ b with blocks := b.blocks.drop b.readBlock, readBlock := 0 }, consumed)
        else .error .outOfRange
      else .ok (b, consumed)

/-- `consume(len)`. -/
def consume (b : ChainBuffer) (len : Nat) : Except Error (ChainBuffer × Nat) :=
  consumeLoop sub (b.blocks.length + 1) b (if len < b.totalSize then len else b.totalSize) 0

end Operations

/-! ## Runs -/

/-- The calls on one buffer. -/
inductive Op where
  | append (data : Bytes)
  | read (len : Nat)
  | consume (len : Nat)
  | clear
  deriving DecidableEq, Repr

/-- What a call returns: `read` its count and its bytes, `consume` its
count. -/
inductive Answer where
  | unit
  | bytes (n : Nat) (bs : Bytes)
  | count (n : Nat)
  deriving DecidableEq, Repr

/-- One call. -/
def exec (sub : Nat → Nat → Except Error Nat) (b : ChainBuffer) :
    Op → Except Error (ChainBuffer × Answer)
  | .append data => (append sub b data).map (·, .unit)
  | .read len => (read sub b len).map fun (n, bs) => (b, .bytes n bs)
  | .consume len => (consume sub b len).map fun (b, n) => (b, .count n)
  | .clear => .ok (b.clear, .unit)

/-- A byte queue: what the component is for. -/
def Queue.step (w : Bytes) : Op → Bytes × Answer
  | .append data => (w ++ data, .unit)
  | .read len => (w, .bytes (min len w.length) (w.take len))
  | .consume len => (w.drop len, .count (min len w.length))
  | .clear => ([], .unit)

/-! ## Several buffers -/

section Store

variable {ι : Type} [DecidableEq ι]

/-- A call on one buffer, or a splice of the second into the first. -/
inductive Act (ι : Type) where
  | call (i : ι) (op : Op)
  | splice (i j : ι)
  deriving DecidableEq, Repr

/-- One call among several buffers. -/
def execAct (sub : Nat → Nat → Except Error Nat) (s : ι → ChainBuffer) :
    Act ι → Except Error ((ι → ChainBuffer) × Answer)
  | .call i op => (exec sub (s i) op).map fun (b, r) => (Function.update s i b, r)
  | .splice i j => (appendBuffer sub (s i) (s j)).map fun (a, b) =>
      (Function.update (Function.update s i a) j b, .unit)

/-- Several byte queues. -/
def Queue.act (w : ι → Bytes) : Act ι → (ι → Bytes) × Answer
  | .call i op => (Function.update w i (Queue.step (w i) op).1, (Queue.step (w i) op).2)
  | .splice i j => (Function.update (Function.update w i (w i ++ w j)) j [], .unit)

end Store

end ChainBuffer

end HighJump.Io
