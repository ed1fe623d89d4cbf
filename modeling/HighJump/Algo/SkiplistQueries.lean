/-
HighJump.Algo.SkiplistQueries — the operations of `hj/algo/skiplist.hpp`
that only look: by rank, by score, and the two range queries built on
them.

Memory, fuel and failure are as in `Skiplist`. The searches here keep no
`update` array; their inner loop is the `walk` of the mutators. A range
result lists the addresses of its nodes.
-/
import HighJump.Algo.Skiplist

namespace HighJump.Algo.Skip

open HighJump.Lib

variable {S T : Type}

/-! ## The descent, without slots -/

/-- The outer loop of a search, from level `i - 1` down to 0. -/
def seek {α : Type} (h : Heap S T) (go : Nat → α → Ptr → Ptr → Option Bool)
    (count : Nat → α → Ptr → Option α) (fuel : Nat) : Nat → Ptr × α → Option (Ptr × α)
  | 0, x => some x
  | i + 1, x => do
      let x ← walk h go count i fuel x
      seek h go count fuel i x

/-! ## By rank -/

/-- `(traversed + x->_level[i].span - 1) < rank`. -/
def goBelow (h : Heap S T) (rank : UInt64) (i : Nat) (traversed : UInt64) (x _ : Ptr) :
    Option Bool := do
  let s ← span h x i
  some (decide (traversed + s - 1 < rank))

/-- `get_element_by_rank`. -/
def getElementByRank (rank : UInt64) (sl : Skiplist S T) (fuel : Nat) : Option Ptr :=
  if sl.length ≤ rank then some null
  else do
    let (x, _) ← seek sl.heap (goBelow sl.heap rank) (countSpan sl.heap) fuel sl.level (sl.header, 0)
    forward sl.heap x 0

/-- `range_result<T>`. -/
structure RangeResult where
  nodes : List Ptr
  totalInRange : UInt64
  deriving DecidableEq

/-- `range_result()`. -/
def RangeResult.empty : RangeResult := ⟨[], 0⟩

/-- `nodes.push_back(x); total_in_range++`. -/
def RangeResult.push (r : RangeResult) (x : Ptr) : RangeResult :=
  ⟨r.nodes ++ [x], r.totalInRange + 1⟩

/-- `if(node) { … }`, with the node of a rank. -/
def pushRank (sl : Skiplist S T) (rank : UInt64) (fuel : Nat) (r : RangeResult) :
    Option RangeResult := do
  let node ← getElementByRank rank sl fuel
  some (if node = null then r else r.push node)

/-- The forward loop of `range_by_rank`. -/
def rankUp (sl : Skiplist S T) (last : UInt64) :
    Nat → UInt64 × RangeResult → Option RangeResult :=
  repeatUntil fun fuel (i, r) =>
    if i ≤ last then do
      let r ← pushRank sl i fuel r
      some (.again (i + 1, r))
    else some (.exit r)

/-- The reverse loop of `range_by_rank`. -/
def rankDown (sl : Skiplist S T) (start : UInt64) :
    Nat → UInt64 × RangeResult → Option RangeResult :=
  repeatUntil fun fuel (i, r) =>
    if start < i then do
      let r ← pushRank sl (i - 1) fuel r
      some (.again (i - 1, r))
    else some (.exit r)

/-- `range_by_rank`. -/
def rangeByRank (start end_ : UInt64) (reverse : Bool) (sl : Skiplist S T) (fuel : Nat) :
    Option RangeResult :=
  if end_ < start ∨ sl.length ≤ start then some .empty
  else
    let last := if sl.length ≤ end_ then sl.length - 1 else end_
    if reverse then rankDown sl start fuel (last + 1, .empty)
    else rankUp sl last fuel (start, .empty)

variable [LinearOrder S]

/-- The outer loop of `get_rank`, which may leave from any level. -/
def rankLevels (cmp : Comparable T) (score : S) (obj : T) (sl : Skiplist S T) (fuel : Nat) :
    Nat → Ptr × UInt64 → Option UInt64
  | 0, _ => some sl.length
  | i + 1, x => do
      let (x, rank) ← walk sl.heap (goEntry sl.heap cmp score obj) (countSpan sl.heap) i fuel x
      let f ← forward sl.heap x i
      if f = null then rankLevels cmp score obj sl fuel i (x, rank)
      else
        let n ← deref sl.heap f
        if n.score = score ∧ cmp.compare n.obj obj = false ∧ cmp.compare obj n.obj = false then
          let s ← span sl.heap x i
          some (rank + s - 1)
        else rankLevels cmp score obj sl fuel i (x, rank)

/-- `get_rank`. -/
def getRank (cmp : Comparable T) (score : S) (obj : T) (sl : Skiplist S T) (fuel : Nat) :
    Option UInt64 :=
  rankLevels cmp score obj sl fuel sl.level (sl.header, 0)

/-! ## By score -/

/-- `_is_in_range`. -/
def isInRange (minScore maxScore : S) (sl : Skiplist S T) : Option Bool :=
  if maxScore < minScore then some false
  else if sl.tail = null then some false
  else do
    let t ← deref sl.heap sl.tail
    if t.score < minScore then some false
    else
      let f ← forward sl.heap sl.header 0
      if f = null then some false
      else
        let n ← deref sl.heap f
        if maxScore < n.score then some false else some true

/-- `last_in_range`: the next node does not score more. -/
def goUpTo {α : Type} (h : Heap S T) (maxScore : S) (_ : Nat) (_ : α) (_ next : Ptr) :
    Option Bool := do
  let n ← deref h next
  some (decide (n.score ≤ maxScore))

/-- `first_in_range`. -/
def firstInRange (minScore maxScore : S) (sl : Skiplist S T) (fuel : Nat) : Option Ptr := do
  if ← isInRange minScore maxScore sl then
    let (x, _) ← seek sl.heap (goScore sl.heap minScore) countNone fuel sl.level (sl.header, ())
    let x ← forward sl.heap x 0
    if x = null then some null
    else
      let n ← deref sl.heap x
      if maxScore < n.score then some null else some x
  else some null

/-- `last_in_range`. The header counts as a node here. -/
def lastInRange (minScore maxScore : S) (sl : Skiplist S T) (fuel : Nat) : Option Ptr := do
  if ← isInRange minScore maxScore sl then
    let (x, _) ← seek sl.heap (goUpTo sl.heap maxScore) countNone fuel sl.level (sl.header, ())
    if x = null then some null
    else
      let n ← deref sl.heap x
      if n.score < minScore then some null else some x
  else some null

/-- `x && x->score <= max_score`. -/
def within (h : Heap S T) (maxScore : S) (x : Ptr) : Option Bool :=
  if x = null then some false
  else do
    let n ← deref h x
    some (decide (n.score ≤ maxScore))

/-- The loop that skips `offset` nodes. -/
def skipLoop (h : Heap S T) (maxScore : S) (offset : UInt64) :
    Nat → UInt64 × Ptr × RangeResult → Option (Ptr × RangeResult) :=
  repeatUntil fun _ (i, x, r) =>
    if i < offset then do
      if ← within h maxScore x then
        let x ← forward h x 0
        some (.again (i + 1, x, { r with totalInRange := r.totalInRange + 1 }))
      else some (.exit (x, r))
    else some (.exit (x, r))

/-- The loop that collects up to `limit` nodes. -/
def collectLoop (h : Heap S T) (maxScore : S) (limit : Int64) :
    Nat → Int64 × Ptr × RangeResult → Option (Ptr × RangeResult) :=
  repeatUntil fun _ (collected, x, r) => do
    if ← within h maxScore x then
      if limit = -1 ∨ collected < limit then
        let next ← forward h x 0
        some (.again (collected + 1, next, r.push x))
      else some (.exit (x, r))
    else some (.exit (x, r))

/-- The loop that counts the remaining nodes. -/
def countLoop (h : Heap S T) (maxScore : S) :
    Nat → Ptr × RangeResult → Option RangeResult :=
  repeatUntil fun _ (x, r) => do
    if ← within h maxScore x then
      let x ← forward h x 0
      some (.again (x, { r with totalInRange := r.totalInRange + 1 }))
    else some (.exit r)

/-- `range_by_score`. -/
def rangeByScore (minScore maxScore : S) (offset : UInt64) (limit : Int64) (sl : Skiplist S T)
    (fuel : Nat) : Option RangeResult := do
  let x ← firstInRange minScore maxScore sl fuel
  if x = null then some .empty
  else
    let (x, r) ← skipLoop sl.heap maxScore offset fuel (0, x, .empty)
    let (x, r) ← collectLoop sl.heap maxScore limit fuel (0, x, r)
    countLoop sl.heap maxScore fuel (x, r)

end HighJump.Algo.Skip
