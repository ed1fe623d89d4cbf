/-
HighJump.Algo.Skiplist — `hj::skiplist<T>` of `hj/algo/skiplist.hpp`: the
node layout, the constructor and the four operations that change a list.

Memory is explicit. A `node_t *` is a 64-bit address, the heap maps the
addresses of live nodes to nodes, and a node's flexible array `_level[]`
has the cells its tower was allocated with, each field unwritten until it
is assigned. Every read and write is checked: a null or freed address, a
level the tower does not have, a field not yet written, an index outside
`update[SKIPLIST_MAXLEVEL]` or an entry of it never assigned has no
result. Spans, ranks and lengths are `unsigned long`, with its
wraparound. What the program does not determine is an argument of
`insert`: the height `_random_level` draws and the address `operator new`
returns. A loop that chases pointers takes fuel.

Scores are the values of a linear order (doubles that are numbers), and
the comparison is a strict weak order, as its users promise.
-/
import HighJump.Lib.Loop
import Mathlib.Order.Basic
import Mathlib.Order.RelClasses
import Mathlib.Logic.Function.Basic
import Mathlib.Algebra.Ring.Nat
import Mathlib.Order.Lattice

namespace HighJump.Algo.Skip

open HighJump.Lib

/-! ## Nodes and memory -/

/-- `node_t *`. -/
abbrev Ptr := UInt64

/-- `nullptr`. -/
def null : Ptr := 0

/-- `SKIPLIST_MAXLEVEL`. -/
def maxLevel : Nat := 32

/-- One cell of `_level[]`; `none` is a field not yet written. -/
structure Level where
  forward : Option Ptr
  span : Option UInt64

/-- `node_t`, with the number of cells it was allocated with. -/
structure Node (S T : Type) where
  obj : T
  score : S
  backward : Ptr
  height : Nat
  level : Nat → Level

/-- The live nodes. -/
abbrev Heap (S T : Type) := Ptr → Option (Node S T)

variable {S T : Type}

/-- `*p`. -/
def deref (h : Heap S T) (p : Ptr) : Option (Node S T) := if p = null then none else h p

/-- `p->_level[i].forward`. -/
def forward (h : Heap S T) (p : Ptr) (i : Nat) : Option Ptr := do
  let n ← deref h p
  if i < n.height then (n.level i).forward else none

/-- `p->_level[i].span`. -/
def span (h : Heap S T) (p : Ptr) (i : Nat) : Option UInt64 := do
  let n ← deref h p
  if i < n.height then (n.level i).span else none

/-- `p->backward`. -/
def backward (h : Heap S T) (p : Ptr) : Option Ptr := do
  let n ← deref h p
  some n.backward

/-- `p->_level[i].forward = q`. -/
def setForward (h : Heap S T) (p : Ptr) (i : Nat) (q : Ptr) : Option (Heap S T) := do
  let n ← deref h p
  if i < n.height then
    some (Function.update h p (some { n with
      level := Function.update n.level i { n.level i with forward := some q } }))
  else none

/-- `p->_level[i].span = s`. -/
def setSpan (h : Heap S T) (p : Ptr) (i : Nat) (s : UInt64) : Option (Heap S T) := do
  let n ← deref h p
  if i < n.height then
    some (Function.update h p (some { n with
      level := Function.update n.level i { n.level i with span := some s } }))
  else none

/-- `p->backward = q`. -/
def setBackward (h : Heap S T) (p q : Ptr) : Option (Heap S T) := do
  let n ← deref h p
  some (Function.update h p (some { n with backward := q }))

/-- `if(f) f->backward = q`. -/
def setBackwardOf (h : Heap S T) (f q : Ptr) : Option (Heap S T) :=
  if f = null then some h else setBackward h f q

/-- `_create_node`, at the address `operator new` returns: never null and
never that of a live node. -/
def createNode (h : Heap S T) (p : Ptr) (height : Nat) (score : S) (obj : T) :
    Option (Heap S T) :=
  if p = null ∨ (h p).isSome then none
  else some (Function.update h p (some ⟨obj, score, null, height, fun _ => ⟨none, none⟩⟩))

/-- `_free_node`. -/
def freeNode (h : Heap S T) (p : Ptr) : Option (Heap S T) := do
  let _ ← deref h p
  some (Function.update h p none)

/-- `skiplist<T>`. -/
structure Skiplist (S T : Type) where
  heap : Heap S T
  header : Ptr
  tail : Ptr
  length : UInt64
  level : Nat

/-- `comparable`: a strict weak order. -/
structure Comparable (T : Type) where
  compare : T → T → Bool
  strict_weak : IsStrictWeakOrder T fun a b => compare a b = true

/-- The loop of the constructor. -/
def initLevel (header : Ptr) (j : Nat) (h : Heap S T) : Option (Heap S T) := do
  let h ← setForward h header j null
  setSpan h header j 0

/-- `skiplist(cmp)`; its comparison is passed to the operations. -/
def new [Zero S] [Inhabited T] (addr : Ptr) : Option (Skiplist S T) := do
  let h ← createNode (fun _ => none) addr maxLevel 0 default
  let h ← forUp (initLevel addr) maxLevel 0 h
  let h ← setBackward h addr null
  some ⟨h, addr, null, 0, 1⟩

/-! ## The descent -/

/-- The local arrays `update[SKIPLIST_MAXLEVEL]` and, beside it, `rank`;
`none` is an entry not yet assigned. -/
abbrev Slots (α : Type) := Nat → Option (Ptr × α)

def Slots.store {α : Type} (s : Slots α) (i : Nat) (v : Ptr × α) : Option (Slots α) :=
  if i < maxLevel then some (Function.update s i (some v)) else none

def Slots.fetch {α : Type} (s : Slots α) (i : Nat) : Option (Ptr × α) :=
  if i < maxLevel then s i else none

section Descent

variable {α : Type} (h : Heap S T) (go : Nat → α → Ptr → Ptr → Option Bool)
  (count : Nat → α → Ptr → Option α)

/-- The inner loop of every search: from `x` along level `i` while there
is a next node and `go` holds of it, counting with `count`. -/
def walk (i : Nat) : Nat → Ptr × α → Option (Ptr × α) :=
  repeatUntil fun _ (x, acc) => do
    let next ← forward h x i
    if next = null then some (.exit (x, acc))
    else
      if ← go i acc x next then
        let acc ← count i acc x
        some (.again (next, acc))
      else some (.exit (x, acc))

/-- The outer loop, from level `i - 1` down to 0, noting in every level
where it left off. -/
def descend (fuel : Nat) : Nat → Ptr × α → Slots α → Option ((Ptr × α) × Slots α)
  | 0, x, s => some (x, s)
  | i + 1, x, s => do
      let x ← walk h go count i fuel x
      let s ← s.store i x
      descend fuel i x s

end Descent

variable [LinearOrder S]

/-- `x->score < score || (x->score == score && _compare(x->obj, obj))`. -/
def precedes (cmp : Comparable T) (score : S) (obj : T) (n : Node S T) : Bool :=
  decide (n.score < score) || (decide (n.score = score) && cmp.compare n.obj obj)

/-! The tests of the searches, and what they count on the way. -/

/-- `insert`, `delete_node`: the next node precedes the entry. -/
def goEntry {α : Type} (h : Heap S T) (cmp : Comparable T) (score : S) (obj : T) (_ : Nat) (_ : α)
    (_ next : Ptr) : Option Bool := do
  let n ← deref h next
  some (precedes cmp score obj n)

/-- `delete_range_by_score`: the next node scores less. -/
def goScore {α : Type} (h : Heap S T) (minScore : S) (_ : Nat) (_ : α) (_ next : Ptr) :
    Option Bool := do
  let n ← deref h next
  some (decide (n.score < minScore))

/-- `delete_range_by_rank`: the next node is not beyond the rank. -/
def goRank (h : Heap S T) (start : UInt64) (i : Nat) (traversed : UInt64) (x _ : Ptr) :
    Option Bool := do
  let s ← span h x i
  some (decide (traversed + s ≤ start))

/-- `rank[i] += x->_level[i].span`, `traversed += x->_level[i].span`. -/
def countSpan (h : Heap S T) (i : Nat) (n : UInt64) (x : Ptr) : Option UInt64 := do
  let s ← span h x i
  some (n + s)

/-- Nothing. -/
def countNone (_ : Nat) (_ : Unit) (_ : Ptr) : Option Unit := some ()

/-! ## Insertion -/

/-- What the environment decides in one `insert`: the height
`_random_level` draws and the address `operator new` returns. -/
structure Draw where
  height : Nat
  addr : Ptr

/-- The loop over the levels the new tower is first to reach. -/
def raise (header : Ptr) (length : UInt64) (i : Nat) (s : Heap S T × Slots UInt64) :
    Option (Heap S T × Slots UInt64) := do
  let slots ← s.2.store i (header, 0)
  let h ← setSpan s.1 header i length
  some (h, slots)

/-- The loop that links the new node in at level `i`. -/
def link (slots : Slots UInt64) (x : Ptr) (i : Nat) (h : Heap S T) : Option (Heap S T) := do
  let (u, rank) ← slots.fetch i
  let (_, rank0) ← slots.fetch 0
  let f ← forward h u i
  let h ← setForward h x i f
  let h ← setForward h u i x
  let s ← span h u i
  let h ← setSpan h x i (s - (rank0 - rank))
  setSpan h u i (rank0 - rank + 1)

/-- The loop over the levels above the new tower. -/
def bump (slots : Slots UInt64) (i : Nat) (h : Heap S T) : Option (Heap S T) := do
  let (u, _) ← slots.fetch i
  let s ← span h u i
  setSpan h u i (s + 1)

/-- `insert` once the place is found. -/
def insertAt (slots : Slots UInt64) (score : S) (obj : T) (draw : Draw) (sl : Skiplist S T) :
    Option (Skiplist S T × Ptr) := do
  let newLevel := draw.height
  let (h, slots) ← forUp (raise sl.header sl.length) (newLevel - sl.level) sl.level (sl.heap, slots)
  let level := max sl.level newLevel
  let x := draw.addr
  let h ← createNode h x newLevel score obj
  let h ← forUp (link slots x) newLevel 0 h
  let h ← forUp (bump slots) (level - newLevel) newLevel h
  let (u, _) ← slots.fetch 0
  let h ← setBackward h x (if u = sl.header then null else u)
  let f ← forward h x 0
  let h ← setBackwardOf h f x
  let tail := if f = null then x else sl.tail
  some (⟨h, sl.header, tail, sl.length + 1, level⟩, x)

/-- `insert`: the list after it and the new node. -/
def insert (cmp : Comparable T) (score : S) (obj : T) (draw : Draw) (sl : Skiplist S T)
    (fuel : Nat) : Option (Skiplist S T × Ptr) := do
  let (_, slots) ← descend sl.heap (goEntry sl.heap cmp score obj) (countSpan sl.heap) fuel
    sl.level (sl.header, 0) (fun _ => none)
  insertAt slots score obj draw sl

/-! ## Deletion -/

/-- The loop of `_delete_node_internal`. -/
def unlink (update : Nat → Option Ptr) (x : Ptr) (i : Nat) (h : Heap S T) :
    Option (Heap S T) := do
  let u ← update i
  let f ← forward h u i
  if f = x then
    let sx ← span h x i
    let su ← span h u i
    let h ← setSpan h u i (su + (sx - 1))
    let fx ← forward h x i
    setForward h u i fx
  else
    let su ← span h u i
    setSpan h u i (su - 1)

/-- `while(_level > 1 && _header->_level[_level - 1].forward == nullptr)
_level--`. -/
def lowerLevel (h : Heap S T) (header : Ptr) : Nat → Option Nat
  | 0 => some 0
  | 1 => some 1
  | n + 2 => do
      let f ← forward h header (n + 1)
      if f = null then lowerLevel h header (n + 1) else some (n + 2)

/-- `_delete_node_internal`. -/
def deleteNodeInternal (x : Ptr) (update : Nat → Option Ptr) (sl : Skiplist S T) :
    Option (Skiplist S T) := do
  let h ← forUp (unlink update x) sl.level 0 sl.heap
  let f ← forward h x 0
  let b ← backward h x
  let h ← setBackwardOf h f b
  let tail := if f = null then b else sl.tail
  let h ← freeNode h x
  let level ← lowerLevel h sl.header sl.level
  some ⟨h, sl.header, tail, sl.length - 1, level⟩

/-- `update[i]`. -/
def Slots.update {α : Type} (s : Slots α) (i : Nat) : Option Ptr := (s.fetch i).map Prod.fst

/-- `delete_node`. -/
def deleteNode (cmp : Comparable T) (score : S) (obj : T) (sl : Skiplist S T) (fuel : Nat) :
    Option (Skiplist S T × Bool) := do
  let ((x, _), slots) ← descend sl.heap (goEntry sl.heap cmp score obj) countNone fuel sl.level
    (sl.header, ()) (fun _ => none)
  let x ← forward sl.heap x 0
  if x = null then some (sl, false)
  else
    let n ← deref sl.heap x
    if n.score = score ∧ cmp.compare n.obj obj = false ∧ cmp.compare obj n.obj = false then
      let sl ← deleteNodeInternal x slots.update sl
      some (sl, true)
    else some (sl, false)

/-- The deleting loop of the two range deletions: `more` says of the node
at hand and of the number removed whether to go on. -/
def deleteWhile (update : Nat → Option Ptr) (more : Heap S T → Ptr → UInt64 → Option Bool) :
    Nat → Ptr × Skiplist S T × UInt64 → Option (Skiplist S T × UInt64) :=
  repeatUntil fun _ (x, sl, removed) =>
    if x = null then some (.exit (sl, removed))
    else do
      if ← more sl.heap x removed then
        let next ← forward sl.heap x 0
        let sl ← deleteNodeInternal x update sl
        some (.again (next, sl, removed + 1))
      else some (.exit (sl, removed))

/-- `x->score <= max_score`. -/
def moreScore (maxScore : S) (h : Heap S T) (x : Ptr) (_ : UInt64) : Option Bool := do
  let n ← deref h x
  some (decide (n.score ≤ maxScore))

/-- `current_rank <= end`; `current_rank` is `start + removed`. -/
def moreRank (start end_ : UInt64) (_ : Heap S T) (_ : Ptr) (removed : UInt64) : Option Bool :=
  some (decide (start + removed ≤ end_))

/-- `delete_range_by_score`. -/
def deleteRangeByScore (minScore maxScore : S) (sl : Skiplist S T) (fuel : Nat) :
    Option (Skiplist S T × UInt64) := do
  let ((x, _), slots) ← descend sl.heap (goScore sl.heap minScore) countNone fuel sl.level
    (sl.header, ()) (fun _ => none)
  let x ← forward sl.heap x 0
  deleteWhile slots.update (moreScore maxScore) fuel (x, sl, 0)

/-- `delete_range_by_rank`. -/
def deleteRangeByRank (start end_ : UInt64) (sl : Skiplist S T) (fuel : Nat) :
    Option (Skiplist S T × UInt64) :=
  if end_ < start ∨ sl.length ≤ start then some (sl, 0)
  else do
    let last := if sl.length ≤ end_ then sl.length - 1 else end_
    let ((x, _), slots) ← descend sl.heap (goRank sl.heap start) (countSpan sl.heap) fuel sl.level
      (sl.header, 0) (fun _ => none)
    let x ← forward sl.heap x 0
    deleteWhile slots.update (moreRank start last) fuel (x, sl, 0)

/-! ## Runs -/

/-- The operations that change a list. -/
inductive Op (S T : Type) where
  | insert (score : S) (obj : T)
  | deleteNode (score : S) (obj : T)
  | deleteRangeByScore (minScore maxScore : S)
  | deleteRangeByRank (start end_ : UInt64)

/-- What they return. -/
inductive Ret where
  | node (p : Ptr)
  | deleted (b : Bool)
  | removed (n : UInt64)
  deriving DecidableEq

/-- One operation. -/
def exec (cmp : Comparable T) (op : Op S T) (draw : Draw) (sl : Skiplist S T) (fuel : Nat) :
    Option (Skiplist S T × Ret) :=
  match op with
  | .insert score obj => (insert cmp score obj draw sl fuel).map fun r => (r.1, .node r.2)
  | .deleteNode score obj => (deleteNode cmp score obj sl fuel).map fun r => (r.1, .deleted r.2)
  | .deleteRangeByScore a b => (deleteRangeByScore a b sl fuel).map fun r => (r.1, .removed r.2)
  | .deleteRangeByRank a b => (deleteRangeByRank a b sl fuel).map fun r => (r.1, .removed r.2)

/-- What `_random_level` may draw and `operator new` may return. -/
structure Draw.Allowed (draw : Draw) (sl : Skiplist S T) : Prop where
  height_pos : 1 ≤ draw.height
  height_le : draw.height ≤ maxLevel
  not_null : draw.addr ≠ null
  fresh : sl.heap draw.addr = none

/-- Only `insert` draws. -/
def Op.Allowed (op : Op S T) (draw : Draw) (sl : Skiplist S T) : Prop :=
  match op with
  | .insert _ _ => draw.Allowed sl
  | _ => True

/-- One operation of a run: what it was, what it returned and the list
after it. -/
structure Step (S T : Type) where
  op : Op S T
  ret : Ret
  after : Skiplist S T

/-- `Run cmp sl steps sl'`: the operations of `steps` lead from `sl` to
`sl'`, for some draws. -/
inductive Run (cmp : Comparable T) : Skiplist S T → List (Step S T) → Skiplist S T → Prop where
  | nil (sl : Skiplist S T) : Run cmp sl [] sl
  | cons {sl sl' sl'' : Skiplist S T} {op : Op S T} {ret : Ret} {steps : List (Step S T)}
      (draw : Draw) : op.Allowed draw sl → Returns (exec cmp op draw sl) (sl', ret) →
      Run cmp sl' steps sl'' → Run cmp sl (⟨op, ret, sl'⟩ :: steps) sl''

end HighJump.Algo.Skip
