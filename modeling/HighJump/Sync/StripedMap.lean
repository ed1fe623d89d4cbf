/-
HighJump.Sync.StripedMap — the striped map of `striped_map.hpp`, called
from one thread.

The map is a vector of buckets, each a `std::unordered_map`, and a
function that says which bucket a key belongs to. Every operation on a key
checks that answer before it touches anything, so a failed call is an
error without a new state. Iteration walks the buckets in order and skips
the empty ones; an iterator is the number of a bucket and a position in
it, or no position at all for the value-initialised iterator that marks
the end. The locks of the buckets are left out: a single thread takes and
releases them in turn.
-/
import HighJump.Lib.Loop
import HighJump.Lib.UnorderedMap
import Mathlib.Algebra.Ring.Nat

namespace HighJump.Sync

open HighJump.Lib

/-- What `emplace`, `replace`, `find` and `erase` throw. -/
inductive StripedError where
  | outOfRange
  deriving DecidableEq, Repr

structure StripedMap (K V : Type) where
  stripFn : K → Int
  buckets : List (UMap K V)

namespace StripedMap

/-! ## Buckets -/

variable {K V : Type}

/-- `striped_map(fn, capa)` -/
def new (fn : K → Int) (capa : Nat) : StripedMap K V where
  stripFn := fn
  buckets := List.replicate capa .empty

/-- `striped_map(capa)`: the strip function is
`static_cast<int>(std::hash<Key>{}(k) % capa)`. -/
def ofHash (hash : K → Nat) (capa : Nat) : StripedMap K V :=
  new (fun k => Int.bmod (hash k % capa : Nat) (2 ^ 32)) capa

/-- `int bucket = _strip_fn(key)` and the check that follows it. -/
def bucketOf (s : StripedMap K V) (key : K) : Except StripedError (Nat × UMap K V) :=
  let bucket := s.stripFn key
  if bucket < 0 then .error .outOfRange
  else
    match s.buckets[bucket.toNat]? with
    | none => .error .outOfRange
    | some b => .ok (bucket.toNat, b)

/-- `_buckets[bucket]` changed. -/
def setBucket (s : StripedMap K V) (bucket : Nat) (b : UMap K V) : StripedMap K V :=
  { s with buckets := s.buckets.set bucket b }

/-- One bucket of `range`: whether to go on, and the handler's state. -/
def rangeBucket {σ : Type} (fn : σ → K → V → Bool × σ) : List (K × V) → σ → Bool × σ
  | [], st => (true, st)
  | (k, v) :: es, st =>
      let (again, st) := fn st k v
      if again then rangeBucket fn es st else (false, st)

/-- `range(fn)`, where the handler carries a state of its own. -/
def range {σ : Type} (fn : σ → K → V → Bool × σ) : List (UMap K V) → σ → σ
  | [], st => st
  | b :: bs, st =>
      let (again, st) := rangeBucket fn b.entries st
      if again then range fn bs st else st

def size (s : StripedMap K V) : Nat := s.buckets.foldl (fun total b => total + b.entries.length) 0

def clear (s : StripedMap K V) : StripedMap K V :=
  { s with buckets := s.buckets.map fun _ => .empty }

/-! ## Iterators -/

/-- `const_iterator`: the bucket and the position in it; `none` is the
value-initialised iterator. -/
structure ConstIterator where
  bucket : Nat
  it : Option Nat
  deriving DecidableEq, Repr

/-- `_bucket < _buckets.size() && _it == _buckets[_bucket].end()` -/
def atBucketEnd (s : StripedMap K V) (c : ConstIterator) : Bool :=
  match s.buckets[c.bucket]? with
  | none => false
  | some b => decide (c.it = some b.entries.length)

/-- `++_bucket; if(_bucket < _buckets.size()) _it = _buckets[_bucket].begin()` -/
def nextBucket (s : StripedMap K V) (c : ConstIterator) : ConstIterator :=
  { bucket := c.bucket + 1, it := if c.bucket + 1 < s.buckets.length then some 0 else c.it }

/-- `_advance_to_valid` -/
def advanceToValid (s : StripedMap K V) (c : ConstIterator) : Option ConstIterator :=
  if s.buckets = [] then some { bucket := s.buckets.length, it := none }
  else do
    let c ← loop s.atBucketEnd (fun c => some (s.nextBucket c)) (s.buckets.length + 1) c
    return if c.bucket ≥ s.buckets.length then { c with it := none } else c

def iterEnd (s : StripedMap K V) : Option ConstIterator :=
  s.advanceToValid { bucket := s.buckets.length, it := none }

def iterBegin (s : StripedMap K V) : Option ConstIterator :=
  if s.buckets = [] then s.iterEnd else s.advanceToValid { bucket := 0, it := some 0 }

/-- `operator*`; `none` where there is nothing to refer to. -/
def deref (s : StripedMap K V) (c : ConstIterator) : Option (K × V) := do
  let b ← s.buckets[c.bucket]?
  let i ← c.it
  b.entries[i]?

/-- `operator++` -/
def increment (s : StripedMap K V) (c : ConstIterator) : Option ConstIterator := do
  let i ← c.it
  s.advanceToValid { c with it := some (i + 1) }

/-- One turn of `for(it = begin(); it != end(); ++it)`, which collects
`*it`. -/
def iterTurn (s : StripedMap K V) (_ : Nat) (st : ConstIterator × List (K × V)) :
    Option (Turn (ConstIterator × List (K × V)) (List (K × V))) := do
  let last ← s.iterEnd
  if st.1 = last then return .exit st.2
  let e ← s.deref st.1
  let c ← s.increment st.1
  return .again (c, st.2 ++ [e])

/-- The pairs an iteration from `begin()` to `end()` meets. -/
def iterate (s : StripedMap K V) : Option (List (K × V)) := do
  let c ← s.iterBegin
  repeatUntil s.iterTurn (s.size + 1) (c, [])

/-! ## Calls -/

/-- The calls of a run. -/
inductive Op (K V : Type) where
  | emplace (key : K) (value : V)
  | replace (key : K) (value : V)
  | find (key : K) (value : V)
  | erase (key : K)
  | clear

/-- The key a call is about. -/
def Op.key : Op K V → Option K
  | .emplace key _ => some key
  | .replace key _ => some key
  | .find key _ => some key
  | .erase key => some key
  | .clear => none

/-- What a call comes to. -/
inductive Out (V : Type) where
  | done
  | found (answer : Bool) (value : V)
  | erased (answer : Bool)
  | threw (e : StripedError)

/-! ## Operations on a key -/

variable [DecidableEq K]

def emplace (lay : Layout K V) (s : StripedMap K V) (key : K) (value : V) :
    Except StripedError (StripedMap K V) := do
  let (bucket, b) ← s.bucketOf key
  return s.setBucket bucket (b.emplace lay key value)

def replace (lay : Layout K V) (s : StripedMap K V) (key : K) (value : V) :
    Except StripedError (StripedMap K V) := do
  let (bucket, b) ← s.bucketOf key
  return s.setBucket bucket (b.assign lay key value)

/-- The answer and the out-parameter, which is left alone when the key is
not there. -/
def find (s : StripedMap K V) (key : K) (value : V) : Except StripedError (Bool × V) := do
  let (_, b) ← s.bucketOf key
  match b.find key with
  | none => return (false, value)
  | some v => return (true, v)

def erase (s : StripedMap K V) (key : K) : Except StripedError (Bool × StripedMap K V) := do
  let (bucket, b) ← s.bucketOf key
  let (b, removed) := b.erase key
  return (decide (removed > 0), s.setBucket bucket b)

/-- A call in a run: a call that throws leaves the map as it was. -/
def call (lay : Layout K V) (s : StripedMap K V) : Op K V → StripedMap K V × Out V
  | .emplace key value =>
      match s.emplace lay key value with
      | .error e => (s, .threw e)
      | .ok s => (s, .done)
  | .replace key value =>
      match s.replace lay key value with
      | .error e => (s, .threw e)
      | .ok s => (s, .done)
  | .find key value =>
      match s.find key value with
      | .error e => (s, .threw e)
      | .ok (answer, value) => (s, .found answer value)
  | .erase key =>
      match s.erase key with
      | .error e => (s, .threw e)
      | .ok (answer, s) => (s, .erased answer)
  | .clear => (s.clear, .done)

end StripedMap

end HighJump.Sync
