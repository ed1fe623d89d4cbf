/-
HighJump.Util.RegexCache — `detail::regex_cache` of
`hj/util/string_util.hpp`, shared by threads that use what it hands out.

`get_regex` runs under the lock and is one step. The reference it returns
is used after the lock is given up, so a reference is what it is in
memory: a block the vector was stored in and a position there. An
`emplace_back` without room moves the vector to another block, an
`erase` moves the later elements one position down.

What is not determined here is a parameter: `compile` is
`std::regex(pattern)`, `none` where it throws, and every call is given
the capacity the vector takes if it has to grow.
-/
import HighJump.Lib.Lts
import Mathlib.Logic.Function.Basic

namespace HighJump.Util.RegexCache

open HighJump.Lib

/-! ## The cache -/

/-- `cache_entry`. -/
structure CacheEntry (P R : Type) where
  pattern : P
  compiled : R
  accessCount : UInt64
  deriving DecidableEq

/-- `_cache`: its elements, how many there is room for, and the block
they are stored in. -/
structure Cache (P R : Type) where
  entries : List (CacheEntry P R)
  capacity : Nat
  block : Nat

/-- A reference to an element. -/
structure Ref where
  block : Nat
  index : Nat
  deriving DecidableEq

/-- `MAX_CACHE_SIZE`. -/
def maxCacheSize : Nat := 32

variable {P R : Type}

/-- What a reference refers to; a block that has been left refers to
nothing. -/
def Cache.deref (c : Cache P R) (r : Ref) : Option (CacheEntry P R) :=
  if r.block = c.block then c.entries[r.index]? else none

/-- `std::min_element` by access count: the first of the least. -/
def minElement (es : List (CacheEntry P R)) : Nat :=
  es.findIdx fun e => es.all fun x => decide (e.accessCount ≤ x.accessCount)

/-- `if(_cache.size() >= MAX_CACHE_SIZE) { … _cache.erase(min_it); }`. -/
def Cache.makeRoom (c : Cache P R) : Cache P R :=
  if maxCacheSize ≤ c.entries.length then
    { c with entries := c.entries.eraseIdx (minElement c.entries) }
  else c

/-- `_cache.emplace_back`; `grown` is the capacity it asks for where there
is no room. -/
def Cache.emplaceBack (c : Cache P R) (grown : Nat) (e : CacheEntry P R) : Cache P R :=
  if c.entries.length < c.capacity then { c with entries := c.entries ++ [e] }
  else ⟨c.entries ++ [e], max grown (c.entries.length + 1), c.block + 1⟩

variable [DecidableEq P]

/-- `get_regex`: the cache after it and the reference it returns, or
`none` if `std::regex` throws. -/
def Cache.getRegex (compile : P → Option R) (grown : Nat) (pattern : P) (c : Cache P R) :
    Cache P R × Option Ref :=
  match c.entries.findIdx? fun e => decide (e.pattern = pattern) with
  | some k =>
      ({ c with entries := c.entries.modify k fun e =>
          { e with accessCount := e.accessCount + 1 } }, some ⟨c.block, k⟩)
  | none =>
      let c := c.makeRoom
      match compile pattern with
      | none => (c, none)
      | some compiled =>
          let c := c.emplaceBack grown ⟨pattern, compiled, 1⟩
          (c, some ⟨c.block, c.entries.length - 1⟩)

/-- `clear`; the vector keeps its block. -/
def Cache.clear (c : Cache P R) : Cache P R := { c with entries := [] }

/-! ## Calls -/

/-- A call of the cache. -/
inductive Call (P : Type) where
  | getRegex (pattern : P) (grown : Nat)
  | clear

/-- The cache after a call. -/
def Cache.call (compile : P → Option R) (c : Cache P R) : Call P → Cache P R
  | .getRegex pattern grown => (c.getRegex compile grown pattern).1
  | .clear => c.clear

/-- Calls one after the other, as the lock makes them, from an empty
cache. -/
def calls (compile : P → Option R) : Lts (Cache P R) (Call P) where
  init c := c.entries = []
  step c k c' := c' = c.call compile k

/-! ## Threads -/

/-- The cache, and what each thread has got and not finished with: its
pattern and the reference. -/
structure State (ι P R : Type) where
  cache : Cache P R
  held : ι → Option (P × Ref)

/-- What a thread does: it calls `get_regex`, uses the reference, and
leaves the function that got it. A use tells what it found there. -/
inductive Event (ι P R : Type) where
  | get (i : ι) (pattern : P) (grown : Nat)
  | use (i : ι) (pattern : P) (seen : Option (CacheEntry P R))
  | finish (i : ι)

section System

variable {ι : Type} [DecidableEq ι] [DecidableEq R]

/-- One event. -/
def exec (compile : P → Option R) (s : State ι P R) : Event ι P R → Option (State ι P R)
  | .get i pattern grown =>
      match s.held i with
      | some _ => none
      | none =>
          let (cache, r) := s.cache.getRegex compile grown pattern
          some ⟨cache, Function.update s.held i (r.map fun r => (pattern, r))⟩
  | .use i pattern seen =>
      match s.held i with
      | none => none
      | some (p, r) => if p = pattern ∧ s.cache.deref r = seen then some s else none
  | .finish i =>
      match s.held i with
      | none => none
      | some _ => some { s with held := Function.update s.held i none }

/-- The threads of a program, from an empty cache. -/
def system (compile : P → Option R) : Lts (State ι P R) (Event ι P R) where
  init s := s.cache.entries = [] ∧ ∀ i, s.held i = none
  step s e s' := exec compile s e = some s'

end System

end HighJump.Util.RegexCache
