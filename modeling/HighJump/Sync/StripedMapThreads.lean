/-
HighJump.Sync.StripedMapThreads — the striped map of `striped_map.hpp`,
called from any number of threads.

A call on a key holds the lock of its bucket while it works, so it is one
step. `range`, `size` and `clear` lock one bucket after the other, so
they are one step a bucket, and anything may happen in between. The
handler of `range` sees the pairs one by one; it may stop, and does not
call the map.
-/
import HighJump.Lib.Lts
import HighJump.Sync.StripedMap
import Mathlib.Logic.Function.Basic

namespace HighJump.Sync.StripedMap

open HighJump.Lib

/-- What a thread is at. A call that is over keeps what it came to until
the next one. `again` is the handler: what it says to the pairs it has
been given so far. -/
inductive Walk (K V : Type) where
  | idle
  | ranging (again : List (K × V) → Bool) (bucket : Nat) (visited : List (K × V))
  | ranged (visited : List (K × V)) (stopped : Bool)
  | sizing (bucket total : Nat)
  | sized (total : Nat)
  | clearing (bucket : Nat)
  | cleared

/-- A call is under way. -/
def Walk.active {K V : Type} : Walk K V → Bool
  | .ranging .. | .sizing .. | .clearing .. => true
  | .idle | .ranged .. | .sized .. | .cleared => false

/-- The map and its threads. Ghost are the maps there were during a
thread's call, the present one included, and the keys that were put since
it began. -/
structure Shared (K V : Type) where
  map : StripedMap K V
  walks : Nat → Walk K V
  seen : Nat → List (StripedMap K V)
  put : Nat → List K

section Steps

variable {K V : Type}

def Shared.new (fn : K → Int) (capa : Nat) : Shared K V :=
  { map := .new fn capa, walks := fun _ => .idle, seen := fun _ => [], put := fun _ => [] }

/-- The map changed. -/
def Shared.setMap (s : Shared K V) (map : StripedMap K V) : Shared K V :=
  { s with map := map,
           seen := fun i => if (s.walks i).active then s.seen i ++ [map] else s.seen i }

/-- The key was put. -/
def Shared.note (s : Shared K V) (key : K) : Shared K V :=
  { s with put := fun i => s.put i ++ [key] }

def Shared.setWalk (s : Shared K V) (i : Nat) (walk : Walk K V) : Shared K V :=
  { s with walks := Function.update s.walks i walk }

/-- Thread `i` begins a call. -/
def Shared.begin (s : Shared K V) (i : Nat) (walk : Walk K V) : Shared K V :=
  { s with walks := Function.update s.walks i walk,
           seen := Function.update s.seen i [s.map],
           put := Function.update s.put i [] }

/-- One bucket of `range`, or its end. -/
def Shared.rangeNext (s : Shared K V) (i : Nat) (again : List (K × V) → Bool) (bucket : Nat)
    (visited : List (K × V)) : Shared K V :=
  match s.map.buckets[bucket]? with
  | none => s.setWalk i (.ranged visited false)
  | some b =>
    let res := rangeBucket (fun visited k v => (again (visited ++ [(k, v)]), visited ++ [(k, v)]))
      b.entries visited
    if res.1 then s.setWalk i (.ranging again (bucket + 1) res.2)
    else s.setWalk i (.ranged res.2 true)

/-- One bucket of `size`, or its end. -/
def Shared.sizeNext (s : Shared K V) (i : Nat) (bucket total : Nat) : Shared K V :=
  match s.map.buckets[bucket]? with
  | none => s.setWalk i (.sized total)
  | some b => s.setWalk i (.sizing (bucket + 1) (total + b.entries.length))

/-- One bucket of `clear`, or its end. -/
def Shared.clearNext (s : Shared K V) (i : Nat) (bucket : Nat) : Shared K V :=
  if bucket < s.map.buckets.length then
    (s.setWalk i (.clearing (bucket + 1))).setMap (s.map.setBucket bucket .empty)
  else s.setWalk i .cleared

variable [DecidableEq K]

/-- A call on a key. -/
inductive KeyOp (K V : Type) where
  | emplace (key : K) (value : V)
  | replace (key : K) (value : V)
  | find (key : K) (value : V)
  | erase (key : K)

/-- It, as a call of `StripedMap`. -/
def KeyOp.toOp : KeyOp K V → Op K V
  | .emplace key value => .emplace key value
  | .replace key value => .replace key value
  | .find key value => .find key value
  | .erase key => .erase key

def KeyOp.key : KeyOp K V → K
  | .emplace key _ | .replace key _ | .find key _ | .erase key => key

/-- It puts its key. -/
def KeyOp.puts : KeyOp K V → Bool
  | .emplace .. | .replace .. => true
  | .find .. | .erase .. => false

def Shared.keyOp (lay : Layout K V) (s : Shared K V) (op : KeyOp K V) : Shared K V :=
  let s := if op.puts then s.note op.key else s
  s.setMap (s.map.call lay op.toOp).1

inductive Event (K V : Type) where
  | keyOp (op : KeyOp K V)
  | beginRange (i : Nat) (again : List (K × V) → Bool)
  | beginSize (i : Nat)
  | beginClear (i : Nat)
  | next (i : Nat)

/-- A call rearranges its bucket as it likes. -/
inductive Step : Shared K V → Event K V → Shared K V → Prop where
  | keyOp {s : Shared K V} {op : KeyOp K V} (lay : Layout K V) :
      Step s (.keyOp op) (s.keyOp lay op)
  | beginRange {s : Shared K V} {i : Nat} {again : List (K × V) → Bool} :
      (s.walks i).active = false → Step s (.beginRange i again) (s.begin i (.ranging again 0 []))
  | beginSize {s : Shared K V} {i : Nat} :
      (s.walks i).active = false → Step s (.beginSize i) (s.begin i (.sizing 0 0))
  | beginClear {s : Shared K V} {i : Nat} :
      (s.walks i).active = false → Step s (.beginClear i) (s.begin i (.clearing 0))
  | range {s : Shared K V} {i bucket : Nat} {again : List (K × V) → Bool}
      {visited : List (K × V)} : s.walks i = .ranging again bucket visited →
      Step s (.next i) (s.rangeNext i again bucket visited)
  | size {s : Shared K V} {i bucket total : Nat} : s.walks i = .sizing bucket total →
      Step s (.next i) (s.sizeNext i bucket total)
  | clear {s : Shared K V} {i bucket : Nat} : s.walks i = .clearing bucket →
      Step s (.next i) (s.clearNext i bucket)

def lts (fn : K → Int) (capa : Nat) : Lts (Shared K V) (Event K V) where
  init s := s = .new fn capa
  step := Step

end Steps

end HighJump.Sync.StripedMap
