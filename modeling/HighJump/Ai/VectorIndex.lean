/-
HighJump.Ai.VectorIndex — who owns the index of a `hj::vector_index`
(`hj/ai/vector_index.hpp`).

The objects are FAISS indexes; of their dynamic type only matters whether
it is `T`, or derived from it. `faiss::read_index` makes an object of any
type, or gives back null, or throws. Everything that changes `_index` is
modelled, in the order the source deletes, reads, casts and assigns; the
functions that only look at the index are not.

A `static_cast` takes whatever it is given for a `T`. A user makes objects
of type `T` of their own and may hand any of them over, or any pointer
that they have got from elsewhere.
-/
import HighJump.Lib.Lts
import HighJump.Lib.Ownership

namespace HighJump.Ai.VectorIndex

open HighJump.Lib

/-- What `faiss::read_index` comes to; `isT` says whether the index it
made is a `T`. -/
inductive Read where
  | index (isT : Bool)
  | null
  | threw
  deriving DecidableEq, Repr

/-- The checks of `load_s` in front of its `try`: the file name and the
file are refused, one of the checks throws, or neither. -/
inductive File where
  | refused
  | threw
  | admitted
  deriving DecidableEq, Repr

/-- How a call comes back. -/
inductive Result where
  | done
  | returned (b : Bool)
  | threw
  deriving DecidableEq, Repr

/-- A `vector_index` behind a call of one of its members. -/
structure After where
  index : Option Nat
  objects : Objects Bool
  result : Result

/-! ## Members -/

section

variable (index : Option Nat) (o : Objects Bool)

def setIndex (idx : Option Nat) : After :=
  { index := idx, objects := o.deletePtr index, result := .done }

/-- `_index = new T(args...)`, where the constructor of `T` may throw. -/
def build (made : Bool) : After :=
  if made then { index := some o.next, objects := o.make true, result := .done }
  else { index, objects := o, result := .threw }

def deserialize (emptyBuffer : Bool) (r : Read) : After :=
  if emptyBuffer then { index, objects := o, result := .returned false }
  else
    match r with
    | .threw => { index, objects := o, result := .threw }
    | .null => { index, objects := o, result := .returned false }
    | .index isT =>
        -- `dynamic_cast<T *>(idx)`
        if isT then
          { index := some o.next, objects := (o.make isT).deletePtr index,
            result := .returned true }
        else { index, objects := (o.make isT).delete o.next, result := .returned false }

def load (r : Read) : After :=
  let o := o.deletePtr index
  match r with
  | .threw => { index, objects := o, result := .threw }
  | .null => { index, objects := o, result := .returned false }
  | .index isT => { index := some o.next, objects := o.make isT, result := .returned true }

/-- What `read_index` throws is caught, and `idx` is null then. -/
def loadS (f : File) (r : Read) : After :=
  match f with
  | .refused => { index, objects := o, result := .returned false }
  | .threw => { index, objects := o, result := .threw }
  | .admitted =>
      match r with
      | .threw => { index, objects := o, result := .returned false }
      | .null => { index, objects := o, result := .returned false }
      | .index isT =>
          { index := some o.next, objects := (o.make isT).deletePtr index,
            result := .returned true }

end

/-- The members that replace `_index`. -/
inductive Member where
  | setIndex (idx : Option Nat)
  | build (made : Bool)
  | deserialize (emptyBuffer : Bool) (r : Read)
  | load (r : Read)
  | loadS (f : File) (r : Read)
  deriving DecidableEq, Repr

def Member.run (index : Option Nat) (o : Objects Bool) : Member → After
  | .setIndex idx => VectorIndex.setIndex index o idx
  | .build made => VectorIndex.build index o made
  | .deserialize emptyBuffer r => VectorIndex.deserialize index o emptyBuffer r
  | .load r => VectorIndex.load index o r
  | .loadS f r => VectorIndex.loadS index o f r

/-! ## Any number of them -/

/-- The `vector_index` objects by number, with the `_index` of each; one
that is not `alive` has none. -/
structure World where
  objects : Objects Bool
  alive : Nat → Bool
  index : Nat → Option Nat

def World.new : World :=
  { objects := .empty true, alive := fun _ => false, index := fun _ => none }

inductive Call where
  /-- A user's own `new T`. -/
  | newT
  | construct (k : Nat)
  | adopt (k : Nat) (idx : Option Nat)
  | moveConstruct (k other : Nat)
  | moveAssign (k other : Nat)
  | destroy (k : Nat)
  | member (k : Nat) (m : Member)
  deriving DecidableEq, Repr

def World.call (w : World) : Call → World × Result
  | .newT => ({ w with objects := w.objects.make true }, .done)
  | .construct k =>
      ({ w with alive := Function.update w.alive k true,
                index := Function.update w.index k none }, .done)
  | .adopt k idx =>
      ({ w with alive := Function.update w.alive k true,
                index := Function.update w.index k idx }, .done)
  | .moveConstruct k other =>
      ({ w with alive := Function.update w.alive k true,
                index := Function.update (Function.update w.index other none) k
                  (w.index other) }, .done)
  | .moveAssign k other =>
      if k ≠ other then
        ({ w with objects := w.objects.deletePtr (w.index k),
                  index := Function.update (Function.update w.index other none) k
                    (w.index other) }, .done)
      else (w, .done)
  | .destroy k =>
      ({ objects := w.objects.deletePtr (w.index k),
         alive := Function.update w.alive k false,
         index := Function.update w.index k none }, .done)
  | .member k m =>
      let a := m.run (w.index k) w.objects
      ({ w with objects := a.objects, index := Function.update w.index k a.index }, a.result)

/-- A pointer a user can pass: null, or to some `T` that was made. -/
def World.IsT (w : World) (idx : Option Nat) : Prop :=
  ∀ a, idx = some a → a < w.objects.next ∧ w.objects.type a = true

/-- Objects are constructed where there is none, and used where there is
one. -/
def World.Valid (w : World) : Call → Prop
  | .newT => True
  | .construct k => w.alive k = false
  | .adopt k idx => w.alive k = false ∧ w.IsT idx
  | .moveConstruct k other => w.alive k = false ∧ w.alive other = true
  | .moveAssign k other => w.alive k = true ∧ w.alive other = true
  | .destroy k => w.alive k = true
  | .member k (.setIndex idx) => w.alive k = true ∧ w.IsT idx
  | .member k _ => w.alive k = true

def vectorLts : Lts World Call where
  init w := w = .new
  step w c w' := w.Valid c ∧ w' = (w.call c).1

end HighJump.Ai.VectorIndex
