/-
HighJump.Ai.LlamaModel — who frees a `llama_model`: `llama::model` and
`llama::context` of `hj/ai/llama.hpp`.

The objects are `llama_model`s. Any call into llama.cpp that makes one, or
makes a `llama_context`, may fail and give back null; making a context
from a null model does. A context is known by the model it was made from:
that is what `llama_get_model` gives back, whatever became of the model in
the meantime.

`context::get_model` makes a `model` of its own for that pointer, and
every `model` frees what it points to.
-/
import HighJump.Lib.Lts
import HighJump.Lib.Ownership

namespace HighJump.Ai.LlamaModel

open HighJump.Lib

/-! ## `llama::model` -/

/-- A model behind a call of one of its members, and what it returned. -/
structure After where
  model : Option Nat
  objects : Objects Unit
  result : Bool

section

variable (model : Option Nat) (o : Objects Unit)

/-- What the three `load`s share: `admitted` says that the first check, if
there is one, goes through, and `loaded` that llama.cpp makes a model. -/
def loadFrom (admitted loaded : Bool) : After :=
  if !admitted then { model, objects := o, result := false }
  else
    let o := o.deletePtr model
    let (made, o) := if loaded then (some o.next, o.make ()) else (none, o)
    let model := if made ≠ none then made else model
    { model, objects := o, result := model.isSome }

/-- `load(const char *filename, params)` -/
def loadFile (exists_ loaded : Bool) : After := loadFrom model o exists_ loaded

/-- `load(FILE *file, params)` -/
def loadFilePtr (fileIsNull loaded : Bool) : After := loadFrom model o (!fileIsNull) loaded

/-- `load(const char **paths, size_t n_paths, params)` -/
def loadSplits (loaded : Bool) : After := loadFrom model o true loaded

def free : After :=
  if model = none then { model, objects := o, result := false }
  else { model := none, objects := o.deletePtr model, result := true }

end

/-- The overloads of `load`, with their first checks. -/
inductive Source where
  | file (exists_ : Bool)
  | filePtr (fileIsNull : Bool)
  | splits
  deriving DecidableEq, Repr

def Source.admitted : Source → Bool
  | .file exists_ => exists_
  | .filePtr fileIsNull => !fileIsNull
  | .splits => true

def load (model : Option Nat) (o : Objects Unit) (src : Source) (loaded : Bool) : After :=
  match src with
  | .file exists_ => loadFile model o exists_ loaded
  | .filePtr fileIsNull => loadFilePtr model o fileIsNull loaded
  | .splits => loadSplits model o loaded

/-! ## Any number of models and contexts -/

/-- `model` and `ctx` are the `_model` and the `_ctx` of the objects; one
that is not there has none. -/
structure World where
  objects : Objects Unit
  isModel : Nat → Bool
  model : Nat → Option Nat
  isContext : Nat → Bool
  ctx : Nat → Option Nat

def World.new : World :=
  { objects := .empty (), isModel := fun _ => false, model := fun _ => none,
    isContext := fun _ => false, ctx := fun _ => none }

inductive Call where
  /-- The default constructor. -/
  | construct (k : Nat)
  /-- A constructor that loads. -/
  | constructLoaded (k : Nat) (loaded : Bool)
  | moveConstruct (k other : Nat)
  | load (k : Nat) (src : Source) (loaded : Bool)
  | free (k : Nat)
  | destroy (k : Nat)
  | constructContext (c : Nat)
  /-- A constructor that makes a `llama_context`, from a `model` if it is
  given one. -/
  | constructContextFrom (c : Nat) (k : Option Nat) (made : Bool)
  | init (c k : Nat) (made : Bool)
  /-- `k` is the `model` that is made. -/
  | getModel (c k : Nat)
  | destroyContext (c : Nat)
  deriving DecidableEq, Repr

/-- `llama_init_from_model(…)` -/
def initFromModel (model : Option Nat) (made : Bool) : Option Nat := if made then model else none

/-- A call, with what it returns where that is a `bool`. -/
def World.call (w : World) : Call → World × Option Bool
  | .construct k =>
      ({ w with isModel := Function.update w.isModel k true,
                model := Function.update w.model k none }, none)
  | .constructLoaded k loaded =>
      ({ w with objects := if loaded then w.objects.make () else w.objects,
                isModel := Function.update w.isModel k true,
                model := Function.update w.model k
                  (if loaded then some w.objects.next else none) }, none)
  | .moveConstruct k other =>
      ({ w with isModel := Function.update w.isModel k true,
                model := Function.update (Function.update w.model other none) k
                  (w.model other) }, none)
  | .load k src loaded =>
      let a := LlamaModel.load (w.model k) w.objects src loaded
      ({ w with objects := a.objects, model := Function.update w.model k a.model },
        some a.result)
  | .free k =>
      let a := LlamaModel.free (w.model k) w.objects
      ({ w with objects := a.objects, model := Function.update w.model k a.model },
        some a.result)
  | .destroy k =>
      ({ w with objects := w.objects.deletePtr (w.model k),
                isModel := Function.update w.isModel k false,
                model := Function.update w.model k none }, none)
  | .constructContext c =>
      ({ w with isContext := Function.update w.isContext c true,
                ctx := Function.update w.ctx c none }, none)
  | .constructContextFrom c k made =>
      ({ w with isContext := Function.update w.isContext c true,
                ctx := Function.update w.ctx c (initFromModel (k.bind w.model) made) }, none)
  | .init c k made =>
      ({ w with ctx := Function.update w.ctx c (initFromModel (w.model k) made) }, none)
  | .getModel c k =>
      if w.ctx c = none then (w, none)
      else
        ({ w with isModel := Function.update w.isModel k true,
                  model := Function.update w.model k (w.ctx c) }, none)
  | .destroyContext c =>
      ({ w with isContext := Function.update w.isContext c false,
                ctx := Function.update w.ctx c none }, none)

/-- Objects are constructed where there is none, and used where there is
one. -/
def World.Valid (w : World) : Call → Prop
  | .construct k => w.isModel k = false
  | .constructLoaded k _ => w.isModel k = false
  | .moveConstruct k other => w.isModel k = false ∧ w.isModel other = true
  | .load k _ _ => w.isModel k = true
  | .free k => w.isModel k = true
  | .destroy k => w.isModel k = true
  | .constructContext c => w.isContext c = false
  | .constructContextFrom c k _ => w.isContext c = false ∧ ∀ k', k = some k' → w.isModel k' = true
  | .init c k _ => w.isContext c = true ∧ w.isModel k = true
  | .getModel c k => w.isContext c = true ∧ w.isModel k = false
  | .destroyContext c => w.isContext c = true

def llamaLts : Lts World Call where
  init w := w = .new
  step w c w' := w.Valid c ∧ w' = (w.call c).1

end HighJump.Ai.LlamaModel
