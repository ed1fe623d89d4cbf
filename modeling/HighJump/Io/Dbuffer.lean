/-
HighJump.Io.Dbuffer — `hj::dbuffer` of `hj/io/dbuffer.hpp`, with one
thread that calls `write` and one that calls `read`.

The two containers are copied into and out of in one step each; every
load and every store of `_front` and `_back` is a step of its own, and
the two threads interleave freely. A copy that `_copy` refuses, or that
throws, has not happened. A `read` returns with its copy: it touches
nothing shared afterwards. `write(Container &&)` moves where
`write(Container &)` copies and is otherwise the same, so its steps are
those of a copy that succeeds.

To be able to say which call a value is from, a container's contents
carry the number of the `write` call that brought them, from 1 on; 0 is
what the constructor left.
-/
import HighJump.Lib.Lts
import Mathlib.Logic.Function.Basic

namespace HighJump.Io.Dbuffer

open HighJump.Lib

/-- The two containers `_back` and `_front` may point to. -/
inductive Slot where
  | backData
  | frontData
  deriving DecidableEq, Repr

/-- What a container holds, and from which call it is. -/
structure Contents (α : Type) where
  call : Nat
  value : α
  deriving DecidableEq, Repr

/-- Where the writing thread is. The last three are inside `swap`: with
`tmp` loaded, with the argument of `_front.store` loaded, and with that
store done. -/
inductive Writer (α : Type) where
  | idle
  | loaded (back : Slot) (value : α)
  | copied
  | swapping (tmp : Slot)
  | storing (tmp back : Slot)
  | stored (tmp : Slot)
  deriving DecidableEq, Repr

/-- Where the reading thread is. -/
inductive Reader where
  | idle
  | loaded (front : Slot)
  deriving DecidableEq, Repr

/-- The object and its two threads. The last three fields are ghost,
oldest first: the arguments of the `write` calls made so far, the calls
that have stored through `_front`, and what `read` has returned, each
with the calls published by then. -/
structure State (α : Type) where
  mem : Slot → Contents α
  back : Slot
  front : Slot
  writer : Writer α
  reader : Reader
  written : List α
  published : List Nat
  returned : List (Contents α × List Nat)

inductive Action (α : Type) where
  | writeLoad (value : α)
  | writeCopy
  | writeRefused
  | swapLoadFront
  | swapLoadBack
  | swapStoreFront
  | swapStoreBack
  | readLoad
  | readCopy
  | readRefused

section Steps

variable {α : Type}

/-- The number of the latest `write` call. -/
def State.call (s : State α) : Nat := s.written.length

/-- `dbuffer()`: both containers are as their own constructor left
them. -/
def State.new (initial : α) : State α where
  mem := fun _ => ⟨0, initial⟩
  back := .backData
  front := .frontData
  writer := .idle
  reader := .idle
  written := []
  published := []
  returned := []

/-- `Container *back = _back.load(…)` -/
def State.writeLoad (s : State α) (value : α) : State α :=
  { s with writer := .loaded s.back value, written := s.written ++ [value] }

/-- `_copy(value, *back)` -/
def State.writeCopy (s : State α) (back : Slot) (value : α) : State α :=
  { s with mem := Function.update s.mem back ⟨s.call, value⟩, writer := .copied }

/-- `_front.store(…)` with what was loaded from `_back`. -/
def State.swapStoreFront (s : State α) (tmp back : Slot) : State α :=
  { s with front := back, writer := .stored tmp, published := s.published ++ [s.call] }

/-- `_copy(*front, value)`, with which `read` returns. -/
def State.readCopy (s : State α) (front : Slot) : State α :=
  { s with reader := .idle, returned := s.returned ++ [(s.mem front, s.published)] }

/-- One step of one of the threads. -/
inductive Step : State α → Action α → State α → Prop where
  | writeLoad {s : State α} {value : α} : s.writer = .idle →
      Step s (.writeLoad value) (s.writeLoad value)
  | writeCopy {s : State α} {back : Slot} {value : α} : s.writer = .loaded back value →
      Step s .writeCopy (s.writeCopy back value)
  /-- `write` returns false, or what `_copy` threw goes on to its caller. -/
  | writeRefused {s : State α} {back : Slot} {value : α} : s.writer = .loaded back value →
      Step s .writeRefused { s with writer := .idle }
  | swapLoadFront {s : State α} : s.writer = .copied →
      Step s .swapLoadFront { s with writer := .swapping s.front }
  | swapLoadBack {s : State α} {tmp : Slot} : s.writer = .swapping tmp →
      Step s .swapLoadBack { s with writer := .storing tmp s.back }
  | swapStoreFront {s : State α} {tmp back : Slot} : s.writer = .storing tmp back →
      Step s .swapStoreFront (s.swapStoreFront tmp back)
  | swapStoreBack {s : State α} {tmp : Slot} : s.writer = .stored tmp →
      Step s .swapStoreBack { s with back := tmp, writer := .idle }
  | readLoad {s : State α} : s.reader = .idle →
      Step s .readLoad { s with reader := .loaded s.front }
  | readCopy {s : State α} {front : Slot} : s.reader = .loaded front →
      Step s .readCopy (s.readCopy front)
  | readRefused {s : State α} {front : Slot} : s.reader = .loaded front →
      Step s .readRefused { s with reader := .idle }

/-- A buffer whose containers start as `initial`. -/
def dbufferLts (initial : α) : Lts (State α) (Action α) where
  init s := s = .new initial
  step := Step

end Steps

end HighJump.Io.Dbuffer
