/-
HighJump.Ai.VectorIndexSave — `save_s` of `hj::vector_index`
(`hj/ai/vector_index.hpp`), which writes an index beside its file, reads
it back and puts it in place by a rename.

Any number of calls run side by side, in any number of processes, and
each may be killed at any point. The files are those of one file system,
which outlives the processes. `faiss::write_index` writes piece by piece
and does not say whether closing the file came off; `faiss::read_index`
may give back null or throw. Whatever throws inside the `try` ends in one
of the three handlers, which differ in the text they print.

The suffix of the temporary file is a reading of the steady clock. Two
calls may get the same one, and one call's file may be the temporary file
of another; `Apart` says that neither is so.
-/
import HighJump.Lib.Lts
import Mathlib.Logic.Function.Basic

namespace HighJump.Ai.VectorIndexSave

open HighJump.Lib

/-- The part of FAISS that `save_s` uses. -/
structure Faiss (ι : Type) where
  writeIndex : ι → List UInt8
  readIndex : List UInt8 → Option ι
  ntotal : ι → Int

/-- What has been cut off is not read as an index of the same size: the
reader throws at the end of the file. -/
def Faiss.RejectsTorn {ι : Type} (F : Faiss ι) : Prop :=
  ∀ x n, n < (F.writeIndex x).length →
    ∀ y ∈ F.readIndex ((F.writeIndex x).take n), F.ntotal y ≠ F.ntotal x

/-- A call of `save_s`: the index, the file, and what the clock counts. -/
structure Save (ι : Type) where
  index : ι
  filename : String
  now : Int

/-- `std::string(filename) + ".tmp" + std::to_string(...)` -/
def Save.tempFile {ι : Type} (sv : Save ι) : String := sv.filename ++ ".tmp" ++ toString sv.now

/-- How far a call is. -/
inductive Phase (ι : Type) where
  | idle
  | named (sv : Save ι)
  | writing (sv : Save ι) (n : Nat)
  | written (sv : Save ι)
  | checked (sv : Save ι)
  | verified (sv : Save ι)
  | failing (sv : Save ι)

def Phase.save? {ι : Type} : Phase ι → Option (Save ι)
  | .idle => none
  | .named sv | .writing sv _ | .written sv | .checked sv | .verified sv | .failing sv => some sv

/-- The files, and where the calls are. `stranded` is ghost: the
temporary files whose calls were killed, or could not remove them. -/
structure State (ι : Type) where
  files : String → Option (List UInt8)
  calls : Nat → Phase ι
  stranded : List String

inductive Event (ι : Type) where
  | noIndex
  | start (i : Nat) (sv : Save ι)
  | opened (i : Nat)
  | wrote (i k : Nat)
  | closed (i : Nat)
  | checked (i : Nat)
  | verified (i : Nat)
  | renamed (i : Nat) (sv : Save ι)
  | threw (i : Nat)
  | gaveUp (i : Nat)
  | removeThrew (i : Nat)
  | killed (i : Nat)

section

variable {ι : Type}

def State.at (s : State ι) (i : Nat) (p : Phase ι) : State ι :=
  { s with calls := Function.update s.calls i p }

def State.put (s : State ι) (path : String) (content : Option (List UInt8)) : State ι :=
  { s with files := Function.update s.files path content }

/-- `std::filesystem::rename(temp_file, filename)` -/
def State.rename (s : State ι) (sv : Save ι) : State ι :=
  (s.put sv.filename (s.files sv.tempFile)).put sv.tempFile none

/-- `!exists(temp_file) || file_size(temp_file) == 0` -/
def emptyFile (content : Option (List UInt8)) : Bool :=
  match content with
  | none => true
  | some bytes => bytes.isEmpty

/-- `loaded == nullptr || loaded->ntotal != _index->ntotal`, or nothing
could be read. -/
def Faiss.mismatch (F : Faiss ι) (sv : Save ι) (content : Option (List UInt8)) : Bool :=
  match content.bind F.readIndex with
  | none => true
  | some y => F.ntotal y ≠ F.ntotal sv.index

/-- The catch block is left and the temporary file removed. -/
def State.giveUp (s : State ι) (sv : Save ι) : State ι := s.put sv.tempFile none

inductive Step (F : Faiss ι) : State ι → Event ι → State ι → Prop where
  | noIndex {s : State ι} : Step F s .noIndex s
  | start {s : State ι} {i : Nat} {sv : Save ι} : s.calls i = .idle →
      Step F s (.start i sv) (s.at i (.named sv))
  | opened {s : State ι} {i : Nat} {sv : Save ι} : s.calls i = .named sv →
      Step F s (.opened i) ((s.put sv.tempFile (some [])).at i (.writing sv 0))
  | wrote {s : State ι} {i n k : Nat} {sv : Save ι} : s.calls i = .writing sv n →
      Step F s (.wrote i k)
        ((s.put sv.tempFile (some ((F.writeIndex sv.index).take (n + k)))).at i
          (.writing sv (n + k)))
  | closed {s : State ι} {i n : Nat} {sv : Save ι} : s.calls i = .writing sv n →
      Step F s (.closed i) (s.at i (.written sv))
  | checked {s : State ι} {i : Nat} {sv : Save ι} : s.calls i = .written sv →
      Step F s (.checked i)
        (s.at i (if emptyFile (s.files sv.tempFile) then .failing sv else .checked sv))
  | verified {s : State ι} {i : Nat} {sv : Save ι} : s.calls i = .checked sv →
      Step F s (.verified i)
        (s.at i (if F.mismatch sv (s.files sv.tempFile) then .failing sv else .verified sv))
  | renamed {s : State ι} {i : Nat} {sv : Save ι} : s.calls i = .verified sv →
      Step F s (.renamed i sv) ((s.rename sv).at i .idle)
  | threw {s : State ι} {i : Nat} {sv : Save ι} : (s.calls i).save? = some sv →
      s.calls i ≠ .failing sv → Step F s (.threw i) (s.at i (.failing sv))
  | gaveUp {s : State ι} {i : Nat} {sv : Save ι} : s.calls i = .failing sv →
      Step F s (.gaveUp i) ((s.giveUp sv).at i .idle)
  | removeThrew {s : State ι} {i : Nat} {sv : Save ι} : s.calls i = .failing sv →
      Step F s (.removeThrew i)
        ({ s with stranded := s.stranded ++ [sv.tempFile] }.at i .idle)
  | killed {s : State ι} {i : Nat} {sv : Save ι} : (s.calls i).save? = some sv →
      Step F s (.killed i) ({ s with stranded := s.stranded ++ [sv.tempFile] }.at i .idle)

/-- The runs over the files there are. -/
def lts (F : Faiss ι) (files : String → Option (List UInt8)) : Lts (State ι) (Event ι) where
  init s := s = { files := files, calls := fun _ => .idle, stranded := [] }
  step := Step F

/-- A call does not start on the files of a call under way. -/
def Apart (s : State ι) : Event ι → Prop
  | .start _ sv => ∀ j sv', (s.calls j).save? = some sv' →
      sv.tempFile ≠ sv'.tempFile ∧ sv.tempFile ≠ sv'.filename ∧ sv'.tempFile ≠ sv.filename
  | _ => True

/-! ## What a run did -/

/-- The temporary files a run has used. -/
def temps (tr : List (Event ι)) : List String :=
  tr.filterMap fun
    | .start _ sv => some sv.tempFile
    | _ => none

/-- The saves that returned `true`, oldest first. -/
def saved (tr : List (Event ι)) : List (Save ι) :=
  tr.filterMap fun
    | .renamed _ sv => some sv
    | _ => none

/-- The save that was put at a path last. -/
def lastSaved (tr : List (Event ι)) (path : String) : Option (Save ι) :=
  (saved tr).reverse.find? (·.filename = path)

end

end HighJump.Ai.VectorIndexSave
