/-
HighJump.Lib.BlockModes — block cipher modes of operation, as machines
that take one block and give one block.

A mode is a step `σ → β → σ × β`: its chaining state and the block go in,
the next state and the output block come out. `run` folds a step over a
message. The five classical modes are given over an arbitrary block type
with an arbitrary cipher, exclusive or and counter step; `run_inverse`
reduces "decryption undoes encryption" to one block, and each mode's
one-block law is proved from the two facts it needs of the cipher and
the exclusive or.
-/
import Mathlib.Data.List.Basic

namespace HighJump.Lib.BlockModes

universe u v

variable {σ : Type u} {β : Type v}

/-! ## Running a step over a message -/

/-- The output blocks of a message. -/
def run (f : σ → β → σ × β) : σ → List β → List β
  | _, [] => []
  | s, b :: bs => (f s b).2 :: run f (f s b).1 bs

/-- The chaining state after a message. -/
def final (f : σ → β → σ × β) : σ → List β → σ
  | s, [] => s
  | s, b :: bs => final f (f s b).1 bs

@[simp] theorem run_nil (f : σ → β → σ × β) (s : σ) : run f s [] = [] := rfl

@[simp] theorem final_nil (f : σ → β → σ × β) (s : σ) : final f s [] = s := rfl

@[simp] theorem length_run (f : σ → β → σ × β) (s : σ) (bs : List β) :
    (run f s bs).length = bs.length := by
  induction bs generalizing s with
  | nil => rfl
  | cons b bs ih => simp [run, ih]

theorem run_append (f : σ → β → σ × β) (s : σ) (bs cs : List β) :
    run f s (bs ++ cs) = run f s bs ++ run f (final f s bs) cs := by
  induction bs generalizing s with
  | nil => rfl
  | cons b bs ih => simp [run, final, ih]

theorem final_append (f : σ → β → σ × β) (s : σ) (bs cs : List β) :
    final f s (bs ++ cs) = final f (final f s bs) cs := by
  induction bs generalizing s with
  | nil => rfl
  | cons b bs ih => simp [final, ih]

/-- `dec` undoes `enc` on one block: it returns the block and the state
`enc` moved to. -/
def Undoes (enc dec : σ → β → σ × β) : Prop := ∀ s b, dec s (enc s b).2 = ((enc s b).1, b)

/-- A step undone block by block is undone over every message. -/
theorem run_inverse {enc dec : σ → β → σ × β} (h : Undoes enc dec) (s : σ) (bs : List β) :
    run dec s (run enc s bs) = bs := by
  induction bs generalizing s with
  | nil => rfl
  | cons b bs ih => rw [run, run, h s b, ih]

/-! ## Cascades -/

/-- A cascade of steps is undone from its last step to its first. -/
theorem cascade_inverse {ι : Type u} {f g : ι → β → β} (h : ∀ i b, g i (f i b) = b) (l : List ι)
    (b : β) : l.reverse.foldl (fun b i => g i b) (l.foldl (fun b i => f i b) b) = b := by
  induction l generalizing b with
  | nil => rfl
  | cons i l ih =>
    rw [List.foldl_cons, List.reverse_cons, List.foldl_append, ih, List.foldl_cons,
      List.foldl_nil, h]

/-! ## The modes -/

section Modes

variable (E D : β → β) (xor : β → β → β) (next : β → β)

def ecbEnc (s : σ) (b : β) : σ × β := (s, E b)
def ecbDec (s : σ) (b : β) : σ × β := (s, D b)

def cbcEnc (iv b : β) : β × β := (E (xor b iv), E (xor b iv))
def cbcDec (iv b : β) : β × β := (b, xor (D b) iv)

def cfbEnc (iv b : β) : β × β := (xor b (E iv), xor b (E iv))
def cfbDec (iv b : β) : β × β := (b, xor b (E iv))

/-- Output feedback, both directions. -/
def ofb (iv b : β) : β × β := (E iv, xor b (E iv))

/-- Counter mode, both directions. -/
def ctr (n b : β) : β × β := (next n, xor b (E n))

variable {E D xor}

theorem ecb_undoes (hED : ∀ b, D (E b) = b) :
    Undoes (ecbEnc (σ := σ) E) (ecbDec D) := by
  intro s b; simp [ecbEnc, ecbDec, hED]

theorem cbc_undoes (hED : ∀ b, D (E b) = b) (hx : ∀ a k, xor (xor a k) k = a) :
    Undoes (cbcEnc E xor) (cbcDec D xor) := by
  intro iv b; simp [cbcEnc, cbcDec, hED, hx]

/-- Encryption undoes decryption too. -/
theorem cbcDec_undoes (hDE : ∀ b, E (D b) = b) (hx : ∀ a k, xor (xor a k) k = a) :
    Undoes (cbcDec D xor) (cbcEnc E xor) := by
  intro iv b; simp [cbcEnc, cbcDec, hDE, hx]

theorem cfbDec_undoes (hx : ∀ a k, xor (xor a k) k = a) :
    Undoes (cfbDec E xor) (cfbEnc E xor) := by
  intro iv b; simp [cfbEnc, cfbDec, hx]

theorem cfb_undoes (hx : ∀ a k, xor (xor a k) k = a) :
    Undoes (cfbEnc E xor) (cfbDec E xor) := by
  intro iv b; simp [cfbEnc, cfbDec, hx]

theorem ofb_undoes (hx : ∀ a k, xor (xor a k) k = a) : Undoes (ofb E xor) (ofb E xor) := by
  intro iv b; simp [ofb, hx]

theorem ctr_undoes (hx : ∀ a k, xor (xor a k) k = a) :
    Undoes (ctr E xor next) (ctr E xor next) := by
  intro n b; simp [ctr, hx]

end Modes

end HighJump.Lib.BlockModes
