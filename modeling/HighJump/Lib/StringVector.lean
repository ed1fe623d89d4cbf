/-
HighJump.Lib.StringVector — a growing `std::vector<std::string>`, and the
pointers into its strings.

A short string keeps its characters inside the object, a long one in a
block of its own. When the vector is full the strings are moved to new
storage: a long one takes its block along, the characters of a short one
are then somewhere else. So a pointer to the characters of a string is
good for as long as the vector lives if the string is long, and until the
next move if it is short (`read_dataPtr`).

How long a short string may be and how a vector grows is not fixed by the
language; both are parameters (`Impl`).
-/
import Mathlib.Data.List.Induction
import Mathlib.Tactic.Common

namespace HighJump.Lib

/-- `sso` is the longest string kept inside its object, `grow` the capacity
of the new storage of a vector that is full. -/
structure Impl where
  sso : Nat
  grow : Nat → Nat
  lt_grow : ∀ n, n < grow n

inductive Str where
  | short (bytes : List UInt8)
  | long (block : Nat)
  deriving DecidableEq, Repr

/-- `storage` counts the moves, `blocks` are the blocks of the long
strings. -/
structure StringVector where
  slots : List Str
  capacity : Nat
  storage : Nat
  blocks : List (List UInt8)
  deriving DecidableEq, Repr

/-- Where the characters of a string are. -/
inductive DataPtr where
  | slot (storage i : Nat)
  | block (k : Nat)
  deriving DecidableEq, Repr

namespace StringVector

def empty : StringVector := { slots := [], capacity := 0, storage := 0, blocks := [] }

variable (impl : Impl)

/-- A string, and its block if it needs one. -/
def place (v : StringVector) (bytes : List UInt8) : Str × List (List UInt8) :=
  if bytes.length ≤ impl.sso then (.short bytes, v.blocks)
  else (.long v.blocks.length, v.blocks ++ [bytes])

def pushBack (v : StringVector) (bytes : List UInt8) : StringVector :=
  let (str, blocks) := v.place impl bytes
  if v.slots.length = v.capacity then
    { slots := v.slots ++ [str], capacity := impl.grow v.capacity, storage := v.storage + 1,
      blocks }
  else { v with slots := v.slots ++ [str], blocks }

/-- `v.back().data()` -/
def backData (v : StringVector) : DataPtr :=
  match v.slots.getLast? with
  | some (.long k) => .block k
  | _ => .slot v.storage (v.slots.length - 1)

/-- The characters behind a pointer, if they are still there. -/
def read (v : StringVector) : DataPtr → Option (List UInt8)
  | .slot storage i =>
      if storage = v.storage then
        match v.slots[i]? with
        | some (.short bytes) => some bytes
        | _ => none
      else none
  | .block k => v.blocks[k]?

/-- The vector behind these `push_back`s. -/
def pushAll (bs : List (List UInt8)) : StringVector := bs.foldl (pushBack impl) empty

/-- The capacity in front of the `n`-th `push_back`. -/
def capacityAt : Nat → Nat
  | 0 => 0
  | n + 1 => if n = capacityAt n then impl.grow n else capacityAt n

/-- The `n`-th `push_back` moves the strings. -/
def Moves (n : Nat) : Prop := n = capacityAt impl n

instance (n : Nat) : Decidable (Moves impl n) := inferInstanceAs (Decidable (_ = _))

/-- How many of the first `n` do. -/
def moves : Nat → Nat
  | 0 => 0
  | n + 1 => if Moves impl n then moves n + 1 else moves n

/-- The `j`-th of these strings is read rightly to the end: it is long, or
no later `push_back` moves it. -/
def Survives (bs : List (List UInt8)) (j : Nat) : Prop :=
  (∀ b, bs[j]? = some b → impl.sso < b.length) ∨ ∀ k, j < k → k < bs.length → ¬ Moves impl k

/-- `data()` of the `j`-th string, when it was pushed. -/
def dataPtr (bs : List (List UInt8)) (j : Nat) : DataPtr :=
  (pushAll impl (bs.take (j + 1))).backData

/-! ## What a `push_back` changes -/

variable {impl} {bs : List (List UInt8)} {b : List UInt8}

theorem pushAll_snoc : pushAll impl (bs ++ [b]) = (pushAll impl bs).pushBack impl b := by
  rw [pushAll, List.foldl_append]
  rfl

theorem slots_pushBack (v : StringVector) :
    (v.pushBack impl b).slots = v.slots ++ [(v.place impl b).1] := by
  rw [pushBack]
  simp only
  split <;> rfl

theorem blocks_pushBack (v : StringVector) :
    (v.pushBack impl b).blocks = (v.place impl b).2 := by
  rw [pushBack]
  simp only
  split <;> rfl

theorem capacity_pushBack (v : StringVector) :
    (v.pushBack impl b).capacity =
      if v.slots.length = v.capacity then impl.grow v.capacity else v.capacity := by
  rw [pushBack]
  simp only
  split <;> rfl

theorem storage_pushBack (v : StringVector) :
    (v.pushBack impl b).storage =
      if v.slots.length = v.capacity then v.storage + 1 else v.storage := by
  rw [pushBack]
  simp only
  split <;> rfl

@[simp] theorem length_slots_pushAll (bs : List (List UInt8)) :
    (pushAll impl bs).slots.length = bs.length := by
  induction bs using List.reverseRecOn with
  | nil => rfl
  | append_singleton bs b ih =>
      rw [pushAll_snoc, slots_pushBack, List.length_append, ih, List.length_append]
      rfl

theorem capacity_pushAll (bs : List (List UInt8)) :
    (pushAll impl bs).capacity = capacityAt impl bs.length := by
  induction bs using List.reverseRecOn with
  | nil => rfl
  | append_singleton bs b ih =>
      have hlen : (bs ++ [b]).length = bs.length + 1 := List.length_append
      rw [pushAll_snoc, hlen, capacityAt, capacity_pushBack, length_slots_pushAll, ih]
      split
      · next h => exact (congrArg impl.grow h).symm
      · rfl

theorem storage_pushAll (bs : List (List UInt8)) :
    (pushAll impl bs).storage = moves impl bs.length := by
  induction bs using List.reverseRecOn with
  | nil => rfl
  | append_singleton bs b ih =>
      have hlen : (bs ++ [b]).length = bs.length + 1 := List.length_append
      rw [pushAll_snoc, hlen, moves, storage_pushBack, length_slots_pushAll, capacity_pushAll, ih]
      rfl

theorem blocks_prefix (bs cs : List (List UInt8)) :
    (pushAll impl bs).blocks <+: (pushAll impl (bs ++ cs)).blocks := by
  induction cs using List.reverseRecOn with
  | nil =>
      simp only [List.append_nil, List.prefix_refl]
  | append_singleton cs c ih =>
      refine ih.trans ?_
      rw [← List.append_assoc, pushAll_snoc, blocks_pushBack, place]
      split
      · exact List.prefix_refl _
      · exact List.prefix_append _ _

theorem slots_prefix (bs cs : List (List UInt8)) :
    (pushAll impl bs).slots <+: (pushAll impl (bs ++ cs)).slots := by
  induction cs using List.reverseRecOn with
  | nil =>
      simp only [List.append_nil, List.prefix_refl]
  | append_singleton cs c ih =>
      refine ih.trans ?_
      rw [← List.append_assoc, pushAll_snoc, slots_pushBack]
      exact List.prefix_append _ _

/-- The storage is the same exactly if nothing was moved in between. -/
theorem moves_eq_iff (j n : Nat) :
    moves impl j = moves impl (j + n) ↔ ∀ k, j ≤ k → k < j + n → ¬ Moves impl k := by
  have hle : ∀ n, moves impl j ≤ moves impl (j + n) := by
    intro n
    induction n with
    | zero => exact Nat.le_refl _
    | succ n ih =>
        rw [← Nat.add_assoc, moves]
        split <;> omega
  induction n with
  | zero => exact iff_of_true rfl fun k hk hlt => absurd hlt (by omega)
  | succ n ih =>
      rw [← Nat.add_assoc, moves]
      by_cases hm : Moves impl (j + n)
      · rw [if_pos hm]
        have hlen := hle n
        exact iff_of_false (by omega) fun hall => hall (j + n) (by omega) (by omega) hm
      · rw [if_neg hm]
        refine ih.trans ⟨?_, ?_⟩
        · intro hall k hk hlt
          by_cases heq : k = j + n
          · rw [heq]
            exact hm
          · exact hall k hk (by omega)
        · exact fun hall k hk hlt => hall k hk (by omega)

/-! ## Pointers -/

theorem backData_long (v : StringVector) (h : impl.sso < b.length) :
    (v.pushBack impl b).backData = .block v.blocks.length := by
  have hplace : v.place impl b = (.long v.blocks.length, v.blocks ++ [b]) := by
    rw [place, if_neg (by omega)]
  rw [backData, slots_pushBack, hplace, List.getLast?_concat]

theorem backData_short (v : StringVector) (h : b.length ≤ impl.sso) :
    (v.pushBack impl b).backData = .slot (v.pushBack impl b).storage v.slots.length := by
  have hplace : v.place impl b = (.short b, v.blocks) := by rw [place, if_pos h]
  have hlen : (v.pushBack impl b).slots.length - 1 = v.slots.length := by
    rw [slots_pushBack, List.length_append]
    rfl
  rw [backData, hlen, slots_pushBack, hplace, List.getLast?_concat]

theorem dataPtr_append (bs cs : List (List UInt8)) (b : List UInt8) :
    dataPtr impl (bs ++ b :: cs) bs.length = ((pushAll impl bs).pushBack impl b).backData := by
  have hlen : (bs ++ [b]).length = bs.length + 1 := List.length_append
  have hsplit : bs ++ b :: cs = bs ++ [b] ++ cs := by rw [List.append_assoc]; rfl
  rw [dataPtr, hsplit, ← hlen, List.take_left, pushAll_snoc]

/-- **What is read in the end** through the pointer to a string that was
pushed at some time. -/
theorem read_dataPtr (bs cs : List (List UInt8)) (b : List UInt8) :
    ((pushAll impl (bs ++ b :: cs)).read (dataPtr impl (bs ++ b :: cs) bs.length) = some b ∧
        Survives impl (bs ++ b :: cs) bs.length) ∨
      ((pushAll impl (bs ++ b :: cs)).read (dataPtr impl (bs ++ b :: cs) bs.length) = none ∧
        ¬ Survives impl (bs ++ b :: cs) bs.length) := by
  have hsplit : bs ++ b :: cs = bs ++ [b] ++ cs := by rw [List.append_assoc]; rfl
  have hlen : (bs ++ [b]).length = bs.length + 1 := List.length_append
  have hself : (bs ++ b :: cs)[bs.length]? = some b := by
    rw [List.getElem?_append_right (Nat.le_refl _), Nat.sub_self]
    rfl
  rw [dataPtr_append]
  by_cases hlong : impl.sso < b.length
  · -- its block stays where it is
    refine .inl ⟨?_, .inl fun b' hb' => ?_⟩
    · have hblocks : (pushAll impl (bs ++ [b])).blocks <+: _ := blocks_prefix (bs ++ [b]) cs
      rw [← hsplit, pushAll_snoc, blocks_pushBack, place, if_neg (by omega)] at hblocks
      obtain ⟨more, hmore⟩ := hblocks
      rw [backData_long _ hlong, read, ← hmore, List.append_assoc,
        List.getElem?_append_right (Nat.le_refl _), Nat.sub_self]
      rfl
    · rw [hself] at hb'
      rwa [← Option.some.inj hb']
  · have hshort : b.length ≤ impl.sso := by omega
    have hstorage : ((pushAll impl bs).pushBack impl b).storage = moves impl (bs.length + 1) := by
      rw [← pushAll_snoc, storage_pushAll, hlen]
    have hslot : (pushAll impl (bs ++ b :: cs)).slots[bs.length]? = some (.short b) := by
      have hslots : (pushAll impl (bs ++ [b])).slots <+: _ := slots_prefix (bs ++ [b]) cs
      rw [← hsplit, pushAll_snoc, slots_pushBack, place, if_pos hshort] at hslots
      obtain ⟨more, hmore⟩ := hslots
      rw [← hmore, List.append_assoc, List.getElem?_append_right (by simp), length_slots_pushAll,
        Nat.sub_self]
      rfl
    have htotal : (bs ++ b :: cs).length = bs.length + 1 + cs.length := by
      rw [hsplit, List.length_append, hlen]
    have hiff : Survives impl (bs ++ b :: cs) bs.length ↔
        moves impl (bs.length + 1) = moves impl (bs.length + 1 + cs.length) := by
      rw [moves_eq_iff, Survives, htotal]
      constructor
      · rintro (h | h)
        · exact absurd (h b hself) hlong
        · exact fun k hk hlt => h k hk hlt
      · exact fun h => .inr fun k hk hlt => h k hk hlt
    rw [hiff, backData_short _ hshort, read, hstorage, length_slots_pushAll, storage_pushAll,
      htotal, hslot]
    by_cases heq : moves impl (bs.length + 1) = moves impl (bs.length + 1 + cs.length)
    · exact .inl ⟨if_pos heq, heq⟩
    · exact .inr ⟨if_neg heq, heq⟩

end StringVector

end HighJump.Lib
