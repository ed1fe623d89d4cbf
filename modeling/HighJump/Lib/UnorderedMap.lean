/-
HighJump.Lib.UnorderedMap — `std::unordered_map` as far as its callers can
see it.

A map is the list of its entries in iteration order, no key twice. The
order is not specified, and inserting may rearrange it, so the order after
an insertion is given by a `Layout`, which may be any rearrangement.
Everything else a caller sees is `find`, and each operation has one lemma
about it.
-/
import Mathlib.Data.List.Nodup
import Mathlib.Data.List.Perm.Basic

namespace HighJump.Lib

variable {K V : Type}

/-- Where an insertion leaves the entries. -/
structure Layout (K V : Type) where
  order : List (K × V) → List (K × V)
  perm : ∀ l, (order l).Perm l

/-- A map: its entries in iteration order. -/
structure UMap (K V : Type) where
  entries : List (K × V)
  nodupKeys : (entries.map Prod.fst).Nodup

namespace UMap

variable [DecidableEq K]

/-- The value at a key. -/
def find (m : UMap K V) (k : K) : Option V :=
  (m.entries.find? fun e => decide (e.1 = k)).map Prod.snd

theorem find_eq_some_iff (m : UMap K V) (k : K) (v : V) :
    m.find k = some v ↔ (k, v) ∈ m.entries := by
  constructor
  · intro h
    obtain ⟨e, he, hv⟩ := Option.map_eq_some_iff.mp h
    have hk : e.1 = k := by simpa using List.find?_some he
    have hmem := List.mem_of_find?_eq_some he
    rwa [← hk, ← hv]
  · intro h
    cases hfind : m.find k with
    | none =>
        have hnone := Option.map_eq_none_iff.mp hfind
        exact absurd (List.find?_eq_none.mp hnone (k, v) h) (by simp)
    | some w =>
        obtain ⟨e, he, hw⟩ := Option.map_eq_some_iff.mp hfind
        have hk : e.1 = k := by simpa using List.find?_some he
        have heq : e = (k, v) :=
          List.inj_on_of_nodup_map m.nodupKeys (List.mem_of_find?_eq_some he) h hk
        rw [← hw, heq]

theorem find_eq_none_iff (m : UMap K V) (k : K) : m.find k = none ↔ k ∉ m.entries.map Prod.fst := by
  constructor
  · intro h hk
    obtain ⟨e, he, rfl⟩ := List.mem_map.mp hk
    rw [(m.find_eq_some_iff e.1 e.2).mpr he] at h
    cases h
  · intro h
    cases hfind : m.find k with
    | none => rfl
    | some v =>
        have hmem := (m.find_eq_some_iff k v).mp hfind
        exact absurd (List.mem_map.mpr ⟨(k, v), hmem, rfl⟩) h

/-- Two maps with the entries of one at other keys agree there. -/
theorem find_congr {m m' : UMap K V} {k : K} (h : ∀ v, (k, v) ∈ m.entries ↔ (k, v) ∈ m'.entries) :
    m.find k = m'.find k := by
  apply Option.ext
  intro v
  rw [find_eq_some_iff, find_eq_some_iff, h]

/-! ## Operations -/

/-- A new map. -/
def empty : UMap K V where
  entries := []
  nodupKeys := List.nodup_nil

omit [DecidableEq K] in
theorem nodupKeys_insert (lay : Layout K V) (m : UMap K V) {k : K} (v : V)
    (h : k ∉ m.entries.map Prod.fst) :
    ((lay.order (m.entries ++ [(k, v)])).map Prod.fst).Nodup := by
  rw [((lay.perm _).map Prod.fst).nodup_iff, List.map_append]
  refine List.Nodup.append m.nodupKeys (List.nodup_singleton _) ?_
  intro a ha hk
  rw [List.map_singleton, List.mem_singleton] at hk
  rw [hk] at ha
  exact h ha

/-- A new entry, at a key the map does not have. -/
def insert (lay : Layout K V) (m : UMap K V) (k : K) (v : V) (h : m.find k = none) : UMap K V where
  entries := lay.order (m.entries ++ [(k, v)])
  nodupKeys := nodupKeys_insert lay m v ((m.find_eq_none_iff k).mp h)

/-- `emplace(k, v)`: an entry that is there stays. -/
def emplace (lay : Layout K V) (m : UMap K V) (k : K) (v : V) : UMap K V :=
  if h : m.find k = none then m.insert lay k v h else m

/-- The entries with the value at `k` overwritten. -/
def overwrite (m : UMap K V) (k : K) (v : V) : UMap K V where
  entries := m.entries.map fun e => (e.1, if e.1 = k then v else e.2)
  nodupKeys := by
    rw [List.map_map]
    exact m.nodupKeys

/-- `m[k] = v` -/
def assign (lay : Layout K V) (m : UMap K V) (k : K) (v : V) : UMap K V :=
  if h : m.find k = none then m.insert lay k v h else m.overwrite k v

/-- `erase(k)`, with the number of entries it removed. -/
def erase (m : UMap K V) (k : K) : UMap K V × Nat :=
  ({ entries := m.entries.filter fun e => decide (e.1 ≠ k)
     nodupKeys := (m.nodupKeys).sublist (List.filter_sublist.map _) },
    if m.find k = none then 0 else 1)

/-! ## What they do to `find` -/

theorem find_insert (lay : Layout K V) (m : UMap K V) {k : K} (v : V) (h : m.find k = none) (k' : K) :
    (m.insert lay k v h).find k' = if k' = k then some v else m.find k' := by
  have hmem : ∀ e, e ∈ (m.insert lay k v h).entries ↔ e ∈ m.entries ∨ e = (k, v) := by
    intro e
    rw [insert, (lay.perm _).mem_iff, List.mem_append, List.mem_singleton]
  by_cases hk : k' = k
  · rw [if_pos hk, find_eq_some_iff, hmem, hk]
    exact .inr rfl
  · rw [if_neg hk]
    refine find_congr fun w => ?_
    rw [hmem]
    refine or_iff_left ?_
    intro heq
    exact hk (congrArg Prod.fst heq)

theorem find_emplace (lay : Layout K V) (m : UMap K V) (k : K) (v : V) (k' : K) :
    (m.emplace lay k v).find k' = if k' = k then some ((m.find k).getD v) else m.find k' := by
  rw [emplace]
  split
  · next h => rw [find_insert, h, Option.getD_none]
  · next h =>
      obtain ⟨w, hw⟩ := Option.ne_none_iff_exists'.mp h
      by_cases hk : k' = k
      · rw [if_pos hk, hk, hw, Option.getD_some]
      · rw [if_neg hk]

theorem find_overwrite (m : UMap K V) {k : K} (v : V) (h : m.find k ≠ none) (k' : K) :
    (m.overwrite k v).find k' = if k' = k then some v else m.find k' := by
  by_cases hk : k' = k
  · obtain ⟨w, hw⟩ := Option.ne_none_iff_exists'.mp h
    rw [if_pos hk, find_eq_some_iff, hk]
    exact List.mem_map.mpr ⟨(k, w), (m.find_eq_some_iff k w).mp hw, by simp⟩
  · rw [if_neg hk]
    refine find_congr fun u => ?_
    constructor
    · intro hu
      obtain ⟨e, he, heq⟩ := List.mem_map.mp hu
      obtain ⟨h1, h2⟩ := Prod.mk.inj heq
      rw [if_neg (by rw [h1]; exact hk)] at h2
      rwa [← h1, ← h2]
    · intro hu
      exact List.mem_map.mpr ⟨(k', u), hu, by simp [hk]⟩

theorem find_assign (lay : Layout K V) (m : UMap K V) (k : K) (v : V) (k' : K) :
    (m.assign lay k v).find k' = if k' = k then some v else m.find k' := by
  rw [assign]
  split
  · next h => exact find_insert lay m v h k'
  · next h => exact find_overwrite m v h k'

theorem find_erase (m : UMap K V) (k k' : K) :
    (m.erase k).1.find k' = if k' = k then none else m.find k' := by
  by_cases hk : k' = k
  · rw [if_pos hk, find_eq_none_iff, hk]
    intro hmem
    obtain ⟨e, he, heq⟩ := List.mem_map.mp hmem
    exact absurd heq (of_decide_eq_true (List.mem_filter.mp he).2)
  · rw [if_neg hk]
    refine find_congr fun v => ?_
    rw [erase, List.mem_filter]
    exact and_iff_left (decide_eq_true hk)

end UMap

end HighJump.Lib
