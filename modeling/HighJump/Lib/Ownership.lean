/-
HighJump.Lib.Ownership — objects that are made and deleted by hand, and
the pointers that own them.

Objects have numbers, in the order they are made, and a type; how often
each was deleted is counted, so deleting a dead object is an entry like
any other and not an error of the model. `Owned` is what a class that owns
through raw pointers has to keep: its pointers are null or point to live
objects, no two of them to the same one, and nothing is deleted twice. The
lemmas say which changes of the pointers, with which deletions, keep it.
-/
import Mathlib.Logic.Function.Basic
import Mathlib.Tactic.Common

namespace HighJump.Lib

universe u v

/-- The objects made so far. -/
structure Objects (τ : Type u) where
  next : Nat
  type : Nat → τ
  deletes : Nat → Nat

namespace Objects

variable {τ : Type u}

def empty (t : τ) : Objects τ := { next := 0, type := fun _ => t, deletes := fun _ => 0 }

def Live (o : Objects τ) (a : Nat) : Prop := a < o.next ∧ o.deletes a = 0

instance (o : Objects τ) (a : Nat) : Decidable (o.Live a) := inferInstanceAs (Decidable (_ ∧ _))

/-- A new object; its number is `next`. -/
def make (o : Objects τ) (t : τ) : Objects τ :=
  { o with next := o.next + 1, type := Function.update o.type o.next t }

def delete (o : Objects τ) (a : Nat) : Objects τ :=
  { o with deletes := Function.update o.deletes a (o.deletes a + 1) }

/-- `if(p) delete p;` -/
def deletePtr (o : Objects τ) : Option Nat → Objects τ
  | none => o
  | some a => o.delete a

variable {o : Objects τ} {a b : Nat} {t : τ}

@[simp] theorem next_make : (o.make t).next = o.next + 1 := rfl

@[simp] theorem deletes_make : (o.make t).deletes = o.deletes := rfl

@[simp] theorem type_make_new : (o.make t).type o.next = t := Function.update_self ..

theorem type_make_old (h : a < o.next) : (o.make t).type a = o.type a :=
  Function.update_of_ne (Nat.ne_of_lt h) ..

theorem Live.make (h : o.Live a) : (o.make t).Live a := ⟨Nat.lt_succ_of_lt h.1, h.2⟩

@[simp] theorem next_delete : (o.delete a).next = o.next := rfl

@[simp] theorem deletes_delete_self : (o.delete a).deletes a = o.deletes a + 1 :=
  Function.update_self ..

@[simp] theorem deletes_delete_ne (h : b ≠ a) : (o.delete a).deletes b = o.deletes b :=
  Function.update_of_ne h ..

theorem Live.delete (h : o.Live b) (hne : b ≠ a) : (o.delete a).Live b :=
  ⟨h.1, (deletes_delete_ne hne).trans h.2⟩

theorem not_live_delete : ¬ (o.delete a).Live a := by
  intro h
  have hself := h.2
  rw [deletes_delete_self] at hself
  omega

@[simp] theorem next_deletePtr (p : Option Nat) : (o.deletePtr p).next = o.next := by
  cases p <;> rfl

@[simp] theorem type_deletePtr (p : Option Nat) : (o.deletePtr p).type = o.type := by
  cases p <;> rfl

theorem deletes_deletePtr_ne {p : Option Nat} (hne : p ≠ some b) :
    (o.deletePtr p).deletes b = o.deletes b := by
  cases p with
  | none => rfl
  | some a => exact deletes_delete_ne fun heq => hne (congrArg some heq.symm)

theorem live_deletePtr_iff {p : Option Nat} : (o.deletePtr p).Live b ↔ o.Live b ∧ p ≠ some b := by
  constructor
  · intro h
    have hne : p ≠ some b := by
      rintro rfl
      exact not_live_delete h
    refine ⟨⟨?_, ?_⟩, hne⟩
    · rw [← next_deletePtr p]
      exact h.1
    · rw [← deletes_deletePtr_ne hne]
      exact h.2
  · rintro ⟨h, hne⟩
    refine ⟨?_, ?_⟩
    · rw [next_deletePtr]
      exact h.1
    · rw [deletes_deletePtr_ne hne]
      exact h.2

end Objects

/-! ## A table that is changed at one place -/

section Table

variable {κ : Type v} {α : Type u} [DecidableEq κ] {k j : κ}

/-- What stands in the changed table: the new entry, or an old one. -/
theorem update_cases {f : κ → α} {x y : α} (h : Function.update f k x j = y) :
    (j = k ∧ x = y) ∨ (j ≠ k ∧ f j = y) := by
  by_cases hj : j = k
  · rw [hj, Function.update_self] at h
    exact .inl ⟨hj, h⟩
  · rw [Function.update_of_ne hj] at h
    exact .inr ⟨hj, h⟩

/-- The same, where an entry went from `src` to `k`. -/
theorem moved_cases {f : κ → Option α} {src : κ} {a : α}
    (h : Function.update (Function.update f src none) k (f src) j = some a) :
    (j = k ∧ f src = some a) ∨ (j ≠ k ∧ f j = some a) := by
  rcases update_cases h with hnew | ⟨hj, hold⟩
  · exact .inl hnew
  · rcases update_cases hold with ⟨-, hnone⟩ | ⟨-, hkept⟩
    · cases hnone
    · exact .inr ⟨hj, hkept⟩

end Table

/-! ## Owning pointers -/

section Owned

variable {τ : Type u} {κ : Type v} {o : Objects τ} {ptr : κ → Option Nat} {a : Nat} {t : τ}

/-- The pointers `ptr` own what they point to. -/
structure Owned (o : Objects τ) (ptr : κ → Option Nat) : Prop where
  live : ∀ k a, ptr k = some a → o.Live a
  unique : ∀ k k' a, ptr k = some a → ptr k' = some a → k = k'
  once : ∀ a, o.deletes a ≤ 1
  unmade : ∀ a, o.next ≤ a → o.deletes a = 0

theorem owned_empty (t : τ) : Owned (Objects.empty t) fun _ : κ => none where
  live := nofun
  unique := nofun
  once _ := Nat.zero_le 1
  unmade _ _ := rfl

/-- `a` is alive and no pointer but that of `k` points to it. -/
def Free (o : Objects τ) (ptr : κ → Option Nat) (k : κ) (a : Nat) : Prop :=
  o.Live a ∧ ∀ k', k' ≠ k → ptr k' ≠ some a

/-- Every live object has an owner. -/
def Held (o : Objects τ) (ptr : κ → Option Nat) : Prop := ∀ a, o.Live a → ∃ k, ptr k = some a

theorem Owned.make (h : Owned o ptr) (t : τ) : Owned (o.make t) ptr where
  live k a hk := (h.live k a hk).make
  unique := h.unique
  once := h.once
  unmade a ha := h.unmade a (Nat.le_of_succ_le ha)

/-- A new object is free. -/
theorem Owned.free_new (h : Owned o ptr) (t : τ) (k : κ) : Free (o.make t) ptr k o.next := by
  refine ⟨⟨Nat.lt_succ_self _, h.unmade _ (Nat.le_refl _)⟩, fun k' _ heq => ?_⟩
  exact absurd (h.live k' _ heq).1 (Nat.lt_irrefl _)

theorem Owned.ptr_ne_new (h : Owned o ptr) (k : κ) : ptr k ≠ some o.next := by
  intro heq
  exact absurd (h.live k _ heq).1 (Nat.lt_irrefl _)

section

variable [DecidableEq κ]

/-- A pointer is changed; what it pointed to is still there. -/
theorem Owned.set (h : Owned o ptr) {k : κ} {p : Option Nat}
    (hp : ∀ a, p = some a → Free o ptr k a) : Owned o (Function.update ptr k p) where
  live k' a hk' := by
    rcases update_cases hk' with ⟨-, hnew⟩ | ⟨-, hold⟩
    · exact (hp a hnew).1
    · exact h.live k' a hold
  unique k₁ k₂ a h₁ h₂ := by
    rcases update_cases h₁ with ⟨hk₁, hnew₁⟩ | ⟨hk₁, hold₁⟩
    · rcases update_cases h₂ with ⟨hk₂, -⟩ | ⟨hk₂, hold₂⟩
      · rw [hk₁, hk₂]
      · exact absurd hold₂ ((hp a hnew₁).2 k₂ hk₂)
    · rcases update_cases h₂ with ⟨-, hnew₂⟩ | ⟨-, hold₂⟩
      · exact absurd hold₁ ((hp a hnew₂).2 k₁ hk₁)
      · exact h.unique k₁ k₂ a hold₁ hold₂
  once := h.once
  unmade := h.unmade

end

/-- An object nothing points to is deleted. -/
theorem Owned.delete (h : Owned o ptr) (ha : o.Live a) (hptr : ∀ k, ptr k ≠ some a) :
    Owned (o.delete a) ptr where
  live k b hk := (h.live k b hk).delete fun heq => hptr k (heq ▸ hk)
  unique := h.unique
  once b := by
    by_cases hb : b = a
    · exact Nat.le_of_eq (by rw [hb, Objects.deletes_delete_self, ha.2])
    · rw [Objects.deletes_delete_ne hb]
      exact h.once b
  unmade b hb := by
    have hne : b ≠ a := by
      rintro rfl
      exact absurd ha.1 (Nat.not_lt.mpr hb)
    rw [Objects.deletes_delete_ne hne]
    exact h.unmade b hb

/-- What a pointer owns is deleted for the first time. -/
theorem Owned.deletes_deletePtr (h : Owned o ptr) {k : κ} (hk : ptr k = some a) :
    (o.deletePtr (ptr k)).deletes a = 1 := by
  rw [hk, Objects.deletePtr, Objects.deletes_delete_self, (h.live k a hk).2]

variable [DecidableEq κ]

/-- **Replacing**: a pointer is changed to something free, and what it
pointed to is deleted. -/
theorem Owned.replace (h : Owned o ptr) {k : κ} {p : Option Nat}
    (hp : ∀ a, p = some a → Free o ptr k a) (hne : p = ptr k → p = none) :
    Owned (o.deletePtr (ptr k)) (Function.update ptr k p) := by
  have hset := h.set hp
  cases hk : ptr k with
  | none => exact hset
  | some b =>
      refine hset.delete (h.live k b hk) fun k' hk' => ?_
      rcases update_cases hk' with ⟨-, hnew⟩ | ⟨heq, hold⟩
      · rw [hne (hnew.trans hk.symm)] at hnew
        cases hnew
      · exact heq (h.unique k' k b hold hk)

/-- What a pointer points to is deleted, and the pointer is gone. -/
theorem Owned.release (h : Owned o ptr) (k : κ) :
    Owned (o.deletePtr (ptr k)) (Function.update ptr k none) :=
  h.replace nofun fun _ => rfl

/-- What one pointer owns goes to another, which had nothing. -/
theorem Owned.move (h : Owned o ptr) (k src : κ) :
    Owned o (Function.update (Function.update ptr src none) k (ptr src)) := by
  have hcleared : Owned o (Function.update ptr src none) :=
    h.set nofun
  refine hcleared.set fun a ha => ⟨h.live src a ha, fun k' _ hk' => ?_⟩
  rcases update_cases hk' with ⟨-, hnone⟩ | ⟨heq, hold⟩
  · cases hnone
  · exact heq (h.unique k' src a hold ha)

/-- A new object takes the place of what was there. -/
theorem Owned.replaceNew (h : Owned o ptr) (k : κ) (t : τ) :
    Owned ((o.make t).deletePtr (ptr k)) (Function.update ptr k (some o.next)) := by
  refine (h.make t).replace (fun a ha => ?_) fun heq => ?_
  · obtain rfl := Option.some.inj ha
    exact h.free_new t k
  · exact absurd heq.symm (h.ptr_ne_new k)

/-! ## Nothing lost -/

/-- What is still alive without `k` has another owner. -/
theorem Held.other (h : Held o ptr) {k : κ} {p : Option Nat}
    (ha : (o.deletePtr (ptr k)).Live a) : ∃ k', Function.update ptr k p k' = some a := by
  obtain ⟨hlive, hne⟩ := Objects.live_deletePtr_iff.mp ha
  obtain ⟨k', hk'⟩ := h a hlive
  refine ⟨k', ?_⟩
  rw [Function.update_of_ne]
  · exact hk'
  · rintro rfl
    exact hne hk'

theorem Held.release (h : Held o ptr) (k : κ) :
    Held (o.deletePtr (ptr k)) (Function.update ptr k none) := fun _ ha => h.other ha

theorem Held.replaceNew (h : Held o ptr) (k : κ) (t : τ) :
    Held ((o.make t).deletePtr (ptr k)) (Function.update ptr k (some o.next)) := by
  intro a ha
  obtain ⟨⟨hlt, hdel⟩, hne⟩ := Objects.live_deletePtr_iff.mp ha
  by_cases hnew : a = o.next
  · exact ⟨k, by rw [Function.update_self, hnew]⟩
  · rw [Objects.next_make] at hlt
    exact h.other (Objects.live_deletePtr_iff.mpr ⟨⟨by omega, hdel⟩, hne⟩)

theorem Held.move (h : Held o ptr) {k src : κ} (hk : ptr k = none) (hne : k ≠ src) :
    Held o (Function.update (Function.update ptr src none) k (ptr src)) := by
  intro a ha
  obtain ⟨k', hk'⟩ := h a ha
  by_cases heq : k' = src
  · exact ⟨k, by rw [Function.update_self, ← heq, hk']⟩
  · refine ⟨k', ?_⟩
    rw [Function.update_of_ne, Function.update_of_ne heq]
    · exact hk'
    · rintro rfl
      rw [hk] at hk'
      cases hk'

end Owned

end HighJump.Lib
