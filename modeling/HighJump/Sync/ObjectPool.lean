/-
HighJump.Sync.ObjectPool — `hj::object_pool` in the hands of any number of
threads.

The queue is moodycamel's: an element that was enqueued is handed out
once, in no particular order among threads, and a `try_dequeue` may find
nothing although there is something. `enqueue` may fail for want of memory,
which the pool does not look at, and so may `_pool.malloc`, which throws.
What these answer is part of the label of the step. A block that
`boost::object_pool` gives out is one it has not given out before, since
none is freed before the pool goes (`Fresh`), provided that no two threads
are in it at once: it does not synchronize them, and neither does the pool
(`Honest`).

A member that makes several moves is one step for each, and the threads'
steps come in any order. `create` files the new object in the queue and
returns its address all the same. What a thread HOLDS is what `allocate`,
`acquire` and `acquire_bulk` returned to it, and the object it is
constructing; what `create` returned is not among it.
-/
import HighJump.Lib.Leases
import HighJump.Lib.Lts
import Mathlib.Data.Fintype.Option

namespace HighJump.Sync.ObjectPool

open HighJump.Lib

/-- What a thread has left to do in the member it is in. -/
inductive Pc (α : Type) where
  | idle
  /-- in `_pool.malloc`, for `create` or for `allocate` -/
  | allocating (create : Bool)
  /-- `new(ptr) T(...)` -/
  | constructing (obj : α)
  /-- `enqueue` of these. -/
  | enqueueing (objs : List α)
  /-- `try_dequeue_bulk`, up to this many more. -/
  | dequeueing (n : Nat)
  /-- the loop of `clear` -/
  | clearing
  deriving DecidableEq, Repr

/-- What the thread is about to enqueue. -/
def Pc.pending {α : Type} : Pc α → List α
  | .constructing obj => [obj]
  | .enqueueing objs => objs
  | _ => []

/-- `none` in the place of a thread is nobody, who has what `clear`
dequeued, what could not be enqueued and what a constructor threw over.
`given` is ghost: the blocks that `malloc` has given out. -/
structure Pool (τ α : Type) where
  given : List α
  container : Leases (Option τ) α
  pc : τ → Pc α

inductive Label (τ α : Type) where
  | create (t : τ)
  | allocate (t : τ)
  | malloced (t : τ) (ret : Option α)
  | constructed (t : τ) (ok : Bool)
  | acquire (t : τ) (ret : Option α)
  | acquireBulk (t : τ) (n : Nat)
  | dequeueNext (t : τ) (ret : Option α)
  | release (t : τ) (obj : α)
  | releaseBulk (t : τ) (objs : List α)
  | enqueueNext (t : τ) (filed : Bool)
  | clear (t : τ)
  | clearNext (t : τ) (ret : Option α)
  deriving DecidableEq, Repr

section Step

variable {τ α : Type} [DecidableEq τ] [DecidableEq α]

namespace Pool

omit [DecidableEq α] in
def goto (p : Pool τ α) (t : τ) (pc : Pc α) : Pool τ α :=
  { p with pc := Function.update p.pc t pc }

/-- `_pool.malloc()` has given out `obj`. -/
def malloc (p : Pool τ α) (t : τ) (obj : α) : Pool τ α where
  given := obj :: p.given
  container := p.container.give (some t) obj
  pc := p.pc

/-- `_container.try_dequeue(obj)` found `obj`. -/
def dequeue (p : Pool τ α) (holder : Option τ) (obj : α) : Pool τ α :=
  { p with container := p.container.take holder obj }

/-- `_container.enqueue(obj)` -/
def enqueue (p : Pool τ α) (t : τ) (obj : α) : Pool τ α :=
  { p with container := p.container.put (some t) obj }

/-- Nobody has `obj` any more. -/
def lose (p : Pool τ α) (t : τ) (obj : α) : Pool τ α :=
  (p.enqueue t obj).dequeue none obj

/-- One step; `none` where the label is not the thread's next or the queue
cannot answer so. -/
def step (p : Pool τ α) : Label τ α → Option (Pool τ α)
  | .create t => if p.pc t = .idle then some (p.goto t (.allocating true)) else none
  | .allocate t => if p.pc t = .idle then some (p.goto t (.allocating false)) else none
  | .malloced t ret =>
      match p.pc t, ret with
      -- `throw std::bad_alloc()`
      | .allocating _, none => some (p.goto t .idle)
      | .allocating true, some obj => some ((p.malloc t obj).goto t (.constructing obj))
      | .allocating false, some obj => some ((p.malloc t obj).goto t .idle)
      | _, _ => none
  | .constructed t ok =>
      match p.pc t with
      | .constructing obj =>
          if ok then some (p.goto t (.enqueueing [obj])) else some ((p.lose t obj).goto t .idle)
      | _ => none
  | .acquire t ret =>
      if p.pc t = .idle then
        match ret with
        | none => some p
        | some obj => if obj ∈ p.container.shelf then some (p.dequeue (some t) obj) else none
      else none
  | .acquireBulk t n => if p.pc t = .idle then some (p.goto t (.dequeueing n)) else none
  | .dequeueNext t ret =>
      match p.pc t, ret with
      | .dequeueing _, none => some (p.goto t .idle)
      | .dequeueing (n + 1), some obj =>
          if obj ∈ p.container.shelf then
            some ((p.dequeue (some t) obj).goto t (.dequeueing n))
          else none
      | _, _ => none
  | .release t obj => if p.pc t = .idle then some (p.goto t (.enqueueing [obj])) else none
  | .releaseBulk t objs => if p.pc t = .idle then some (p.goto t (.enqueueing objs)) else none
  | .enqueueNext t filed =>
      match p.pc t with
      | .enqueueing [] => some (p.goto t .idle)
      | .enqueueing (obj :: objs) =>
          some ((if filed then p.enqueue t obj else p.lose t obj).goto t (.enqueueing objs))
      | _ => none
  | .clear t => if p.pc t = .idle then some (p.goto t .clearing) else none
  | .clearNext t ret =>
      match p.pc t, ret with
      | .clearing, none => some (p.goto t .idle)
      | .clearing, some obj =>
          if obj ∈ p.container.shelf then some (p.dequeue none obj) else none
      | _, _ => none

end Pool

def lts (τ α : Type) [DecidableEq τ] [DecidableEq α] : Lts (Pool τ α) (Label τ α) where
  init p := p = { given := [], container := .empty, pc := fun _ => .idle }
  step p a p' := p.step a = some p'

/-- What the pool relies on its callers for: no two of them are in `malloc`
at once, and a thread releases objects that it holds, each once. -/
def Honest (p : Pool τ α) : Label τ α → Prop
  | .create _ | .allocate _ => ∀ u c, p.pc u ≠ .allocating c
  | .release t obj => obj ∈ p.container.held (some t)
  | .releaseBulk t objs => ∀ obj, objs.count obj ≤ (p.container.held (some t)).count obj
  | _ => True

/-- What it relies on `boost::object_pool` for. -/
def Fresh (p : Pool τ α) : Label τ α → Prop
  | .malloced _ (some obj) => obj ∉ p.given
  | _ => True

/-- Both. -/
def Relied (p : Pool τ α) (a : Label τ α) : Prop := Honest p a ∧ Fresh p a

end Step

/-! ## What a step does -/

section Moves

variable {τ α : Type} [DecidableEq τ] [DecidableEq α]

/-- The moves a step is made of: the thread goes on to `pc`, and an object
is new, leaves the queue, enters it or is lost, or none of it. -/
inductive Moved (p : Pool τ α) : Pool τ α → Prop where
  | goto {t : τ} {pc : Pc α}
      (hpending : ∀ obj, pc.pending.count obj ≤ (p.container.held (some t)).count obj) :
      Moved p (p.goto t pc)
  | goOn {t : τ} {pc : Pc α} (hpending : pc.pending = (p.pc t).pending) : Moved p (p.goto t pc)
  | malloc {t : τ} {obj : α} {pc : Pc α} (hfresh : obj ∉ p.given)
      (hpending : pc.pending = [] ∨ pc.pending = [obj]) : Moved p ((p.malloc t obj).goto t pc)
  | stays : Moved p p
  | dequeue {holder : Option τ} {obj : α} : obj ∈ p.container.shelf →
      Moved p (p.dequeue holder obj)
  | dequeueNext {t : τ} {obj : α} {n : Nat} : obj ∈ p.container.shelf →
      Moved p ((p.dequeue (some t) obj).goto t (.dequeueing n))
  | enqueue {t : τ} {obj : α} {pc : Pc α} : (p.pc t).pending = obj :: pc.pending →
      Moved p ((p.enqueue t obj).goto t pc)
  | lose {t : τ} {obj : α} {pc : Pc α} : (p.pc t).pending = obj :: pc.pending →
      Moved p ((p.lose t obj).goto t pc)

theorem moved_of_step {p p' : Pool τ α} {a : Label τ α} (h : p.step a = some p')
    (ha : Relied p a) : Moved p p' := by
  cases a with
  | create t =>
    simp only [Pool.step, Option.ite_none_right_eq_some, Option.some.injEq] at h
    obtain ⟨-, rfl⟩ := h
    exact .goto (by simp [Pc.pending])
  | allocate t =>
    simp only [Pool.step, Option.ite_none_right_eq_some, Option.some.injEq] at h
    obtain ⟨-, rfl⟩ := h
    exact .goto (by simp [Pc.pending])
  | malloced t ret =>
    simp only [Pool.step] at h
    split at h
    · cases h
      exact .goto (by simp [Pc.pending])
    · cases h
      exact .malloc ha.2 (.inr rfl)
    · cases h
      exact .malloc ha.2 (.inl rfl)
    · cases h
  | constructed t ok =>
    simp only [Pool.step] at h
    split at h
    · rename_i obj hpc
      split at h
      · cases h
        exact .goOn (by rw [hpc]; rfl)
      · cases h
        exact .lose (by rw [hpc]; rfl)
    · cases h
  | acquire t ret =>
    simp only [Pool.step, Option.ite_none_right_eq_some] at h
    obtain ⟨-, h⟩ := h
    cases ret with
    | none =>
      cases h
      exact .stays
    | some obj =>
      simp only [Option.ite_none_right_eq_some, Option.some.injEq] at h
      obtain ⟨hobj, rfl⟩ := h
      exact .dequeue hobj
  | acquireBulk t n =>
    simp only [Pool.step, Option.ite_none_right_eq_some, Option.some.injEq] at h
    obtain ⟨-, rfl⟩ := h
    exact .goto (by simp [Pc.pending])
  | dequeueNext t ret =>
    simp only [Pool.step] at h
    split at h
    · cases h
      exact .goto (by simp [Pc.pending])
    · simp only [Option.ite_none_right_eq_some, Option.some.injEq] at h
      obtain ⟨hobj, rfl⟩ := h
      exact .dequeueNext hobj
    · cases h
  | release t obj =>
    simp only [Pool.step, Option.ite_none_right_eq_some, Option.some.injEq] at h
    obtain ⟨-, rfl⟩ := h
    refine .goto fun b => ?_
    rw [Pc.pending, List.count_singleton]
    split
    · rename_i hb
      obtain rfl := beq_iff_eq.mp hb
      exact List.count_pos_iff.mpr ha.1
    · exact Nat.zero_le _
  | releaseBulk t objs =>
    simp only [Pool.step, Option.ite_none_right_eq_some, Option.some.injEq] at h
    obtain ⟨-, rfl⟩ := h
    exact .goto ha.1
  | enqueueNext t filed =>
    simp only [Pool.step] at h
    split at h
    · cases h
      exact .goto (by simp [Pc.pending])
    · rename_i obj objs hpc
      cases h
      split
      · exact .enqueue (by rw [hpc]; rfl)
      · exact .lose (by rw [hpc]; rfl)
    · cases h
  | clear t =>
    simp only [Pool.step, Option.ite_none_right_eq_some, Option.some.injEq] at h
    obtain ⟨-, rfl⟩ := h
    exact .goto (by simp [Pc.pending])
  | clearNext t ret =>
    simp only [Pool.step] at h
    split at h
    · cases h
      exact .goto (by simp [Pc.pending])
    · simp only [Option.ite_none_right_eq_some, Option.some.injEq] at h
      obtain ⟨hobj, rfl⟩ := h
      exact .dequeue hobj
    · cases h

end Moves

/-! ## One place for every object -/

section Invariant

variable {τ α : Type} [DecidableEq τ] [Fintype τ] [DecidableEq α]

/-- Every object that `malloc` gave out is in one place, and a thread
enqueues only what it holds. -/
structure Inv (p : Pool τ α) : Prop where
  owners : ∀ obj, p.container.owners obj = if obj ∈ p.given then 1 else 0
  pending : ∀ t obj, (p.pc t).pending.count obj ≤ (p.container.held (some t)).count obj

omit [DecidableEq τ] in
theorem Inv.exclusive {p : Pool τ α} (h : Inv p) : p.container.Exclusive := fun obj => by
  rw [h.owners obj]
  split <;> omega

theorem owners_malloc {p : Pool τ α} (h : Inv p) (t : τ) {obj : α} (hobj : obj ∉ p.given)
    (b : α) :
    (p.malloc t obj).container.owners b = if b ∈ (p.malloc t obj).given then 1 else 0 := by
  simp only [Pool.malloc, Leases.owners_give, h.owners b, List.mem_cons]
  by_cases hb : b = obj
  · subst hb
    simp [hobj]
  · simp [hb, Ne.symm hb]

/-- A thread that goes on elsewhere leaves the others where they are. -/
theorem pending_goto {p q : Pool τ α} (h : Inv p) {t : τ} {pc : Pc α} (hpc : q.pc = p.pc)
    (hheld : ∀ u obj, u ≠ t → (p.container.held (some u)).count obj ≤
      (q.container.held (some u)).count obj)
    (hpending : ∀ obj, pc.pending.count obj ≤ (q.container.held (some t)).count obj) (u : τ)
    (obj : α) :
    ((q.goto t pc).pc u).pending.count obj ≤
      ((q.goto t pc).container.held (some u)).count obj := by
  by_cases hu : u = t
  · subst hu
    simpa [Pool.goto] using hpending obj
  · simpa [Pool.goto, hu, hpc] using Nat.le_trans (h.pending u obj) (hheld u obj hu)

omit [Fintype τ] in
/-- What is lost is taken from the hand it was in, as if it were
enqueued. -/
theorem held_lose (p : Pool τ α) (t u : τ) (obj : α) :
    (p.lose t obj).container.held (some u) = (p.enqueue t obj).container.held (some u) := by
  simp [Pool.lose, Pool.dequeue, Leases.held_take]

/-- The object a thread has next to enqueue leaves its hand. -/
theorem pending_next {p q : Pool τ α} (h : Inv p) {t : τ} {b : α} {pc : Pc α}
    (hpc : (p.pc t).pending = b :: pc.pending) (hq : q.pc = p.pc)
    (hheld : ∀ u, q.container.held (some u) = (p.enqueue t b).container.held (some u)) :
    b ∈ p.container.held (some t) ∧ ∀ u obj, ((q.goto t pc).pc u).pending.count obj ≤
      ((q.goto t pc).container.held (some u)).count obj := by
  have hpend := h.pending t
  simp only [hpc, List.count_cons, beq_iff_eq] at hpend
  have hb := hpend b
  rw [if_pos rfl] at hb
  refine ⟨List.count_pos_iff.mp (Nat.lt_of_lt_of_le (Nat.succ_pos _) hb),
    pending_goto h hq (fun u obj hu => ?_) fun obj => ?_⟩
  · simp [hheld, Pool.enqueue, Leases.held_put, hu]
  · have hobj := hpend obj
    simp only [hheld, Pool.enqueue, Leases.held_put, if_true, List.count_erase, beq_iff_eq]
    omega

theorem inv_moved {p p' : Pool τ α} (h : Inv p) (hm : Moved p p') : Inv p' := by
  cases hm with
  | goto hpending =>
    exact ⟨h.owners, pending_goto h rfl (fun _ _ _ => Nat.le_refl _) hpending⟩
  | @goOn t _ hpending =>
    exact ⟨h.owners, pending_goto h rfl (fun _ _ _ => Nat.le_refl _)
      fun obj => hpending ▸ h.pending t obj⟩
  | @malloc t b _ hfresh hpending =>
    refine ⟨owners_malloc h t hfresh, pending_goto h rfl (fun u obj hu => ?_) fun obj => ?_⟩
    · simp [Pool.malloc, Leases.held_give, hu]
    · rcases hpending with heq | heq <;>
        simp [heq, Pool.malloc, Leases.held_give, List.count_cons]
  | stays => exact h
  | dequeue hobj =>
    rename_i holder b
    refine ⟨fun obj => (Leases.owners_take hobj).trans (h.owners obj),
      fun u obj => Nat.le_trans (h.pending u obj) ?_⟩
    by_cases hu : some u = holder
    · subst hu
      simp [Pool.dequeue, Leases.held_take, List.count_cons]
    · simp [Pool.dequeue, Leases.held_take, hu]
  | dequeueNext hobj =>
    refine ⟨fun obj => (Leases.owners_take hobj).trans (h.owners obj),
      pending_goto h rfl (fun u obj hu => ?_) fun obj => ?_⟩
    · simp [Pool.dequeue, Leases.held_take, hu]
    · simp [Pc.pending]
  | @enqueue t b pc hpc =>
    obtain ⟨hb, hpending⟩ := pending_next (q := p.enqueue t b) h hpc rfl fun _ => rfl
    exact ⟨fun obj => (Leases.owners_put hb).trans (h.owners obj), hpending⟩
  | @lose t b pc hpc =>
    obtain ⟨hb, hpending⟩ := pending_next (q := p.lose t b) h hpc rfl (held_lose p t · b)
    refine ⟨fun obj => ?_, hpending⟩
    have hshelf : b ∈ (p.container.put (some t) b).shelf := by simp
    exact ((Leases.owners_take hshelf).trans (Leases.owners_put hb)).trans (h.owners obj)

theorem inv_run {tr : List (Label τ α)} {p : Pool τ α}
    (h : ((lts τ α).guarded Relied).Run tr p) : Inv p := by
  refine Lts.Run.guarded_invariant (M := lts τ α) (P := Relied) ?_ ?_ h
  · rintro p rfl
    exact ⟨by simp, by simp [Pc.pending]⟩
  · exact fun p a p' hi hs ha => inv_moved hi (moved_of_step hs ha)

end Invariant

end HighJump.Sync.ObjectPool
