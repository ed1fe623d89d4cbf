/-
HighJump.Apps.DataMgr — `data_mgr` of the db and crypto cores, which hands
out parameter blocks from one `hj::object_pool` for each type of block.

The two classes differ in their types of block only. `Blocks` is what a
class says of a type: `_init` and `_reset`. A block taken from its pool
must hold nothing that an earlier user wrote into it: callers read results
through the same memory, and `crypto_encrypt` takes what it finds in `out`
for a file name.

Each access to a pool is a step, and so is `_reset`, which runs before the
block is back in the pool; steps of different threads come in any order.
-/
import HighJump.Lib.Leases
import HighJump.Lib.Lts

namespace HighJump.Apps.DataMgr

open HighJump.Lib

/-- The types of block of one `data_mgr`, in the order of `init`. -/
structure Blocks (κ : Type) (T : κ → Type) where
  kinds : List κ
  /-- The type a number stands for. -/
  kind? : Int → Option κ
  maxPoolSize : Nat
  /-- `_init`, on memory that holds `mem`. -/
  init : (k : κ) → (Nat → UInt8) → T k
  reset : (k : κ) → T k → T k
  /-- The buffers are those of `_init`. -/
  Shaped : (k : κ) → T k → Prop
  shaped_init : ∀ k mem, Shaped k (init k mem)
  /-- `_reset` leaves what `_init` makes of zeroed memory. -/
  reset_eq : ∀ {k x}, Shaped k x → reset k x = init k fun _ => 0

/-- Where `init` is; it runs once. -/
inductive Boot (τ κ : Type) where
  | fresh
  /-- thread `t` still has to allocate these -/
  | filling (t : τ) (size : Nat) (todo : List κ)
  /-- and has `_init` behind it for one -/
  | filled (t : τ) (size : Nat) (k : κ) (block : Nat) (todo : List κ)
  | done (size : Nat)

/-- The thread that is in `init`. -/
def Boot.thread? {τ κ : Type} : Boot τ κ → Option τ
  | .filling t _ _ | .filled t _ _ _ _ => some t
  | _ => none

inductive Pc (κ : Type) where
  | idle
  /-- in `release`, `_reset` done -/
  | releasing (k : κ) (block : Nat)
  deriving DecidableEq

structure Sys (τ κ : Type) (T : κ → Type) where
  boot : Boot τ κ
  next : κ → Nat
  pool : κ → Leases τ Nat
  content : (k : κ) → Nat → T k
  /-- What the memory of a block held when it was allocated. -/
  memory : κ → Nat → Nat → UInt8
  pc : τ → Pc κ

inductive Label (τ κ : Type) (T : κ → Type) where
  | init (t : τ) (poolSize : Nat)
  | fill (t : τ) (mem : Nat → UInt8)
  | file (t : τ)
  | require (t : τ) (typ : Int) (ret : Option Nat)
  | write (t : τ) (k : κ) (block : Nat) (x : T k)
  | release (t : τ) (typ : Int) (value : Option (Σ _ : κ, Nat))

section Step

variable {τ κ : Type} [DecidableEq τ] [DecidableEq κ] {T : κ → Type} (B : Blocks κ T)

/-- `pool_size` of `init`. -/
def poolSize (n : Nat) : Nat :=
  let n := if n = 0 then 1 else n
  if n > B.maxPoolSize then B.maxPoolSize else n

namespace Sys

/-- The thread is in no member. -/
def AtRest (s : Sys τ κ T) (t : τ) : Prop := s.pc t = .idle ∧ s.boot.thread? ≠ some t

instance (s : Sys τ κ T) (t : τ) : Decidable (s.AtRest t) :=
  inferInstanceAs (Decidable (_ ∧ _))

def store (s : Sys τ κ T) (k : κ) (block : Nat) (x : T k) : Sys τ κ T :=
  { s with content := Function.update s.content k (Function.update (s.content k) block x) }

def onPool (s : Sys τ κ T) (k : κ) (l : Leases τ Nat) : Sys τ κ T :=
  { s with pool := Function.update s.pool k l }

def goto (s : Sys τ κ T) (t : τ) (pc : Pc κ) : Sys τ κ T :=
  { s with pc := Function.update s.pc t pc }

/-- The first call of `init`. -/
def start (s : Sys τ κ T) (t : τ) (n : Nat) : Sys τ κ T :=
  let size := poolSize B n
  { s with boot := .filling t size (List.replicate size B.kinds).flatten }

/-- `allocate` and `_init`, in thread `t`. -/
def allocate (s : Sys τ κ T) (t : τ) (k : κ) (mem : Nat → UInt8) : Sys τ κ T :=
  { ((s.onPool k ((s.pool k).give t (s.next k))).store k (s.next k) (B.init k mem)) with
    next := Function.update s.next k (s.next k + 1)
    memory := Function.update s.memory k (Function.update (s.memory k) (s.next k) mem) }

/-- `_pool.release(param)` -/
def putBack (s : Sys τ κ T) (t : τ) (k : κ) (block : Nat) : Sys τ κ T :=
  s.onPool k ((s.pool k).put t block)

/-- One step; `none` where the label is not the thread's next, the queue
cannot answer so, or `value` is cast to a type that is not its own. -/
def step (s : Sys τ κ T) : Label τ κ T → Option (Sys τ κ T)
  | .init t n =>
      if s.AtRest t then
        match s.boot with
        | .fresh => some (s.start B t n)
        | _ => some s
      else none
  | .fill t mem =>
      match s.boot with
      | .filling u size [] => if u = t then some { s with boot := .done size } else none
      | .filling u size (k :: todo) =>
          if u = t then
            some { s.allocate B t k mem with boot := .filled t size k (s.next k) todo }
          else none
      | _ => none
  | .file t =>
      match s.boot, s.pc t with
      | .filled u size k block todo, .idle =>
          if u = t then some { s.putBack t k block with boot := .filling t size todo } else none
      | _, .releasing k block => some ((s.putBack t k block).goto t .idle)
      | _, _ => none
  | .require t typ ret =>
      if s.AtRest t then
        match B.kind? typ, ret with
        | some k, some block =>
            if block ∈ (s.pool k).shelf then some (s.onPool k ((s.pool k).take t block)) else none
        | _, none => some s
        | none, some _ => none
      else none
  | .write t k block x => if s.AtRest t then some (s.store k block x) else none
  | .release t typ value =>
      if s.AtRest t then
        match value, B.kind? typ with
        | some ⟨k, block⟩, some k' =>
            if k' = k then
              some ((s.store k block (B.reset k (s.content k block))).goto t (.releasing k block))
            else none
        | _, _ => some s
      else none

end Sys

def lts : Lts (Sys τ κ T) (Label τ κ T) where
  init s := s.boot = .fresh ∧ (∀ k, s.next k = 0) ∧ (∀ k, s.pool k = .empty) ∧ ∀ t, s.pc t = .idle
  step s a s' := s.step B a = some s'

/-- What the manager relies on its callers for: a thread writes to blocks
that it required, keeps their buffers, and releases such blocks only. -/
def Honest (s : Sys τ κ T) : Label τ κ T → Prop
  | .write t k block x => block ∈ (s.pool k).held t ∧ B.Shaped k x
  | .release t _ value => ∀ k block, value = some ⟨k, block⟩ → block ∈ (s.pool k).held t
  | _ => True

end Step

/-! ## What a step does -/

section Moves

variable {τ κ : Type} [DecidableEq τ] [DecidableEq κ] {T : κ → Type} {B : Blocks κ T}

inductive Moved (B : Blocks κ T) (s : Sys τ κ T) : Sys τ κ T → Prop where
  | stays : Moved B s s
  | init {t : τ} {n : Nat} : s.boot = .fresh → s.pc t = .idle → Moved B s (s.start B t n)
  | done {t : τ} {size : Nat} : s.boot = .filling t size [] →
      Moved B s { s with boot := .done size }
  | fill {t : τ} {size : Nat} {k : κ} {todo : List κ} {mem : Nat → UInt8} :
      s.boot = .filling t size (k :: todo) →
      Moved B s { s.allocate B t k mem with boot := .filled t size k (s.next k) todo }
  | fileNew {t : τ} {size : Nat} {k : κ} {block : Nat} {todo : List κ} :
      s.boot = .filled t size k block todo →
      Moved B s { s.putBack t k block with boot := .filling t size todo }
  | file {t : τ} {k : κ} {block : Nat} : s.pc t = .releasing k block →
      Moved B s ((s.putBack t k block).goto t .idle)
  | require {t : τ} {k : κ} {block : Nat} : block ∈ (s.pool k).shelf →
      Moved B s (s.onPool k ((s.pool k).take t block))
  | write {t : τ} {k : κ} {block : Nat} {x : T k} : s.AtRest t → block ∈ (s.pool k).held t →
      B.Shaped k x → Moved B s (s.store k block x)
  | reset {t : τ} {k : κ} {block : Nat} : s.AtRest t → block ∈ (s.pool k).held t →
      Moved B s ((s.store k block (B.reset k (s.content k block))).goto t (.releasing k block))

theorem moved_of_step {s s' : Sys τ κ T} {a : Label τ κ T} (h : s.step B a = some s')
    (ha : Honest B s a) : Moved B s s' := by
  cases a with
  | init t n =>
    simp only [Sys.step, Option.ite_none_right_eq_some] at h
    obtain ⟨hrest, h⟩ := h
    split at h
    · rename_i hboot
      cases h
      exact .init hboot hrest.1
    · cases h
      exact .stays
  | fill t mem =>
    simp only [Sys.step] at h
    split at h
    · rename_i hboot
      simp only [Option.ite_none_right_eq_some, Option.some.injEq] at h
      obtain ⟨rfl, rfl⟩ := h
      exact .done hboot
    · rename_i hboot
      simp only [Option.ite_none_right_eq_some, Option.some.injEq] at h
      obtain ⟨rfl, rfl⟩ := h
      exact .fill hboot
    · cases h
  | file t =>
    simp only [Sys.step] at h
    split at h
    · rename_i hboot hpc
      simp only [Option.ite_none_right_eq_some, Option.some.injEq] at h
      obtain ⟨rfl, rfl⟩ := h
      exact .fileNew hboot
    · rename_i hpc
      cases h
      exact .file hpc
    · cases h
  | require t typ ret =>
    simp only [Sys.step, Option.ite_none_right_eq_some] at h
    obtain ⟨-, h⟩ := h
    split at h
    · simp only [Option.ite_none_right_eq_some, Option.some.injEq] at h
      obtain ⟨hblock, rfl⟩ := h
      exact .require hblock
    · cases h
      exact .stays
    · cases h
  | write t k block x =>
    simp only [Sys.step, Option.ite_none_right_eq_some, Option.some.injEq] at h
    obtain ⟨hrest, rfl⟩ := h
    exact .write hrest ha.1 ha.2
  | release t typ value =>
    simp only [Sys.step, Option.ite_none_right_eq_some] at h
    obtain ⟨hrest, h⟩ := h
    split at h
    · simp only [Option.ite_none_right_eq_some, Option.some.injEq] at h
      obtain ⟨-, rfl⟩ := h
      exact .reset hrest (ha _ _ rfl)
    · cases h
      exact .stays

end Moves

/-! ## Blocks are where they should be, and clean -/

section Content

variable {τ κ : Type} [DecidableEq κ] {T : κ → Type} {B : Blocks κ T}
  {s : Sys τ κ T} {k k' : κ} {b b' : Nat} {x : T k}

theorem content_store : (s.store k b x).content k b = x := by
  simp [Sys.store]

theorem content_store_of_ne (h : k' = k → b' ≠ b) :
    (s.store k b x).content k' b' = s.content k' b' := by
  by_cases hk : k' = k
  · subst hk
    simp [Sys.store, h rfl]
  · simp [Sys.store, hk]

/-- The block is as `_init` left it, or as it leaves zeroed memory: nothing
that a user of it wrote is there. -/
def Sys.Clean (B : Blocks κ T) (s : Sys τ κ T) (k : κ) (b : Nat) : Prop :=
  s.content k b = B.init k (s.memory k b) ∨ s.content k b = B.init k fun _ => 0

theorem Sys.Clean.of_ne (h : s.Clean B k' b') (hne : k' = k → b' ≠ b) :
    (s.store k b x).Clean B k' b' := by
  unfold Sys.Clean
  rwa [content_store_of_ne hne]

variable [DecidableEq τ] {t u : τ} {mem : Nat → UInt8}

theorem next_allocate (k' : κ) :
    (s.allocate B t k mem).next k' = s.next k' + if k' = k then 1 else 0 := by
  by_cases hk : k' = k
  · subst hk
    simp [Sys.allocate]
  · simp [Sys.allocate, hk]

theorem pool_allocate (k' : κ) :
    (s.allocate B t k mem).pool k' =
      if k' = k then (s.pool k).give t (s.next k) else s.pool k' :=
  Function.update_apply ..

theorem clean_allocate : (s.allocate B t k mem).Clean B k (s.next k) := by
  simp [Sys.Clean, Sys.allocate, Sys.store]

theorem content_allocate (hlt : b' < s.next k') :
    (s.allocate B t k mem).content k' b' = s.content k' b' := by
  refine content_store_of_ne (s := s.onPool _ _) ?_
  rintro rfl
  exact Nat.ne_of_lt hlt

theorem Sys.Clean.allocate (h : s.Clean B k' b') (hlt : b' < s.next k') :
    (s.allocate B t k mem).Clean B k' b' := by
  have hmem : (s.allocate B t k mem).memory k' b' = s.memory k' b' := by
    by_cases hk : k' = k
    · subst hk
      simp [Sys.allocate, Nat.ne_of_lt hlt]
    · simp [Sys.allocate, hk]
  unfold Sys.Clean
  rwa [hmem, content_allocate hlt]

omit [DecidableEq τ] in
theorem pool_onPool {l : Leases τ Nat} (k' : κ) :
    (s.onPool k l).pool k' = if k' = k then l else s.pool k' :=
  Function.update_apply ..

end Content

section Invariant

variable {τ κ : Type} [DecidableEq τ] [Fintype τ] [DecidableEq κ] {T : κ → Type}
  {B : Blocks κ T}

/-- The block is in `release` or in `init`, on its way to the pool. -/
def Sys.Filing (s : Sys τ κ T) (t : τ) (k : κ) (b : Nat) : Prop :=
  s.pc t = .releasing k b ∨ ∃ size todo, s.boot = .filled t size k b todo

omit [DecidableEq τ] [Fintype τ] [DecidableEq κ] in
theorem Sys.AtRest.not_filing {s : Sys τ κ T} {t : τ} (h : s.AtRest t) {k : κ} {b : Nat} :
    ¬ s.Filing t k b := by
  rintro (hpc | ⟨size, todo, hboot⟩)
  · simp [h.1] at hpc
  · exact h.2 (by simp [hboot, Boot.thread?])

/-- How many blocks of each type there are, and how many are to come. -/
def Sys.Quota (B : Blocks κ T) (s : Sys τ κ T) : Prop :=
  match s.boot with
  | .fresh => ∀ k, s.next k = 0
  | .filling _ size todo | .filled _ size _ _ todo =>
      size ≤ B.maxPoolSize ∧ ∀ k, s.next k + todo.count k = size * B.kinds.count k
  | .done size => size ≤ B.maxPoolSize ∧ ∀ k, s.next k = size * B.kinds.count k

structure Inv (B : Blocks κ T) (s : Sys τ κ T) : Prop where
  owners : ∀ k b, (s.pool k).owners b = if b < s.next k then 1 else 0
  clean : ∀ k, ∀ b ∈ (s.pool k).shelf, s.Clean B k b
  shaped : ∀ k b, b < s.next k → B.Shaped k (s.content k b)
  filing : ∀ {t k b}, s.Filing t k b → b ∈ (s.pool k).held t ∧ s.Clean B k b
  booting : ∀ {t}, s.boot.thread? = some t → s.pc t = .idle
  quota : s.Quota B

omit [DecidableEq κ] in
theorem poolSize_le (n : Nat) : poolSize B n ≤ B.maxPoolSize := by
  unfold poolSize
  generalize (if n = 0 then 1 else n) = m
  dsimp only
  split <;> omega

namespace Inv

variable {s : Sys τ κ T} {t u : τ} {k k' : κ} {b b' : Nat}

omit [DecidableEq τ] in
theorem exclusive (h : Inv B s) (k : κ) : (s.pool k).Exclusive := fun b => by
  rw [h.owners k b]
  split <;> omega

omit [DecidableEq τ] in
theorem lt_next (h : Inv B s) (hb : b ∈ (s.pool k).shelf ∨ ∃ t, b ∈ (s.pool k).held t) :
    b < s.next k := by
  by_contra hlt
  have hzero := h.owners k b
  rw [if_neg hlt] at hzero
  exact Nat.ne_of_gt (Leases.owners_pos hb) hzero

/-- Another thread's block, or one in the pool, is another block. -/
theorem ne_of_held (h : Inv B s) (hb : b ∈ (s.pool k).held t)
    (hb' : b' ∈ (s.pool k').shelf ∨ ∃ u, u ≠ t ∧ b' ∈ (s.pool k').held u) : k' = k → b' ≠ b := by
  rintro rfl rfl
  rcases hb' with hb' | ⟨u, hne, hb'⟩
  · exact (h.exclusive k').not_held hb' t hb
  · exact hne ((h.exclusive k').holder hb' hb)

theorem store (h : Inv B s) {x : T k} (hrest : s.AtRest t) (hb : b ∈ (s.pool k).held t)
    (hx : B.Shaped k x) : Inv B (s.store k b x) where
  owners := h.owners
  clean k' b' hb' := (h.clean k' b' hb').of_ne (h.ne_of_held hb (.inl hb'))
  shaped k' b' hlt := by
    by_cases hsame : k' = k ∧ b' = b
    · obtain ⟨rfl, rfl⟩ := hsame
      rwa [content_store]
    · rw [content_store_of_ne fun hk hb => hsame ⟨hk, hb⟩]
      exact h.shaped k' b' hlt
  filing {u k' b'} hf := by
    obtain ⟨hheld, hclean⟩ := h.filing (t := u) (k := k') (b := b') hf
    have hne : u ≠ t := by
      rintro rfl
      exact hrest.not_filing hf
    exact ⟨hheld, hclean.of_ne (h.ne_of_held hb (.inr ⟨u, hne, hheld⟩))⟩
  booting := h.booting
  quota := h.quota

theorem reset (h : Inv B s) (hrest : s.AtRest t) (hb : b ∈ (s.pool k).held t) :
    Inv B ((s.store k b (B.reset k (s.content k b))).goto t (.releasing k b)) := by
  have hshaped := h.shaped k b (h.lt_next (.inr ⟨t, hb⟩))
  have hreset := B.reset_eq hshaped
  have hs := h.store hrest hb (hreset ▸ B.shaped_init k fun _ => 0)
  refine ⟨hs.owners, hs.clean, hs.shaped, fun {u k' b'} hf => ?_, fun {u} hu => ?_, hs.quota⟩
  · by_cases hu : u = t
    · subst hu
      rcases hf with hpc | ⟨size, todo, hboot⟩
      · have hpc : Pc.releasing k b = .releasing k' b' := by simpa [Sys.goto] using hpc
        cases hpc
        exact ⟨hb, .inr (content_store.trans hreset)⟩
      · exact absurd (by simp [show s.boot = _ from hboot, Boot.thread?]) hrest.2
    · refine hs.filing (t := u) (hf.imp_left fun hpc => ?_)
      simpa [Sys.goto, hu] using hpc
  · have hne : u ≠ t := by
      rintro rfl
      exact hrest.2 hu
    simpa [Sys.goto, Sys.store, hne] using h.booting hu

theorem require (h : Inv B s) (hb : b ∈ (s.pool k).shelf) :
    Inv B (s.onPool k ((s.pool k).take t b)) where
  owners k' b' := by
    rw [pool_onPool]
    split
    · rename_i hk
      subst hk
      exact (Leases.owners_take hb).trans (h.owners k' b')
    · exact h.owners k' b'
  clean k' b' hb' := by
    refine h.clean k' b' ?_
    rw [pool_onPool] at hb'
    split at hb'
    · rename_i hk
      subst hk
      exact List.mem_of_mem_erase hb'
    · exact hb'
  shaped := h.shaped
  filing {u k' b'} hf := by
    obtain ⟨hheld, hclean⟩ := h.filing (t := u) (k := k') (b := b') hf
    refine ⟨?_, hclean⟩
    rw [pool_onPool]
    split
    · rename_i hk
      subst hk
      rw [Leases.held_take]
      split
      · rename_i hu
        exact List.mem_cons_of_mem _ (hu ▸ hheld)
      · exact hheld
    · exact hheld
  booting := h.booting
  quota := h.quota

/-- Back in the pool, where nothing else is to be filed by the thread. -/
theorem putBack (h : Inv B s) {pc : τ → Pc κ} {boot : Boot τ κ} (hb : b ∈ (s.pool k).held t)
    (hclean : s.Clean B k b)
    (hfiling : ∀ {u k' b'}, ({ s with pc := pc, boot := boot } : Sys τ κ T).Filing u k' b' →
      u ≠ t ∧ s.Filing u k' b')
    (hbooting : ∀ {u}, boot.thread? = some u → pc u = .idle)
    (hquota : ({ s with pc := pc, boot := boot } : Sys τ κ T).Quota B) :
    Inv B { s.putBack t k b with pc := pc, boot := boot } where
  owners k' b' := by
    rw [show ({ s.putBack t k b with pc := pc, boot := boot } : Sys τ κ T).pool k' = _ from
      pool_onPool k']
    split
    · rename_i hk
      subst hk
      exact (Leases.owners_put hb).trans (h.owners k' b')
    · exact h.owners k' b'
  clean k' b' hb' := by
    rw [show ({ s.putBack t k b with pc := pc, boot := boot } : Sys τ κ T).pool k' = _ from
      pool_onPool k'] at hb'
    split at hb'
    · rename_i hk
      subst hk
      rcases List.mem_append.mp hb' with hb' | hb'
      · exact h.clean k' b' hb'
      · obtain rfl := List.mem_singleton.mp hb'
        exact hclean
    · exact h.clean k' b' hb'
  shaped := h.shaped
  filing {u k' b'} hf := by
    obtain ⟨hne, hf⟩ := hfiling hf
    obtain ⟨hheld, hclean⟩ := h.filing hf
    refine ⟨?_, hclean⟩
    rw [show ({ s.putBack t k b with pc := pc, boot := boot } : Sys τ κ T).pool k' = _ from
      pool_onPool k']
    split
    · rename_i hk
      subst hk
      rwa [Leases.held_put, if_neg hne]
    · exact hheld
  booting := hbooting
  quota := hquota

theorem allocate (h : Inv B s) {mem : Nat → UInt8} {size : Nat} {todo : List κ}
    (hboot : s.boot = .filling t size (k :: todo)) :
    Inv B { s.allocate B t k mem with boot := .filled t size k (s.next k) todo } where
  owners k' b' := by
    have hown := h.owners k' b'
    simp only [pool_allocate, next_allocate]
    by_cases hk : k' = k
    · subst hk
      rw [if_pos rfl, if_pos rfl, Leases.owners_give, hown]
      obtain hlt | rfl | hgt := Nat.lt_trichotomy b' (s.next k')
      · simp [hlt, Nat.lt_succ_of_lt hlt, Nat.ne_of_gt hlt]
      · simp
      · simp [Nat.not_lt_of_gt hgt, Nat.ne_of_lt hgt, Nat.not_lt.mpr (Nat.succ_le_of_lt hgt)]
    · rw [if_neg hk, if_neg hk, Nat.add_zero, hown]
  clean k' b' hb' := by
    have hshelf : b' ∈ (s.pool k').shelf := by
      rw [show ({ s.allocate B t k mem with boot := _ } : Sys τ κ T).pool k' = _ from
        pool_allocate k'] at hb'
      split at hb'
      · rename_i hk
        subst hk
        exact hb'
      · exact hb'
    exact (h.clean k' b' hshelf).allocate (h.lt_next (.inl hshelf))
  shaped k' b' hlt := by
    by_cases hnew : k' = k ∧ b' = s.next k
    · obtain ⟨rfl, rfl⟩ := hnew
      have hclean : (s.allocate B t k' mem).Clean B k' (s.next k') := clean_allocate
      rcases hclean with hc | hc
      · exact hc ▸ B.shaped_init k' _
      · exact hc ▸ B.shaped_init k' _
    · have hold : b' < s.next k' := by
        have hlt : b' < (s.allocate B t k mem).next k' := hlt
        rw [next_allocate] at hlt
        split at hlt
        · rename_i hk
          exact Nat.lt_of_le_of_ne (Nat.le_of_lt_succ hlt) fun hb => hnew ⟨hk, hk ▸ hb⟩
        · exact hlt
      exact (content_allocate hold).symm ▸ h.shaped k' b' hold
  filing {u k' b'} hf := by
    rw [show ({ s.allocate B t k mem with boot := _ } : Sys τ κ T).pool k' = _ from
      pool_allocate k']
    rcases hf with hpc | ⟨size', todo', hboot'⟩
    · obtain ⟨hheld, hclean⟩ := h.filing (.inl hpc)
      refine ⟨?_, hclean.allocate (h.lt_next (.inr ⟨u, hheld⟩))⟩
      split
      · rename_i hk
        subst hk
        rw [Leases.held_give]
        split
        · rename_i hu
          exact List.mem_cons_of_mem _ (hu ▸ hheld)
        · exact hheld
      · exact hheld
    · cases hboot'
      refine ⟨?_, clean_allocate⟩
      rw [if_pos rfl, Leases.held_give, if_pos rfl]
      exact List.mem_cons_self
  booting {u} hu := h.booting (by rw [hboot]; exact hu)
  quota := by
    have hquota := h.quota
    simp only [Sys.Quota, hboot, next_allocate, List.count_cons] at hquota ⊢
    refine ⟨hquota.1, fun k' => ?_⟩
    have hk := hquota.2 k'
    by_cases hkind : k' = k
    · subst hkind
      simp only [beq_self_eq_true, if_true] at hk ⊢
      omega
    · simp only [hkind, Ne.symm hkind, beq_iff_eq, if_false] at hk ⊢
      omega

omit [DecidableEq τ] in
theorem start (h : Inv B s) (hboot : s.boot = .fresh) (hpc : s.pc t = .idle) (n : Nat) :
    Inv B (s.start B t n) := by
  refine ⟨h.owners, h.clean, h.shaped, fun hf => ?_, fun {u} hu => ?_, ?_⟩
  · rcases hf with hpc | ⟨_, _, hnew⟩
    · exact h.filing (.inl hpc)
    · cases hnew
  · obtain rfl : t = u := by simpa [Boot.thread?, Sys.start] using hu
    exact hpc
  · have hquota := h.quota
    simp only [Sys.Quota, Sys.start, hboot] at hquota ⊢
    exact ⟨poolSize_le n, fun k => by simp [hquota k, List.count_flatten]⟩

omit [DecidableEq τ] in
theorem done (h : Inv B s) {size : Nat} (hboot : s.boot = .filling t size []) :
    Inv B { s with boot := .done size } := by
  refine ⟨h.owners, h.clean, h.shaped, fun hf => ?_, fun hu => ?_, ?_⟩
  · rcases hf with hpc | ⟨_, _, hnew⟩
    · exact h.filing (.inl hpc)
    · cases hnew
  · cases hu
  · have hquota := h.quota
    simp only [Sys.Quota, hboot, List.count_nil, Nat.add_zero] at hquota ⊢
    exact hquota

theorem fileNew (h : Inv B s) {size : Nat} {todo : List κ}
    (hboot : s.boot = .filled t size k b todo) :
    Inv B { s.putBack t k b with boot := .filling t size todo } := by
  obtain ⟨hheld, hclean⟩ := h.filing (t := t) (k := k) (b := b) (.inr ⟨size, todo, hboot⟩)
  have hidle := h.booting (t := t) (by simp [hboot, Boot.thread?])
  refine h.putBack hheld hclean (fun {u k' b'} hf => ?_) (fun {u} hu => ?_) ?_
  · rcases hf with hpc | ⟨_, _, hnew⟩
    · refine ⟨?_, .inl hpc⟩
      rintro rfl
      simp [hidle, Sys.putBack, Sys.onPool] at hpc
    · cases hnew
  · obtain rfl : t = u := by simpa [Boot.thread?] using hu
    exact hidle
  · have hquota := h.quota
    simp only [Sys.Quota, hboot] at hquota ⊢
    exact hquota

theorem file (h : Inv B s) (hpc : s.pc t = .releasing k b) :
    Inv B ((s.putBack t k b).goto t .idle) := by
  obtain ⟨hheld, hclean⟩ := h.filing (t := t) (k := k) (b := b) (.inl hpc)
  refine h.putBack hheld hclean (fun {u k' b'} hf => ?_) (fun {u} hu => ?_) h.quota
  · rcases hf with hpc' | hnew
    · by_cases hu : u = t
      · subst hu
        simp at hpc'
      · exact ⟨hu, .inl (by simpa [hu, Sys.putBack, Sys.onPool] using hpc')⟩
    · refine ⟨?_, .inr hnew⟩
      rintro rfl
      obtain ⟨_, _, hnew⟩ := hnew
      have hidle := h.booting (t := u) (by simp [show s.boot = _ from hnew, Boot.thread?])
      simp [hpc] at hidle
  · by_cases hut : u = t
    · simp [hut]
    · simpa [hut, Sys.putBack, Sys.onPool] using h.booting hu

theorem moved (h : Inv B s) {s' : Sys τ κ T} (hm : Moved B s s') : Inv B s' := by
  cases hm with
  | stays => exact h
  | init hboot hpc => exact h.start hboot hpc _
  | done hboot => exact h.done hboot
  | fill hboot => exact h.allocate hboot
  | fileNew hboot => exact h.fileNew hboot
  | file hpc => exact h.file hpc
  | require hb => exact h.require hb
  | write hrest hb hx => exact h.store hrest hb hx
  | reset hrest hb => exact h.reset hrest hb

end Inv

theorem inv_run {tr : List (Label τ κ T)} {s : Sys τ κ T}
    (h : ((lts B).guarded (Honest B)).Run tr s) : Inv B s := by
  refine Lts.Run.guarded_invariant (M := lts B) (P := Honest B) ?_ ?_ h
  · rintro s ⟨hboot, hnext, hpool, hpc⟩
    refine ⟨fun k b => ?_, fun k b hb => ?_, fun k b hlt => ?_, fun {t k b} hf => ?_,
      fun _ => hpc _, ?_⟩
    · simp [hpool, hnext]
    · simp [hpool, Leases.empty] at hb
    · simp [hnext] at hlt
    · rcases hf with hf | ⟨_, _, hf⟩
      · simp [hpc] at hf
      · simp [hboot] at hf
    · simpa [Sys.Quota, hboot] using hnext
  · exact fun s a s' hi hs ha => hi.moved (moved_of_step hs ha)

omit [DecidableEq τ] [Fintype τ] in
/-- Blocks of a type are never more than the manager allows. -/
theorem Sys.Quota.le {s : Sys τ κ T} (h : s.Quota B) (k : κ) :
    s.next k ≤ B.maxPoolSize * B.kinds.count k := by
  unfold Sys.Quota at h
  split at h
  · simp [h k]
  · exact Nat.le_trans (h.2 k ▸ Nat.le_add_right _ _) (Nat.mul_le_mul_right _ h.1)
  · exact Nat.le_trans (h.2 k ▸ Nat.le_add_right _ _) (Nat.mul_le_mul_right _ h.1)
  · exact h.2 k ▸ Nat.mul_le_mul_right _ h.1

/-- **A block that is handed out is its taker's alone, and blank**: after
any steps of any threads that keep to the blocks they required, no type has
more blocks than allowed, every block is in its pool or with one thread,
and what `require` hands out was with no thread and is as `_init` leaves
it, on the memory it was allocated in or on zeroed memory: nothing an
earlier holder wrote is in it. -/
theorem blocks_blank {tr : List (Label τ κ T)} {s : Sys τ κ T}
    (h : ((lts B).guarded (Honest B)).Run tr s) :
    (∀ k, s.next k ≤ B.maxPoolSize * B.kinds.count k) ∧
    (∀ k b, b < s.next k ↔ b ∈ (s.pool k).shelf ∨ ∃ t, b ∈ (s.pool k).held t) ∧
    (∀ k t, ∀ b ∈ (s.pool k).held t,
      b ∉ (s.pool k).shelf ∧ ∀ u, b ∈ (s.pool k).held u → u = t) ∧
    ∀ t typ b s', s.step B (.require t typ (some b)) = some s' → ∃ k, B.kind? typ = some k ∧
      b ∈ (s'.pool k).held t ∧ (∀ u, b ∉ (s.pool k).held u) ∧
      (s'.content k b = B.init k (s'.memory k b) ∨ s'.content k b = B.init k fun _ => 0) := by
  have hi := inv_run h
  refine ⟨hi.quota.le, fun k b => ⟨fun hlt => ?_, hi.lt_next⟩,
    fun k t b hb => ⟨fun hshelf => (hi.exclusive k).not_held hshelf t hb,
      fun u hu => (hi.exclusive k).holder hu hb⟩, fun t typ b s' hs => ?_⟩
  · refine Leases.somewhere ?_
    rw [hi.owners k b, if_pos hlt]
    exact Nat.one_pos
  · simp only [Sys.step, Option.ite_none_right_eq_some] at hs
    obtain ⟨-, hs⟩ := hs
    split at hs
    · rename_i k b' hkind hret
      cases hret
      simp only [Option.ite_none_right_eq_some, Option.some.injEq] at hs
      obtain ⟨hshelf, rfl⟩ := hs
      refine ⟨k, hkind, ?_, (hi.exclusive k).not_held hshelf, hi.clean k b hshelf⟩
      rw [pool_onPool, if_pos rfl, Leases.held_take, if_pos rfl]
      exact List.mem_cons_self
    · rename_i hret
      cases hret
    · cases hs

end Invariant

end HighJump.Apps.DataMgr
