/-
HighJump.Db.ConnPoolTheorems — the pool's books balance in every state of
every interleaving.

`Trans` says once what a step can do, with the guards each transition
passed; `Sys.step_trans` reads it off the step function. Every invariant
after that is one case analysis on `Trans`.

The accounting invariant (`Inv.count`) equates `_total_cnt` with the idle
connections, the slots of the acquires in progress and the live handles.
It needs the capacity bound to keep the counter from wrapping and the
boot phase to bound what `_init` pushes, so all of these are fields of
one structure. Ownership is counted too: `Sys.owners c` is the number of
places that hold `c`, every transition moves a connection from one place
to another, and the factory's freshness is the only source of a new one.

What close guarantees is about runs, not states: `drained` says of a
trace that some close has emptied the queue, and the last section shows
that an acquire begun after that point never builds a handle.
-/
import HighJump.Db.ConnPool
import HighJump.Lib.Threads
import Mathlib.Algebra.Order.BigOperators.Group.Finset

namespace HighJump.Db.ConnPool

open HighJump.Lib

set_option linter.unusedSectionVars false

variable {τ C : Type}

/-! ## What a step can do -/

theorem afterDrop_spec (timeoutMs elapsedMs : Int) :
    (afterDrop timeoutMs elapsedMs : Pc C).slots = 0 ∧
      (afterDrop timeoutMs elapsedMs : Pc C).conn? = none ∧
      (afterDrop timeoutMs elapsedMs : Pc C) ≠ .closing := by
  unfold afterDrop
  split
  · split <;> simp [Pc.slots, Pc.conn?]
  · simp [Pc.slots, Pc.conn?]

/-- The first section either refuses without touching the pool, pops an
idle connection of an open pool, or counts a slot below the capacity. -/
theorem enter_cases {p : Pool C} {remainingMs : Int} {r : Pool C × Entry C}
    (h : p.enter remainingMs = some r) :
    r = (p, .null) ∨
    (∃ c rest, p.closed = false ∧ p.queue = c :: rest ∧
      r = ({ p with queue := rest }, .popped c)) ∨
    (p.totalCnt < p.capa ∧ r = ({ p with totalCnt := p.totalCnt + 1 }, .createNew)) := by
  have htake : p.take = (p, .null) ∨
      (∃ c rest, p.closed = false ∧ p.queue = c :: rest ∧
        p.take = ({ p with queue := rest }, .popped c)) ∨
      (p.totalCnt < p.capa ∧
        p.take = ({ p with totalCnt := p.totalCnt + 1 }, .createNew)) := by
    unfold Pool.take
    split
    · exact .inl rfl
    · rename_i hc
      split
      · rename_i c rest hq
        exact .inr (.inl ⟨c, rest, by simpa using hc, hq, rfl⟩)
      · split
        · rename_i hlt
          exact .inr (.inr ⟨hlt, rfl⟩)
        · exact .inl rfl
  unfold Pool.enter at h
  split at h
  · split at h
    · rw [← Option.some.inj h]; exact htake
    · cases h
  · split at h
    · split at h
      · rw [← Option.some.inj h]; exact htake
      · exact .inl (Option.some.inj h).symm
    · split at h
      · exact .inl (Option.some.inj h).symm
      · rw [← Option.some.inj h]; exact htake

variable [DecidableEq τ] [Fintype τ] [DecidableEq C]

/-- The transitions of the pool, by what they do to the books. -/
inductive Trans (s : Sys τ C) : Sys τ C → Prop where
  | initMake {i : UInt64} {c : C} : s.boot = .making i → s.owners c = 0 →
      Trans s { s with boot := .pushing i c }
  | initSkip {i : UInt64} : s.boot = .making i →
      Trans s { s with boot := bootAt s.pool (i + 1) }
  | initPush {i : UInt64} {c : C} : s.boot = .pushing i c →
      Trans s { s with pool := s.pool.initPush c, boot := bootAt s.pool (i + 1) }
  | release {c : C} : s.boot = .done → c ∈ s.handles →
      Trans s { s with pool := s.pool.release c, handles := s.handles.erase c }
  | closeLost : s.boot = .done → Trans s s
  | closeWon {t : τ} : s.boot = .done → s.pc t = .idle →
      Trans s (s.goto { s.pool with closed := true } t .closing)
  | drain {t : τ} : s.boot = .done → s.pc t = .closing →
      Trans s (s.goto s.pool.drain t .idle)
  /-- A step inside a call that touches neither the pool nor what the
  call holds. Only an open pool lets a call reach `yielding`. -/
  | move {t : τ} {pc : Pc C} : s.boot = .done → s.pc t ≠ .closing → pc ≠ .closing →
      pc.slots = (s.pc t).slots → pc.conn? = (s.pc t).conn? →
      ((∃ timeoutMs c, pc = .acquiring timeoutMs (.yielding c)) → s.pool.closed = false) →
      Trans s (s.goto s.pool t pc)
  | popped {t : τ} {timeoutMs remainingMs : Int} {c : C} {rest : List C} : s.boot = .done →
      s.pc t = .acquiring timeoutMs (.waiting remainingMs) → s.pool.closed = false →
      s.pool.queue = c :: rest →
      Trans s (s.goto { s.pool with queue := rest } t (.acquiring timeoutMs (.checking c)))
  | counted {t : τ} {timeoutMs remainingMs : Int} : s.boot = .done →
      s.pc t = .acquiring timeoutMs (.waiting remainingMs) → s.pool.totalCnt < s.pool.capa →
      Trans s (s.goto { s.pool with totalCnt := s.pool.totalCnt + 1 } t
        (.acquiring timeoutMs .making))
  | made {t : τ} {timeoutMs : Int} {c : C} : s.boot = .done →
      s.pc t = .acquiring timeoutMs .making → s.owners c = 0 →
      Trans s (s.goto s.pool t (.acquiring timeoutMs (.checking c)))
  | gaveBack {t : τ} {pc : Pc C} : s.boot = .done → (s.pc t).slots = 1 →
      pc.slots = 0 → pc.conn? = none → pc ≠ .closing →
      Trans s (s.goto s.pool.dropSlot t pc)
  | refused {t : τ} : s.boot = .done → (s.pc t).slots = 1 →
      Trans s (s.goto s.pool.dropSlotGuarded t .idle)
  | yielded {t : τ} {timeoutMs : Int} {c : C} : s.boot = .done →
      s.pc t = .acquiring timeoutMs (.yielding c) →
      Trans s { s.goto s.pool t .idle with handles := c :: s.handles }

theorem stepBoot_trans {s s' : Sys τ C} {a : Action τ C} (h : s.stepBoot a = some s') :
    Trans s s' := by
  cases a with
  | initMake r =>
    simp only [Sys.stepBoot] at h
    split at h
    · rename_i i hb
      split at h
      · rename_i hfresh
        split at h
        · rename_i c hc
          simp only [Option.some.injEq] at h
          subst h
          exact .initMake hb (by simpa [Sys.freshResult, hc] using hfresh)
        · simp only [Option.some.injEq] at h
          subst h
          exact .initSkip hb
      · cases h
    · cases h
  | initPush =>
    simp only [Sys.stepBoot] at h
    split at h
    · rename_i i c hb
      simp only [Option.some.injEq] at h
      subst h
      exact .initPush hb
    · cases h
  | _ => simp [Sys.stepBoot] at h

/-- The last section lets the connection through on an open pool, and
gives up the slot on a closed one. -/
theorem confirm_cases (p : Pool C) : (p.closed = false ∧ p.confirm = (p, true)) ∨
    p.confirm = (p.dropSlotGuarded, false) := by
  unfold Pool.confirm
  split
  · exact .inr rfl
  · rename_i hopen
    exact .inl ⟨by simpa using hopen, rfl⟩

section

variable {s s' : Sys τ C} {t t' : τ} {timeoutMs : Int} {stage : Stage C} {pc pc' : Pc C}

/-- A move of a call that holds the same before and after. -/
theorem move_of (hb : s.boot = .done) (hpc : s.pc t = pc) (hclosing : pc ≠ .closing)
    (hclosing' : pc' ≠ .closing) (hslots : pc'.slots = pc.slots) (hconn : pc'.conn? = pc.conn?)
    (hyields : ∀ timeoutMs c, pc' ≠ .acquiring timeoutMs (.yielding c)) :
    Trans s (s.goto s.pool t pc') := by
  subst hpc
  exact .move hb hclosing hclosing' hslots hconn fun ⟨timeoutMs, c, heq⟩ =>
    absurd heq (hyields timeoutMs c)

theorem enter_trans (hb : s.boot = .done) (hpc : s.pc t = .acquiring timeoutMs stage)
    (h : s.stepAcquire t timeoutMs stage (.enter t') = some s') : Trans s s' := by
  unfold Sys.stepAcquire at h
  dsimp only at h
  split at h
  · obtain ⟨r, hr, rfl⟩ := Option.map_eq_some_iff.mp h
    rcases enter_cases hr with rfl | ⟨c, rest, hcl, hq, rfl⟩ | ⟨hlt, rfl⟩
    · exact move_of hb hpc nofun nofun rfl rfl nofun
    · exact .popped hb hpc hcl hq
    · exact .counted hb hpc hlt
  · cases h

theorem make_trans {r : MakeResult C} (hb : s.boot = .done)
    (hpc : s.pc t = .acquiring timeoutMs stage)
    (h : s.stepAcquire t timeoutMs stage (.make t' r) = some s') : Trans s s' := by
  unfold Sys.stepAcquire at h
  dsimp only at h
  split at h
  · split at h
    · rename_i hfresh
      split at h
      · rename_i c hc
        obtain rfl := Option.some.inj h
        exact .made hb hpc (by simpa [Sys.freshResult, hc] using hfresh)
      · obtain rfl := Option.some.inj h
        exact move_of hb hpc nofun nofun rfl rfl nofun
    · cases h
  · cases h

theorem check_trans {r : CheckResult} (hb : s.boot = .done)
    (hpc : s.pc t = .acquiring timeoutMs stage)
    (h : s.stepAcquire t timeoutMs stage (.check t' r) = some s') : Trans s s' := by
  unfold Sys.stepAcquire at h
  dsimp only at h
  split at h
  · split at h
    · obtain rfl := Option.some.inj h
      exact move_of hb hpc nofun nofun rfl rfl nofun
    · obtain rfl := Option.some.inj h
      exact move_of hb hpc nofun nofun rfl rfl nofun
  · cases h

theorem dropSlot_trans {elapsedMs : Int} (hb : s.boot = .done)
    (hpc : s.pc t = .acquiring timeoutMs stage)
    (h : s.stepAcquire t timeoutMs stage (.dropSlot t' elapsedMs) = some s') : Trans s s' := by
  obtain ⟨hslots, hconn, hclosing⟩ := afterDrop_spec (C := C) timeoutMs elapsedMs
  unfold Sys.stepAcquire at h
  dsimp only at h
  split at h
  · obtain rfl := Option.some.inj h
    exact .gaveBack hb (by rw [hpc]; rfl) hslots hconn hclosing
  · obtain rfl := Option.some.inj h
    exact .gaveBack hb (by rw [hpc]; rfl) hslots hconn hclosing
  · cases h

theorem confirm_trans (hb : s.boot = .done) (hpc : s.pc t = .acquiring timeoutMs stage)
    (h : s.stepAcquire t timeoutMs stage (.confirm t') = some s') : Trans s s' := by
  unfold Sys.stepAcquire at h
  dsimp only at h
  split at h
  · rcases confirm_cases s.pool with ⟨hopen, heq⟩ | heq
    · rw [heq] at h
      obtain rfl := Option.some.inj h
      exact .move hb (by rw [hpc]; nofun) nofun (by rw [hpc]; rfl) (by rw [hpc]; rfl) fun _ => hopen
    · rw [heq] at h
      obtain rfl := Option.some.inj h
      exact .refused hb (by rw [hpc]; rfl)
  · cases h

theorem yield_trans (hb : s.boot = .done) (hpc : s.pc t = .acquiring timeoutMs stage)
    (h : s.stepAcquire t timeoutMs stage (.yield t') = some s') : Trans s s' := by
  unfold Sys.stepAcquire at h
  dsimp only at h
  split at h
  · obtain rfl := Option.some.inj h
    exact .yielded hb hpc
  · cases h

theorem stepAcquire_trans {a : Action τ C} (hb : s.boot = .done)
    (hpc : s.pc t = .acquiring timeoutMs stage)
    (h : s.stepAcquire t timeoutMs stage a = some s') : Trans s s' := by
  cases a with
  | enter t' => exact enter_trans hb hpc h
  | make t' r => exact make_trans hb hpc h
  | check t' r => exact check_trans hb hpc h
  | dropSlot t' elapsedMs => exact dropSlot_trans hb hpc h
  | confirm t' => exact confirm_trans hb hpc h
  | yield t' => exact yield_trans hb hpc h
  | _ => simp [Sys.stepAcquire] at h

end

theorem stepThread_trans {s s' : Sys τ C} {t : τ} {a : Action τ C} (hb : s.boot = .done)
    (h : s.stepThread t a = some s') : Trans s s' := by
  simp only [Sys.stepThread] at h
  split at h
  · rename_i hpc
    split at h
    · obtain rfl := Option.some.inj h
      exact move_of hb hpc nofun nofun rfl rfl nofun
    · split at h
      · simp only [Option.some.injEq] at h
        subst h
        exact .closeLost hb
      · simp only [Option.some.injEq] at h
        subst h
        exact .closeWon hb hpc
    · cases h
  · rename_i hpc
    exact stepAcquire_trans hb hpc h
  · rename_i hpc
    split at h
    · simp only [Option.some.injEq] at h
      subst h
      exact .drain hb hpc
    · cases h

/-- Every step is one of the transitions. -/
theorem Sys.step_trans {s s' : Sys τ C} {a : Action τ C} (h : s.step a = some s') :
    Trans s s' := by
  simp only [Sys.step] at h
  split at h
  · rename_i hb
    split at h
    · split at h
      · rename_i hmem
        simp only [Option.some.injEq] at h
        subst h
        exact .release hb hmem
      · cases h
    · simp only [Option.bind_eq_some_iff] at h
      obtain ⟨t, -, h⟩ := h
      exact stepThread_trans hb h
  · exact stepBoot_trans h

/-! ## The books -/

/-- The slots held by the acquires in progress. -/
def Sys.slots (s : Sys τ C) : Nat := ∑ t, (s.pc t).slots

/-- What `_init` has pushed so far, against its loop index. -/
def BootOk (s : Sys τ C) : Prop :=
  match s.boot with
  | .making i | .pushing i _ =>
      s.pool.queue.length ≤ i.toNat ∧ i < s.pool.minSize ∧ s.handles = [] ∧ ∀ t, s.pc t = .idle
  | .done => True

@[simp] theorem Pc.slots_idle : (Pc.idle : Pc C).slots = 0 := rfl

/-- The accounting invariant. -/
structure Inv (s : Sys τ C) : Prop where
  count : s.pool.totalCnt.toNat = s.pool.queue.length + s.slots + s.handles.length
  cap : s.pool.totalCnt ≤ s.pool.capa
  idle : s.pool.queue.length ≤ s.pool.minSize.toNat
  owners : ∀ c, s.owners c ≤ 1
  boot : BootOk s
  closing : ∀ t, s.pc t = .closing → s.pool.closed = true

theorem slots_goto (s : Sys τ C) (p : Pool C) (t : τ) (pc : Pc C) :
    (s.goto p t pc).slots + (s.pc t).slots = s.slots + pc.slots :=
  sum_weight_update Pc.slots s.pc t pc

theorem owners_goto (s : Sys τ C) (p : Pool C) (t : τ) (pc : Pc C) (c : C) :
    (s.goto p t pc).owners c + held (s.pc t).conn? c + s.pool.queue.count c
      = s.owners c + held pc.conn? c + p.queue.count c := by
  have h := sum_weight_update (fun pc => held pc.conn? c) s.pc t pc
  simp only [Sys.owners, Sys.goto] at h ⊢
  omega

theorem slots_le (s : Sys τ C) (t : τ) : (s.pc t).slots ≤ s.slots :=
  Finset.single_le_sum (f := fun t => (s.pc t).slots) (fun _ _ => Nat.zero_le _)
    (Finset.mem_univ t)

theorem toNat_pred {x : UInt64} (h : 0 < x.toNat) : (x - 1).toNat = x.toNat - 1 := by
  rw [UInt64.toNat_sub_of_le]
  · rfl
  · exact UInt64.le_iff_toNat_le.mpr h

theorem toNat_succ {x y : UInt64} (h : x < y) : (x + 1).toNat = x.toNat + 1 := by
  have h1 := UInt64.lt_iff_toNat_lt.mp h
  have h2 := y.toNat_lt
  rw [UInt64.toNat_add]
  simp only [UInt64.reduceToNat]
  omega

theorem Inv.idle_toNat {s : Sys τ C} (h : Inv s) :
    s.pool.idle.toNat = s.pool.queue.length := by
  have h1 := h.idle
  have h2 := s.pool.minSize.toNat_lt
  simp only [Pool.idle, UInt64.toNat_ofNat']
  omega

/-- A slot that is held is counted. -/
theorem Inv.totalCnt_pos {s : Sys τ C} (h : Inv s) {t : τ} (ht : (s.pc t).slots = 1) :
    0 < s.pool.totalCnt.toNat := by
  have := slots_le s t
  have := h.count
  omega

theorem dropSlotGuarded_eq {p : Pool C} (h : 0 < p.totalCnt.toNat) :
    p.dropSlotGuarded = p.dropSlot := by
  unfold Pool.dropSlotGuarded
  have hpos : p.totalCnt > 0 := UInt64.lt_iff_toNat_lt.mpr (by simpa using h)
  rw [if_pos hpos]

/-! ## One step keeps the books -/

theorem bootOk_done {s : Sys τ C} (h : s.boot = .done) : BootOk s := by
  simp [BootOk, h]

/-- A thread moves and the pool changes under it: the books stay balanced
if the change of the counter is the change of the slot plus that of the
queue. -/
theorem Inv.goto {s : Sys τ C} (h : Inv s) {p : Pool C} {t : τ} {pc : Pc C}
    (hb : s.boot = .done)
    (hcount : p.totalCnt.toNat + (s.pc t).slots + s.pool.queue.length
      = s.pool.totalCnt.toNat + pc.slots + p.queue.length)
    (hcap : p.totalCnt ≤ p.capa) (hidle : p.queue.length ≤ p.minSize.toNat)
    (hown : ∀ c, held pc.conn? c + p.queue.count c
      ≤ held (s.pc t).conn? c + s.pool.queue.count c ∨
      s.owners c + held pc.conn? c + p.queue.count c
        ≤ held (s.pc t).conn? c + s.pool.queue.count c + 1)
    (hclosed : s.pool.closed = true → p.closed = true)
    (hclosing : pc = .closing → p.closed = true) : Inv (s.goto p t pc) where
  count := by
    have h1 := slots_goto s p t pc
    have h2 := h.count
    simp only [Sys.goto] at h1 ⊢
    omega
  cap := hcap
  idle := hidle
  owners := by
    intro c
    have h1 := owners_goto s p t pc c
    have h2 := h.owners c
    rcases hown c with h3 | h3 <;> omega
  boot := bootOk_done hb
  closing := by
    intro t' ht'
    by_cases htt : t' = t
    · subst htt
      exact hclosing (by simpa [Sys.goto] using ht')
    · exact hclosed (h.closing t' (by simpa [Sys.goto, htt] using ht'))

theorem Inv.bootAt {s : Sys τ C} {i : UInt64} (hlen : s.pool.queue.length ≤ i.toNat + 1)
    (hi : i < s.pool.minSize) (hh : s.handles = []) (hpc : ∀ t, s.pc t = .idle)
    (hb : s.boot = bootAt s.pool (i + 1)) : BootOk s := by
  have hsucc := toNat_succ hi
  unfold BootOk
  rw [hb]
  unfold ConnPool.bootAt
  split
  · rename_i j heq
    split at heq
    · rename_i hlt
      cases heq
      exact ⟨by omega, hlt, hh, hpc⟩
    · cases heq
  · rename_i j c heq
    split at heq <;> cases heq
  · trivial

theorem slots_boot {s : Sys τ C} (hpc : ∀ t, s.pc t = .idle) : s.slots = 0 := by
  simp [Sys.slots, hpc, Pc.slots]

theorem held_le_one (o : Option C) (c : C) : held o c ≤ 1 := by
  unfold held; split <;> omega

theorem inv_initPush {s : Sys τ C} (h : Inv s) {i : UInt64} {c : C}
    (hb : s.boot = .pushing i c) :
    Inv { s with pool := s.pool.initPush c, boot := bootAt s.pool (i + 1) } := by
  have hboot := h.boot
  simp only [BootOk, hb] at hboot
  obtain ⟨hlen, hi, hh, hpc⟩ := hboot
  have hcount := h.count
  have hslots := slots_boot hpc
  have hmin := UInt64.le_iff_toNat_le.mp s.pool.minSize_le
  have hilt := UInt64.lt_iff_toNat_lt.mp hi
  have hlt : s.pool.totalCnt < s.pool.capa := by
    rw [UInt64.lt_iff_toNat_lt, hcount, hslots, hh]
    simp only [List.length_nil]
    omega
  have hsucc := toNat_succ hlt
  refine ⟨?_, ?_, ?_, ?_, ?_, ?_⟩
  · simp only [Pool.initPush, List.length_append, List.length_singleton, hsucc, hcount, hh]
    simp only [Sys.slots] at hslots ⊢
    omega
  · rw [UInt64.le_iff_toNat_le]
    simp only [Pool.initPush, hsucc]
    exact UInt64.lt_iff_toNat_lt.mp hlt
  · simp only [Pool.initPush, List.length_append, List.length_singleton]
    omega
  · intro d
    have hown := h.owners d
    have hnone : held (bootAt s.pool (i + 1)).conn? d = 0 := by
      unfold ConnPool.bootAt; split <;> simp [Boot.conn?, held]
    simp only [Sys.owners, hb, Pool.initPush, List.count_append, hnone] at hown ⊢
    have hc : [c].count d = held (Boot.pushing i c).conn? d := by
      by_cases hcd : c = d <;> simp [Boot.conn?, held, hcd]
    omega
  · exact Inv.bootAt (i := i) (by simp [Pool.initPush]; omega) hi hh hpc rfl
  · intro t ht
    simp [hpc t] at ht

/-- Giving a connection back puts it into the queue below the minimum, and
drops the slot otherwise. -/
theorem release_cases {s : Sys τ C} (h : Inv s) (htot : 0 < s.pool.totalCnt.toNat) (c : C) :
    s.pool.release c = { s.pool with queue := s.pool.queue ++ [c] } ∧
        s.pool.queue.length < s.pool.minSize.toNat ∨
      s.pool.release c = s.pool.dropSlot := by
  unfold Pool.release
  split
  · split
    · rename_i hlt
      refine .inl ⟨rfl, ?_⟩
      rw [← h.idle_toNat]
      exact UInt64.lt_iff_toNat_lt.mp hlt
    · exact .inr rfl
  · exact .inr (dropSlotGuarded_eq htot)

/-- A handle that is taken out is counted where it went. -/
theorem count_erase_add {handles : List C} {c : C} (hmem : c ∈ handles) (d : C) :
    (handles.erase c).count d + [c].count d = handles.count d := by
  rw [← List.count_append, ((List.perm_append_singleton c _).trans
    (List.perm_cons_erase hmem).symm).count_eq]

theorem inv_release {s : Sys τ C} (h : Inv s) {c : C} (hb : s.boot = .done)
    (hmem : c ∈ s.handles) :
    Inv { s with pool := s.pool.release c, handles := s.handles.erase c } := by
  have hcount := h.count
  have hpos : 0 < s.handles.length := List.length_pos_of_mem hmem
  have hlen := List.length_erase_of_mem hmem
  have htot : 0 < s.pool.totalCnt.toNat := by omega
  have hpred := toNat_pred htot
  have hcap := UInt64.le_iff_toNat_le.mp h.cap
  rcases release_cases h htot c with ⟨heq, hlt⟩ | heq
  · rw [heq]
    refine ⟨?_, h.cap, ?_, ?_, bootOk_done hb, h.closing⟩
    · simp only [Sys.slots, List.length_append, List.length_singleton] at hcount ⊢
      omega
    · simp only [List.length_append, List.length_singleton]
      omega
    · intro d
      have hown := h.owners d
      have hd := count_erase_add hmem d
      simp only [Sys.owners, List.count_append] at hown ⊢
      omega
  · rw [heq]
    refine ⟨?_, ?_, h.idle, ?_, bootOk_done hb, h.closing⟩
    · simp only [Pool.dropSlot, hpred, Sys.slots] at hcount ⊢
      omega
    · rw [UInt64.le_iff_toNat_le]
      simp only [Pool.dropSlot, hpred]
      omega
    · intro d
      have hown := h.owners d
      have hd := count_erase_add hmem d
      simp only [Sys.owners, Pool.dropSlot] at hown ⊢
      omega

theorem inv_yielded {s : Sys τ C} (h : Inv s) {t : τ} {timeoutMs : Int} {c : C}
    (hb : s.boot = .done) (hpc : s.pc t = .acquiring timeoutMs (.yielding c)) :
    Inv { s.goto s.pool t .idle with handles := c :: s.handles } := by
  have hslot : (s.pc t).slots = 1 := by simp [hpc, Pc.slots]
  have hmoved := slots_goto s s.pool t .idle
  have hcount := h.count
  refine ⟨?_, h.cap, h.idle, ?_, bootOk_done hb, ?_⟩
  · rw [hslot, Pc.slots_idle] at hmoved
    simp only [Sys.goto, Sys.slots, List.length_cons] at hmoved hcount ⊢
    omega
  · intro d
    have hown := h.owners d
    have hgoto := owners_goto s s.pool t .idle d
    have hhold : held (s.pc t).conn? d = [c].count d := by
      by_cases hcd : c = d <;> simp [hpc, Pc.conn?, held, hcd]
    have hidle : held (Pc.idle : Pc C).conn? d = 0 := by simp [held, Pc.conn?]
    have hcons : (c :: s.handles).count d = s.handles.count d + [c].count d := by
      rw [List.count_cons, List.count_singleton]
    simp only [Sys.owners, Sys.goto] at hown hgoto ⊢
    rw [hcons]
    omega
  · intro t' ht'
    by_cases htt : t' = t
    · subst htt
      simp [Sys.goto] at ht'
    · exact h.closing t' (by simpa [Sys.goto, htt] using ht')

/-- A thread gives back the slot it counts for. -/
theorem Inv.dropSlot {s : Sys τ C} (h : Inv s) {t : τ} {pc : Pc C} (hb : s.boot = .done)
    (hslot : (s.pc t).slots = 1) (hslot' : pc.slots = 0) (hconn : pc.conn? = none)
    (hne : pc ≠ .closing) : Inv (s.goto s.pool.dropSlot t pc) := by
  have hpos := h.totalCnt_pos hslot
  have hpred := toNat_pred hpos
  have hcap := UInt64.le_iff_toNat_le.mp h.cap
  refine h.goto hb ?_ ?_ h.idle ?_ id (fun hcl => absurd hcl hne)
  · simp only [Pool.dropSlot, hpred]
    omega
  · rw [UInt64.le_iff_toNat_le]
    simp only [Pool.dropSlot, hpred]
    omega
  · intro d
    refine .inl ?_
    have hnone : held (none : Option C) d = 0 := by simp [held]
    rw [hconn]
    simp only [Pool.dropSlot]
    omega

/-- The connection a boot step is about to push has no owner yet. -/
theorem inv_initMake {s : Sys τ C} (h : Inv s) {i : UInt64} {c : C} (hb : s.boot = .making i)
    (hfresh : s.owners c = 0) : Inv { s with boot := .pushing i c } := by
  have hboot := h.boot
  simp only [BootOk, hb] at hboot
  refine ⟨h.count, h.cap, h.idle, ?_, by simpa only [BootOk] using hboot, h.closing⟩
  intro d
  have hown := h.owners d
  by_cases hcd : c = d
  · subst hcd
    simp only [Sys.owners, hb, Boot.conn?] at hfresh ⊢
    have := held_le_one (some c) c
    omega
  · simp only [Sys.owners, hb, Boot.conn?] at hown ⊢
    have : held (some c) d = 0 := by simp [held, hcd]
    omega

theorem inv_initSkip {s : Sys τ C} (h : Inv s) {i : UInt64} (hb : s.boot = .making i) :
    Inv { s with boot := bootAt s.pool (i + 1) } := by
  have hboot := h.boot
  simp only [BootOk, hb] at hboot
  obtain ⟨hlen, hi, hh, hpc⟩ := hboot
  refine ⟨h.count, h.cap, h.idle, ?_, ?_, h.closing⟩
  · intro d
    have hown := h.owners d
    have hnone : held (bootAt s.pool (i + 1)).conn? d = 0 := by
      unfold ConnPool.bootAt; split <;> simp [Boot.conn?, held]
    simp only [Sys.owners, hnone] at hown ⊢
    omega
  · exact Inv.bootAt (i := i) (by simp only; omega) hi hh hpc rfl

theorem inv_drain {s : Sys τ C} (h : Inv s) {t : τ} (hb : s.boot = .done)
    (hpc : s.pc t = .closing) : Inv (s.goto s.pool.drain t .idle) := by
  have hidle := h.idle_toNat
  have hcount := h.count
  have hle : s.pool.idle ≤ s.pool.totalCnt := by
    rw [UInt64.le_iff_toNat_le]; omega
  have hsub := UInt64.toNat_sub_of_le _ _ hle
  have hcap := UInt64.le_iff_toNat_le.mp h.cap
  refine h.goto hb ?_ ?_ (by simp [Pool.drain]) ?_ id (by simp)
  · simp only [hpc, Pc.slots, Pool.drain, hsub, List.length_nil]
    omega
  · rw [UInt64.le_iff_toNat_le]
    simp only [Pool.drain, hsub]
    omega
  · intro d; exact .inl (by simp [hpc, Pc.conn?, held, Pool.drain])

/-- A connection goes from the queue to the call. -/
theorem inv_popped {s : Sys τ C} (h : Inv s) {t : τ} {timeoutMs remainingMs : Int} {c : C}
    {rest : List C} (hb : s.boot = .done)
    (hpc : s.pc t = .acquiring timeoutMs (.waiting remainingMs)) (hq : s.pool.queue = c :: rest) :
    Inv (s.goto { s.pool with queue := rest } t (.acquiring timeoutMs (.checking c))) := by
  have hcount := h.count
  have hidle := h.idle
  refine h.goto hb ?_ h.cap ?_ ?_ id (by simp)
  · simp only [hpc, Pc.slots, hq, List.length_cons]
    omega
  · simp only [hq, List.length_cons] at hidle ⊢
    omega
  · intro d
    refine .inl ?_
    have : (c :: rest).count d = rest.count d + held (some c) d := by
      simp [List.count_cons, held]
    simp only [hpc, hq, Pc.conn?, this]
    have : held (none : Option C) d = 0 := by simp [held]
    omega

/-- A new connection is the call's, and no one else's. -/
theorem inv_made {s : Sys τ C} (h : Inv s) {t : τ} {timeoutMs : Int} {c : C} (hb : s.boot = .done)
    (hpc : s.pc t = .acquiring timeoutMs .making) (hfresh : s.owners c = 0) :
    Inv (s.goto s.pool t (.acquiring timeoutMs (.checking c))) := by
  refine h.goto hb ?_ h.cap h.idle ?_ id (by simp)
  · simp [hpc, Pc.slots]
  · intro d
    by_cases hcd : c = d
    · subst hcd
      refine .inr ?_
      have := held_le_one (some c) c
      simp only [hpc, Pc.conn?, hfresh]
      omega
    · exact .inl (by simp [hpc, Pc.conn?, held, hcd])

/-- Every transition keeps the books. -/
theorem inv_trans {s s' : Sys τ C} (h : Inv s) (htr : Trans s s') : Inv s' := by
  cases htr with
  | initMake hb hfresh => exact inv_initMake h hb hfresh
  | initSkip hb => exact inv_initSkip h hb
  | initPush hb => exact inv_initPush h hb
  | release hb hmem => exact inv_release h hb hmem
  | closeLost hb => exact h
  | closeWon hb hpc =>
    refine h.goto hb ?_ h.cap h.idle ?_ (fun _ => rfl) (fun _ => rfl)
    · simp [hpc, Pc.slots]
    · intro d; exact .inl (by simp [hpc, Pc.conn?])
  | drain hb hpc => exact inv_drain h hb hpc
  | move hb hne hne' hslots hconn hyield =>
    refine h.goto hb (by omega) h.cap h.idle ?_ id (fun hcl => absurd hcl hne')
    intro d; exact .inl (by rw [hconn])
  | popped hb hpc hcl hq => exact inv_popped h hb hpc hq
  | counted hb hpc hlt =>
    have hsucc := toNat_succ hlt
    refine h.goto hb ?_ ?_ h.idle ?_ id (by simp)
    · simp only [hpc, Pc.slots, hsucc]
    · rw [UInt64.le_iff_toNat_le]
      simp only [hsucc]
      exact UInt64.lt_iff_toNat_lt.mp hlt
    · intro d; exact .inl (by simp [hpc, Pc.conn?])
  | made hb hpc hfresh => exact inv_made h hb hpc hfresh
  | gaveBack hb hslot hslot' hconn hne => exact h.dropSlot hb hslot hslot' hconn hne
  | refused hb hslot =>
    rw [dropSlotGuarded_eq (h.totalCnt_pos hslot)]
    exact h.dropSlot hb hslot Pc.slots_idle rfl nofun
  | yielded hb hpc => exact inv_yielded h hb hpc

theorem inv_init {s : Sys τ C} (h : (lts τ C).init s) : Inv s := by
  obtain ⟨capa, minSize, hasCheck, hp, hb, hpc, hh⟩ := h
  refine ⟨?_, ?_, ?_, ?_, ?_, ?_⟩
  · simp [hp, Pool.new, hh, slots_boot hpc]
  · rw [hp]; exact UInt64.le_iff_toNat_le.mpr (by simp [Pool.new])
  · simp [hp, Pool.new]
  · intro c
    have hnone : held (bootAt s.pool 0).conn? c = 0 := by
      unfold ConnPool.bootAt; split <;> simp [Boot.conn?, held]
    rw [Sys.owners, hb, hnone]
    simp [hp, Pool.new, hh, hpc, Pc.conn?, held]
  · unfold BootOk
    rw [hb]
    unfold ConnPool.bootAt
    split
    · rename_i i heq
      split at heq
      · rename_i hlt
        cases heq
        exact ⟨by simp [hp, Pool.new], hlt, hh, hpc⟩
      · cases heq
    · rename_i i c heq
      split at heq <;> cases heq
    · trivial
  · intro t ht
    simp [hpc t] at ht

/-- The books balance in every reachable state. -/
theorem reachable_inv {s : Sys τ C} (h : (lts τ C).Reachable s) : Inv s :=
  h.invariant (fun _ => inv_init) (fun _ _ _ hi hs => inv_trans hi (Sys.step_trans hs))

/-! ## After close -/

/-- Some close has emptied the queue. -/
def drained (tr : List (Action τ C)) : Prop := ∃ t, Action.closeDrain t ∈ tr

theorem Sys.step_drain {s s' : Sys τ C} {t : τ} (h : s.step (.closeDrain t) = some s') :
    s.pc t = .closing ∧ s' = s.goto s.pool.drain t .idle := by
  simp only [Sys.step, Action.thread?, Option.bind_some, Sys.stepThread] at h
  split at h
  · split at h
    · simp at h
    · simp [Sys.stepAcquire] at h
    · rename_i hpc
      exact ⟨hpc, (Option.some.inj h).symm⟩
  · simp [Sys.stepBoot] at h

theorem Sys.step_yield {s s' : Sys τ C} {t : τ} (h : s.step (.yield t) = some s') :
    ∃ timeoutMs c, s.pc t = .acquiring timeoutMs (.yielding c) := by
  simp only [Sys.step, Action.thread?, Option.bind_some, Sys.stepThread] at h
  split at h
  · split at h
    · simp at h
    · rename_i timeoutMs stage hpc
      simp only [Sys.stepAcquire] at h
      split at h
      · exact ⟨_, _, hpc⟩
      · cases h
    · simp at h
  · simp [Sys.stepBoot] at h

theorem Sys.step_begin {s s' : Sys τ C} {t : τ} {timeoutMs : Int}
    (h : s.step (.begin t timeoutMs) = some s') :
    s'.pc t = .acquiring timeoutMs (.waiting timeoutMs) := by
  simp only [Sys.step, Action.thread?, Option.bind_some, Sys.stepThread] at h
  split at h
  · split at h
    · rw [← Option.some.inj h]
      simp [Sys.goto]
    · simp [Sys.stepAcquire] at h
    · simp at h
  · simp [Sys.stepBoot] at h

/-- The flag is never taken back, and once it is up the queue does not
grow. -/
theorem trans_closed {s s' : Sys τ C} (h : Trans s s') (hc : s.pool.closed = true)
    (hb : s.boot = .done) :
    s'.pool.closed = true ∧ (s.pool.queue = [] → s'.pool.queue = []) := by
  cases h with
  | initMake hb' _ => rw [hb] at hb'; cases hb'
  | initSkip hb' => rw [hb] at hb'; cases hb'
  | initPush hb' => rw [hb] at hb'; cases hb'
  | @release c _ hmem =>
    have hrel : s.pool.release c = s.pool.dropSlotGuarded := by simp [Pool.release, hc]
    simp only [hrel, Pool.dropSlotGuarded]
    split <;> exact ⟨hc, id⟩
  | closeLost => exact ⟨hc, id⟩
  | closeWon => exact ⟨rfl, id⟩
  | drain => exact ⟨hc, fun _ => rfl⟩
  | move => exact ⟨hc, id⟩
  | popped _ _ hopen => rw [hc] at hopen; cases hopen
  | counted => exact ⟨hc, id⟩
  | made => exact ⟨hc, id⟩
  | gaveBack => exact ⟨hc, id⟩
  | refused =>
    simp only [Sys.goto, Pool.dropSlotGuarded]
    split <;> exact ⟨hc, id⟩
  | yielded => exact ⟨hc, id⟩

theorem trans_boot {s s' : Sys τ C} (h : Trans s s') (hb : s.boot = .done) :
    s'.boot = .done := by
  cases h <;> simp_all [Sys.goto]

/-- Behind a closed flag no call reaches the point where it builds a
handle. -/
theorem trans_yielding {s s' : Sys τ C} (h : Trans s s') (hb : s.boot = .done)
    (hc : s.pool.closed = true) {t : τ} {timeoutMs : Int} {c : C}
    (hy : s'.pc t = .acquiring timeoutMs (.yielding c)) :
    ∃ timeoutMs c, s.pc t = .acquiring timeoutMs (.yielding c) := by
  have hmoved : ∀ {p : Pool C} {t' : τ} {pc : Pc C},
      (∀ timeoutMs c, pc ≠ .acquiring timeoutMs (.yielding c)) →
      (s.goto p t' pc).pc t = .acquiring timeoutMs (.yielding c) →
      ∃ timeoutMs c, s.pc t = .acquiring timeoutMs (.yielding c) := by
    intro p t' pc hne heq
    by_cases htt : t = t'
    · subst htt
      exact absurd (by simpa [Sys.goto] using heq) (hne timeoutMs c)
    · exact ⟨timeoutMs, c, by simpa [Sys.goto, htt] using heq⟩
  cases h with
  | initMake hb' _ => rw [hb] at hb'; cases hb'
  | initSkip hb' => rw [hb] at hb'; cases hb'
  | initPush hb' => rw [hb] at hb'; cases hb'
  | release => exact ⟨_, _, hy⟩
  | closeLost => exact ⟨_, _, hy⟩
  | closeWon => exact hmoved (by simp) hy
  | drain => exact hmoved (by simp) hy
  | move _ _ _ _ _ hopen =>
    refine hmoved ?_ hy
    intro timeoutMs c heq
    rw [hopen ⟨timeoutMs, c, heq⟩] at hc
    cases hc
  | popped => exact hmoved (by simp) hy
  | counted => exact hmoved (by simp) hy
  | made => exact hmoved (by simp) hy
  | gaveBack _ _ hslot =>
    refine hmoved ?_ hy
    intro timeoutMs c heq
    simp [heq, Pc.slots] at hslot
  | refused => exact hmoved (by simp) hy
  | yielded => exact hmoved (p := s.pool) (by simp) hy

/-- What holds of every run once a close has emptied the queue: the pool
is closed and idle, and a call begun after that builds no handle. -/
structure AfterDrain (tr : List (Action τ C)) (s : Sys τ C) : Prop where
  shut : drained tr → s.pool.closed = true ∧ s.pool.queue = [] ∧ s.boot = .done
  barred : ∀ (u v : List (Action τ C)) (t : τ) (timeoutMs : Int),
    tr = u ++ .begin t timeoutMs :: v → drained u →
    .yield t ∉ v ∧ ∀ timeoutMs' c, s.pc t ≠ .acquiring timeoutMs' (.yielding c)

theorem boot_of_drain {s s' : Sys τ C} {t : τ} (h : s.step (.closeDrain t) = some s') :
    s.boot = .done := by
  simp only [Sys.step] at h
  split at h
  · assumption
  · simp [Sys.stepBoot] at h

theorem afterDrain_step {tr : List (Action τ C)} {s s' : Sys τ C} {a : Action τ C}
    (hi : Inv s) (h : AfterDrain tr s) (hs : s.step a = some s') :
    AfterDrain (tr ++ [a]) s' := by
  have htr := Sys.step_trans hs
  refine ⟨?_, ?_⟩
  · rintro ⟨t, ht⟩
    rcases List.mem_append.mp ht with ht | ht
    · obtain ⟨hc, hq, hb⟩ := h.shut ⟨t, ht⟩
      obtain ⟨hc', hq'⟩ := trans_closed htr hc hb
      exact ⟨hc', hq' hq, trans_boot htr hb⟩
    · have hb : s.boot = .done := by
        rw [← List.mem_singleton.mp ht] at hs; exact boot_of_drain hs
      obtain ⟨hpc, rfl⟩ := Sys.step_drain (by rw [← List.mem_singleton.mp ht] at hs; exact hs)
      exact ⟨hi.closing t hpc, rfl, hb⟩
  · intro u v t timeoutMs heq hu
    -- the step is either the begin itself or a later step of the run
    rcases List.eq_nil_or_concat v with rfl | ⟨v', b, rfl⟩
    · obtain ⟨-, rfl⟩ := List.append_inj' heq rfl |>.imp id (fun h => by simpa using h)
      refine ⟨by simp, ?_⟩
      intro timeoutMs' c
      rw [Sys.step_begin hs]
      simp
    · have hsplit : tr ++ [a] = (u ++ .begin t timeoutMs :: v') ++ [b] := by
        rw [heq]; simp
      obtain ⟨htr', hab⟩ := List.append_inj' hsplit rfl
      have hab : a = b := by simpa using hab
      subst hab
      obtain ⟨hno, hpc⟩ := h.barred u v' t timeoutMs htr' hu
      have hdr : drained tr := by
        obtain ⟨q, hq⟩ := hu
        exact ⟨q, by rw [htr']; exact List.mem_append_left _ hq⟩
      obtain ⟨hc, -, hb⟩ := h.shut hdr
      refine ⟨?_, ?_⟩
      · rw [List.concat_eq_append, List.mem_append, not_or]
        refine ⟨hno, ?_⟩
        intro hmem
        rw [← List.mem_singleton.mp hmem] at hs
        obtain ⟨timeoutMs', c, hy⟩ := Sys.step_yield hs
        exact hpc timeoutMs' c hy
      · intro timeoutMs' c hy
        obtain ⟨timeoutMs'', c', hy'⟩ := trans_yielding htr hb hc hy
        exact hpc timeoutMs'' c' hy'

theorem run_afterDrain {tr : List (Action τ C)} {s : Sys τ C} (h : (lts τ C).Run tr s) :
    AfterDrain tr s := by
  refine Lts.Run.invariant (I := fun tr s => AfterDrain tr s) ?_ ?_ h
  · intro s _
    exact ⟨by rintro ⟨t, ht⟩; simp at ht, by intro u v t _ heq; simp at heq⟩
  · intro tr s a s' hr hi hs
    exact afterDrain_step (reachable_inv ⟨tr, hr⟩) hi hs

/-! ## The main theorem -/

/-- **Accounting over every interleaving.** In every state of every run,
with any number of threads: the counter is the idle connections plus the
slots held by acquires in progress and by live handles, so `active()`
does not underflow; it stays within the capacity, the idle connections
within `min_size`; no connection has two owners; once a close has emptied
the queue it stays empty and no acquire begun later builds a handle; and
when then every call has returned and every handle is gone, the counter
is zero. -/
theorem pool_accounting {tr : List (Action τ C)} {s : Sys τ C} (h : (lts τ C).Run tr s) :
    s.pool.totalCnt.toNat = s.pool.queue.length + (s.slots + s.handles.length) ∧
    s.pool.active.toNat = s.slots + s.handles.length ∧
    s.pool.totalCnt ≤ s.pool.capa ∧
    s.pool.queue.length ≤ s.pool.minSize.toNat ∧
    (s.pool.queue ++ s.handles).Nodup ∧
    (∀ t c, (s.pc t).conn? = some c → c ∉ s.pool.queue ∧ c ∉ s.handles) ∧
    (∀ t t' c, (s.pc t).conn? = some c → (s.pc t').conn? = some c → t = t') ∧
    (drained tr → s.pool.queue = []) ∧
    (∀ (u v : List (Action τ C)) (t : τ) (timeoutMs : Int),
      tr = u ++ .begin t timeoutMs :: v → drained u → .yield t ∉ v) ∧
    (drained tr → (∀ t, s.pc t = .idle) → s.handles = [] → s.pool.totalCnt = 0) := by
  have hi := reachable_inv ⟨tr, h⟩
  have hd := run_afterDrain h
  have hcount := hi.count
  have hidle := hi.idle_toNat
  have hone : ∀ t c, (s.pc t).conn? = some c →
      s.pool.queue.count c = 0 ∧ s.handles.count c = 0 ∧
        (∑ t' ∈ Finset.univ.erase t, held (s.pc t').conn? c) = 0 := by
    intro t c hc
    have hown := hi.owners c
    have hsplit := Finset.add_sum_erase Finset.univ (fun t => held (s.pc t).conn? c)
      (Finset.mem_univ t)
    have hheld : held (s.pc t).conn? c = 1 := by simp [held, hc]
    simp only [Sys.owners] at hown
    omega
  refine ⟨by omega, ?_, hi.cap, hi.idle, ?_, ?_, ?_, ?_, ?_, ?_⟩
  · have hle : s.pool.idle ≤ s.pool.totalCnt := by rw [UInt64.le_iff_toNat_le]; omega
    rw [Pool.active, UInt64.toNat_sub_of_le _ _ hle]
    omega
  · rw [List.nodup_iff_count_le_one]
    intro c
    have hown := hi.owners c
    rw [List.count_append]
    simp only [Sys.owners] at hown
    omega
  · intro t c hc
    obtain ⟨h1, h2, -⟩ := hone t c hc
    exact ⟨List.count_eq_zero.mp h1, List.count_eq_zero.mp h2⟩
  · intro t t' c hc hc'
    by_contra hne
    have hzero := Finset.sum_eq_zero_iff.mp (hone t c hc).2.2 t'
      (Finset.mem_erase.mpr ⟨fun heq => hne heq.symm, Finset.mem_univ t'⟩)
    simp [held, hc'] at hzero
  · intro hdr
    exact (hd.shut hdr).2.1
  · intro u v t timeoutMs heq hu
    exact (hd.barred u v t timeoutMs heq hu).1
  · intro hdr hpc hh
    have hq := (hd.shut hdr).2.1
    apply UInt64.toNat_inj.mp
    rw [hcount, hq, slots_boot hpc, hh]
    rfl

/-- A close that lands between the check and the last section of an
acquire: the acquire gives its slot back and the counter ends at zero. -/
theorem pool_accounting_close_race :
    ∃ (tr : List (Action Bool Nat)) (s : Sys Bool Nat), (lts Bool Nat).Run tr s ∧
      drained tr ∧ s.handles = [] ∧ s.pool.totalCnt = 0 := by
  have h0 : (lts Bool Nat).Run []
      ⟨Pool.new 2 1 true, .making 0, fun _ => .idle, []⟩ :=
    .start ⟨2, 1, true, rfl, rfl, fun _ => rfl, rfl⟩
  have h1 := h0.snoc (a := .initMake (.conn 7)) (by exact rfl)
  have h2 := h1.snoc (a := .initPush) (by exact rfl)
  have h3 := h2.snoc (a := .begin true (-1)) (by exact rfl)
  have h4 := h3.snoc (a := .enter true) (by exact rfl)
  have h5 := h4.snoc (a := .check true .yes) (by exact rfl)
  have h6 := h5.snoc (a := .closeCas false) (by exact rfl)
  have h7 := h6.snoc (a := .closeDrain false) (by exact rfl)
  have h8 := h7.snoc (a := .confirm true) (by exact rfl)
  refine ⟨_, _, h8, ⟨false, by simp⟩, rfl, ?_⟩
  refine (pool_accounting h8).2.2.2.2.2.2.2.2.2 ⟨false, by simp⟩ ?_ rfl
  intro t
  cases t <;> rfl

end HighJump.Db.ConnPool
