/-
HighJump.Lib.CasLoop — threads that update one shared cell by load and
compare-and-swap loops, in any interleaving.

An operation is a partial function on the value: `next op v` is what it
would store, or `none` if it gives up. A thread loads the cell, gives up
or remembers what it loaded, and later swaps its result in if the cell
still holds that. The swap may also fail for no reason, and a failed swap
starts the loop over.

Three histories are ghost. `calls` gives every call a number. `jumps` is
every change of the cell, with the number of the call that made it, what
the cell held before and what after. `done` is every call that has
returned, with what it believes it did. `Inv` ties them together: a call
that says it took effect made one jump, that one; a call that says it gave
up made none.
-/
import HighJump.Lib.Lts
import Mathlib.Logic.Function.Basic

namespace HighJump.Lib.CasLoop

/-- What a call believes it did: it swapped its result in over `v`, or it
gave up on `v`. -/
inductive Outcome (α : Type) where
  | took (v : α)
  | refused (v : α)

/-- Where a thread is: between calls, before the load, before the swap, or
on its way out. -/
inductive Pc (α : Type) where
  | idle
  | loop (t : Nat)
  | armed (t : Nat) (tmp : α)
  | leaving (t : Nat) (o : Outcome α)

/-- The call a thread is in. -/
def Pc.ticket {α : Type} : Pc α → Option Nat
  | .idle => none
  | .loop t | .armed t _ | .leaving t _ => some t

structure State (ι ω α : Type) where
  value : α
  pc : ι → Pc α
  calls : List ω
  jumps : List (Nat × α × α)
  done : List (Nat × Outcome α)

inductive Event (ι ω : Type) where
  | call (i : ι) (op : ω)
  | load (i : ι)
  | cas (i : ι)
  | casFail (i : ι)
  | ret (i : ι)

section System

variable {ι ω α : Type} [DecidableEq ι]

/-- The changes a call made. -/
def State.jumpsOf (s : State ι ω α) (t : Nat) : List (Nat × α × α) :=
  s.jumps.filter (·.1 == t)

/-- One step of one thread. -/
inductive Step (next : ω → α → Option α) : State ι ω α → Event ι ω → State ι ω α → Prop where
  | call {s : State ι ω α} {i : ι} (op : ω) : s.pc i = .idle →
      Step next s (.call i op)
        { s with pc := Function.update s.pc i (.loop s.calls.length), calls := s.calls ++ [op] }
  | refuse {s : State ι ω α} {i : ι} {t : Nat} {op : ω} : s.pc i = .loop t →
      s.calls[t]? = some op → next op s.value = none →
      Step next s (.load i)
        { s with pc := Function.update s.pc i (.leaving t (.refused s.value)) }
  | arm {s : State ι ω α} {i : ι} {t : Nat} {op : ω} {v : α} : s.pc i = .loop t →
      s.calls[t]? = some op → next op s.value = some v →
      Step next s (.load i) { s with pc := Function.update s.pc i (.armed t s.value) }
  | swap {s : State ι ω α} {i : ι} {t : Nat} {op : ω} {tmp new : α} : s.pc i = .armed t tmp →
      s.calls[t]? = some op → s.value = tmp → next op tmp = some new →
      Step next s (.cas i)
        { s with value := new, pc := Function.update s.pc i (.leaving t (.took tmp)),
                 jumps := s.jumps ++ [(t, s.value, new)] }
  -- the cell has changed, or not; what the swap writes to `tmp` is overwritten by the load
  | fail {s : State ι ω α} {i : ι} {t : Nat} {tmp : α} : s.pc i = .armed t tmp →
      Step next s (.casFail i) { s with pc := Function.update s.pc i (.loop t) }
  | ret {s : State ι ω α} {i : ι} {t : Nat} {o : Outcome α} : s.pc i = .leaving t o →
      Step next s (.ret i)
        { s with pc := Function.update s.pc i .idle, done := s.done ++ [(t, o)] }

/-- Threads that start outside any call, on a cell holding `v₀`. -/
def lts (next : ω → α → Option α) (v₀ : α) : Lts (State ι ω α) (Event ι ω) where
  init s := s = ⟨v₀, fun _ => .idle, [], [], []⟩
  step := Step next

/-! ## The invariant -/

/-- Changes that follow one another, from `v` to `w`. -/
def Chain : α → List (Nat × α × α) → α → Prop
  | v, [], w => v = w
  | v, j :: js, w => j.2.1 = v ∧ Chain j.2.2 js w

theorem Chain.snoc {w : α} (j : Nat × α × α) (hj : j.2.1 = w) :
    ∀ {v : α} {js : List (Nat × α × α)}, Chain v js w → Chain v (js ++ [j]) j.2.2
  | _, [], h => ⟨hj.trans (Eq.symm h), rfl⟩
  | _, _ :: _, h => ⟨h.1, Chain.snoc j hj h.2⟩

/-- Every value of the cell is the first one or the end of a change. -/
theorem Chain.value {w : α} : ∀ {v : α} {js : List (Nat × α × α)}, Chain v js w →
    w = v ∨ ∃ j ∈ js, j.2.2 = w
  | _, [], h => .inl (Eq.symm h)
  | _, j :: js, h => by
      rcases Chain.value h.2 with rfl | ⟨k, hk, hw⟩
      · exact .inr ⟨j, by simp, rfl⟩
      · exact .inr ⟨k, List.mem_cons_of_mem _ hk, hw⟩

/-- A property of the first value that every change passes on holds of all
values. -/
theorem Chain.all {P : α → Prop} : ∀ {v w : α} {js : List (Nat × α × α)}, Chain v js w → P v →
    (∀ j ∈ js, P j.2.1 → P j.2.2) → P w ∧ ∀ j ∈ js, P j.2.1 ∧ P j.2.2
  | _, _, [], h, hv, _ => ⟨h ▸ hv, by simp⟩
  | _, _, j :: js, h, hv, hjs => by
      have hj : P j.2.1 := h.1.symm ▸ hv
      have hj' : P j.2.2 := hjs j (by simp) hj
      obtain ⟨hw, hall⟩ := Chain.all h.2 hj' fun k hk => hjs k (List.mem_cons_of_mem _ hk)
      exact ⟨hw, List.forall_mem_cons.mpr ⟨⟨hj, hj'⟩, hall⟩⟩

variable (next : ω → α → Option α) (v₀ : α)

/-- What a call believes is what happened. -/
def Settled (s : State ι ω α) (t : Nat) : Outcome α → Prop
  | .took v => ∃ op v', s.calls[t]? = some op ∧ next op v = some v' ∧ s.jumpsOf t = [(t, v, v')]
  | .refused v => ∃ op, s.calls[t]? = some op ∧ next op v = none ∧ s.jumpsOf t = [] ∧
      (v = v₀ ∨ ∃ j ∈ s.jumps, j.2.2 = v)

structure Inv (s : State ι ω α) : Prop where
  held : ∀ i t, (s.pc i).ticket = some t → t < s.calls.length ∧ t ∉ s.done.map Prod.fst
  unique : ∀ i j t, (s.pc i).ticket = some t → (s.pc j).ticket = some t → i = j
  nodup : (s.done.map Prod.fst).Nodup
  lt : ∀ t ∈ s.done.map Prod.fst, t < s.calls.length
  waiting : ∀ i t, (s.pc i = .loop t ∨ ∃ tmp, s.pc i = .armed t tmp) → s.jumpsOf t = []
  leaving : ∀ i t o, s.pc i = .leaving t o → Settled next v₀ s t o
  settled : ∀ t o, (t, o) ∈ s.done → Settled next v₀ s t o
  legal : ∀ j ∈ s.jumps, ∃ op, s.calls[j.1]? = some op ∧ next op j.2.1 = some j.2.2
  chain : Chain v₀ s.jumps s.value

variable {next v₀}

omit [DecidableEq ι] in
/-- What is settled stays settled: later calls get other numbers, and
later changes are other calls'. -/
theorem Settled.mono {s s' : State ι ω α} {t : Nat} {o : Outcome α} (h : Settled next v₀ s t o)
    (hcalls : ∃ more, s'.calls = s.calls ++ more) (hjumps : s'.jumpsOf t = s.jumpsOf t)
    (hmem : ∀ j ∈ s.jumps, j ∈ s'.jumps) : Settled next v₀ s' t o := by
  obtain ⟨more, hmore⟩ := hcalls
  have hget {op : ω} (hop : s.calls[t]? = some op) : s'.calls[t]? = some op := by
    rw [hmore, List.getElem?_append_left (List.getElem?_eq_some_iff.mp hop).1, hop]
  cases o with
  | took v =>
    obtain ⟨op, v', hop, hnext, hj⟩ := h
    exact ⟨op, v', hget hop, hnext, hjumps.trans hj⟩
  | refused v =>
    obtain ⟨op, hop, hnext, hj, hv⟩ := h
    refine ⟨op, hget hop, hnext, hjumps.trans hj, hv.imp_right ?_⟩
    rintro ⟨j, hj, hjv⟩
    exact ⟨j, hmem j hj, hjv⟩

omit [DecidableEq ι] in
/-- Calls not yet made have changed nothing. -/
theorem Inv.jumpsOf_fresh {s : State ι ω α} (h : Inv next v₀ s) {t : Nat}
    (ht : s.calls.length ≤ t) : s.jumpsOf t = [] := by
  refine List.filter_eq_nil_iff.mpr fun j hj => ?_
  obtain ⟨op, hop, -⟩ := h.legal j hj
  have hlt := (List.getElem?_eq_some_iff.mp hop).1
  simp only [beq_iff_eq]
  omega

/-- A thread that moves on inside its call. -/
theorem Inv.move {s : State ι ω α} (h : Inv next v₀ s) {i : ι} {t : Nat} {p : Pc α}
    (ht : (s.pc i).ticket = some t) (hp : p.ticket = some t)
    (hwait : (p = .loop t ∨ ∃ tmp, p = .armed t tmp) → s.jumpsOf t = [])
    (hleave : ∀ o, p = .leaving t o → Settled next v₀ s t o) :
    Inv next v₀ { s with pc := Function.update s.pc i p } := by
  -- a ticket is held by the thread that held it before
  have hticket : ∀ j, (Function.update s.pc i p j).ticket = (s.pc j).ticket := by
    intro j
    by_cases hj : j = i
    · rw [hj, Function.update_self, hp, ht]
    · rw [Function.update_of_ne hj]
  refine ⟨fun j t' hj => h.held j t' (by rw [← hticket]; exact hj), fun j k t' hj hk => ?_, h.nodup,
    h.lt, fun j t' hj => ?_, fun j t' o hj => ?_, h.settled, h.legal, h.chain⟩
  · exact h.unique j k t' (by rw [← hticket]; exact hj) (by rw [← hticket]; exact hk)
  · by_cases hji : j = i
    · rw [hji] at hj
      simp only [Function.update_self] at hj
      obtain rfl : t' = t := by
        rcases hj with hj | ⟨tmp, hj⟩ <;> rw [hj] at hp <;> exact Option.some.inj hp
      exact hwait hj
    · simp only [Function.update_of_ne hji] at hj
      exact h.waiting j t' hj
  · by_cases hji : j = i
    · rw [hji] at hj
      simp only [Function.update_self] at hj
      obtain rfl : t' = t := by rw [hj] at hp; exact Option.some.inj hp
      exact hleave o hj
    · simp only [Function.update_of_ne hji] at hj
      exact h.leaving j t' o hj

/-- A thread that begins a call gets a new number. -/
theorem Inv.call {s : State ι ω α} (h : Inv next v₀ s) {i : ι} (op : ω) :
    Inv next v₀
      { s with pc := Function.update s.pc i (.loop s.calls.length), calls := s.calls ++ [op] } := by
  have hlen : (s.calls ++ [op]).length = s.calls.length + 1 := by simp
  have hnew {t : Nat} {o : Outcome α} (hs : Settled next v₀ s t o) : Settled next v₀
      { s with pc := Function.update s.pc i (.loop s.calls.length), calls := s.calls ++ [op] } t o :=
    hs.mono ⟨[op], rfl⟩ rfl fun j hj => hj
  have hself : (Pc.loop s.calls.length : Pc α).ticket = some s.calls.length := rfl
  refine ⟨fun j t hj => ?_, fun j k t hj hk => ?_, h.nodup, fun t ht => ?_, fun j t hj => ?_,
    fun j t o hj => ?_, fun t o ho => hnew (h.settled t o ho), fun j hj => ?_, h.chain⟩
  · by_cases hji : j = i
    · simp only [hji, Function.update_self, hself, Option.some.injEq] at hj
      subst hj
      refine ⟨by simp only [hlen]; omega, fun hmem => ?_⟩
      exact Nat.lt_irrefl _ (h.lt _ hmem)
    · simp only [Function.update_of_ne hji] at hj
      obtain ⟨hlt, hnot⟩ := h.held j t hj
      exact ⟨by simp only [hlen]; omega, hnot⟩
  · by_cases hji : j = i <;> by_cases hki : k = i
    · rw [hji, hki]
    · -- a new number is no one else's
      simp only [hji, Function.update_self, hself, Option.some.injEq] at hj
      simp only [Function.update_of_ne hki, ← hj] at hk
      exact absurd (h.held k _ hk).1 (Nat.lt_irrefl _)
    · simp only [hki, Function.update_self, hself, Option.some.injEq] at hk
      simp only [Function.update_of_ne hji, ← hk] at hj
      exact absurd (h.held j _ hj).1 (Nat.lt_irrefl _)
    · simp only [Function.update_of_ne hji] at hj
      simp only [Function.update_of_ne hki] at hk
      exact h.unique j k t hj hk
  · have := h.lt t ht
    simp only [hlen]
    omega
  · by_cases hji : j = i
    · simp only [hji, Function.update_self] at hj
      obtain rfl : s.calls.length = t := by
        rcases hj with hj | ⟨tmp, hj⟩
        · exact Pc.loop.inj hj
        · cases hj
      exact h.jumpsOf_fresh (Nat.le_refl _)
    · simp only [Function.update_of_ne hji] at hj
      exact h.waiting j t hj
  · by_cases hji : j = i
    · simp only [hji, Function.update_self] at hj
      cases hj
    · simp only [Function.update_of_ne hji] at hj
      exact hnew (h.leaving j t o hj)
  · obtain ⟨op', hop', hnext⟩ := h.legal j hj
    refine ⟨op', ?_, hnext⟩
    simp only
    rw [List.getElem?_append_left (List.getElem?_eq_some_iff.mp hop').1, hop']

/-- A swap that succeeds is the first change of its call. -/
theorem Inv.swap {s : State ι ω α} (h : Inv next v₀ s) {i : ι} {t : Nat} {op : ω} {tmp new : α}
    (hpc : s.pc i = .armed t tmp) (hop : s.calls[t]? = some op) (hval : s.value = tmp)
    (hnext : next op tmp = some new) :
    Inv next v₀
      { s with value := new, pc := Function.update s.pc i (.leaving t (.took tmp)),
               jumps := s.jumps ++ [(t, s.value, new)] } := by
  have hti : (s.pc i).ticket = some t := by rw [hpc]; rfl
  have hbefore := h.waiting i t (.inr ⟨tmp, hpc⟩)
  -- the changes of other calls are as they were
  have hother {t' : Nat} (hne : t' ≠ t) :
      (s.jumps ++ [(t, s.value, new)]).filter (·.1 == t') = s.jumpsOf t' := by
    have hbeq : (t == t') = false := beq_eq_false_iff_ne.mpr (Ne.symm hne)
    rw [List.filter_append, List.filter_singleton]
    simp [State.jumpsOf, hbeq]
  have hmine : (s.jumps ++ [(t, s.value, new)]).filter (·.1 == t) = [(t, tmp, new)] := by
    rw [List.filter_append, List.filter_singleton]
    have hb : s.jumps.filter (·.1 == t) = [] := hbefore
    rw [hb, hval]
    simp
  have hnew {t' : Nat} {o : Outcome α} (hne : t' ≠ t) (hs : Settled next v₀ s t' o) :
      Settled next v₀ { s with value := new, pc := Function.update s.pc i (.leaving t (.took tmp)),
                               jumps := s.jumps ++ [(t, s.value, new)] } t' o :=
    hs.mono ⟨[], by simp⟩ (hother hne) fun j hj => List.mem_append_left _ hj
  have hticket : ∀ j, (Function.update s.pc i (.leaving t (.took tmp)) j).ticket
      = (s.pc j).ticket := by
    intro j
    by_cases hj : j = i
    · rw [hj, Function.update_self, hti]
      rfl
    · rw [Function.update_of_ne hj]
  have hdone {t' : Nat} {o : Outcome α} (ho : (t', o) ∈ s.done) : t' ≠ t := by
    rintro rfl
    exact (h.held i _ hti).2 (List.mem_map.mpr ⟨_, ho, rfl⟩)
  have helse {j : ι} {t' : Nat} (hji : j ≠ i) (hj : (s.pc j).ticket = some t') : t' ≠ t := by
    rintro rfl
    exact hji (h.unique j i _ hj hti)
  constructor
  case held => exact fun j t' hj => h.held j t' (by rw [← hticket]; exact hj)
  case unique =>
    intro j k t' hj hk
    exact h.unique j k t' (by rw [← hticket]; exact hj) (by rw [← hticket]; exact hk)
  case nodup => exact h.nodup
  case lt => exact h.lt
  case waiting =>
    intro j t' hj
    by_cases hji : j = i
    · simp only [hji, Function.update_self] at hj
      rcases hj with hj | ⟨tmp', hj⟩ <;> cases hj
    · simp only [Function.update_of_ne hji] at hj
      have htj : (s.pc j).ticket = some t' := by
        rcases hj with hj | ⟨tmp', hj⟩ <;> rw [hj] <;> rfl
      exact (hother (helse hji htj)).trans (h.waiting j t' hj)
  case leaving =>
    intro j t' o hj
    by_cases hji : j = i
    · simp only [hji, Function.update_self] at hj
      cases hj
      exact ⟨op, new, hop, hnext, hmine⟩
    · simp only [Function.update_of_ne hji] at hj
      exact hnew (helse hji (by rw [hj]; rfl)) (h.leaving j t' o hj)
  case settled => exact fun t' o ho => hnew (hdone ho) (h.settled t' o ho)
  case legal =>
    intro j hj
    rcases List.mem_append.mp hj with hj | hj
    · exact h.legal j hj
    · rw [List.mem_singleton.mp hj]
      exact ⟨op, hop, by simp only [hval]; exact hnext⟩
  case chain => exact h.chain.snoc (t, s.value, new) rfl

/-- A call that returns leaves its number behind. -/
theorem Inv.ret {s : State ι ω α} (h : Inv next v₀ s) {i : ι} {t : Nat} {o : Outcome α}
    (hpc : s.pc i = .leaving t o) :
    Inv next v₀ { s with pc := Function.update s.pc i .idle, done := s.done ++ [(t, o)] } := by
  have hti : (s.pc i).ticket = some t := by rw [hpc]; rfl
  obtain ⟨htlt, htdone⟩ := h.held i t hti
  have hpcj {j : ι} {t' : Nat} (hj : (Function.update s.pc i .idle j).ticket = some t') :
      j ≠ i ∧ (s.pc j).ticket = some t' := by
    by_cases hji : j = i
    · rw [hji, Function.update_self] at hj
      cases hj
    · rw [Function.update_of_ne hji] at hj
      exact ⟨hji, hj⟩
  constructor
  case held =>
    intro j t' hj
    obtain ⟨hji, hj⟩ := hpcj hj
    obtain ⟨hlt, hnot⟩ := h.held j t' hj
    refine ⟨hlt, fun hmem => ?_⟩
    rw [List.map_append, List.mem_append, List.map_singleton, List.mem_singleton] at hmem
    rcases hmem with hmem | hmem
    · exact hnot hmem
    · exact hji (h.unique j i t' hj (by rw [hmem]; exact hti))
  case unique =>
    intro j k t' hj hk
    exact h.unique j k t' (hpcj hj).2 (hpcj hk).2
  case nodup =>
    rw [List.map_append, List.map_singleton, List.nodup_append]
    refine ⟨h.nodup, List.pairwise_singleton _ _, fun a ha b hb hab => htdone ?_⟩
    have hbt : b = t := List.mem_singleton.mp hb
    rwa [← hbt, ← hab]
  case lt =>
    intro t' ht'
    rw [List.map_append, List.mem_append, List.map_singleton, List.mem_singleton] at ht'
    rcases ht' with ht' | rfl
    · exact h.lt t' ht'
    · exact htlt
  case waiting =>
    intro j t' hj
    by_cases hji : j = i
    · simp only [hji, Function.update_self] at hj
      rcases hj with hj | ⟨tmp, hj⟩ <;> cases hj
    · simp only [Function.update_of_ne hji] at hj
      exact h.waiting j t' hj
  case leaving =>
    intro j t' o' hj
    by_cases hji : j = i
    · simp only [hji, Function.update_self] at hj
      cases hj
    · simp only [Function.update_of_ne hji] at hj
      exact h.leaving j t' o' hj
  case settled =>
    intro t' o' ho
    rcases List.mem_append.mp ho with ho | ho
    · exact h.settled t' o' ho
    · cases List.mem_singleton.mp ho
      exact h.leaving i t o hpc
  case legal => exact h.legal
  case chain => exact h.chain

/-- **One step** of one thread keeps the invariant. -/
theorem Inv.step {s s' : State ι ω α} {e : Event ι ω} (h : Inv next v₀ s) (hs : Step next s e s') :
    Inv next v₀ s' := by
  cases hs with
  | call op hpc => exact h.call op
  | @refuse i t op hpc hop hnext =>
    refine h.move (t := t) (by rw [hpc]; rfl) rfl (fun hw => ?_) fun o ho => ?_
    · rcases hw with hw | ⟨tmp, hw⟩ <;> cases hw
    · cases ho
      exact ⟨op, hop, hnext, h.waiting i t (.inl hpc), h.chain.value⟩
  | @arm i t op v hpc hop hnext =>
    refine h.move (t := t) (by rw [hpc]; rfl) rfl (fun _ => h.waiting i t (.inl hpc)) fun o ho => ?_
    cases ho
  | swap hpc hop hval hnext => exact h.swap hpc hop hval hnext
  | @fail i t tmp hpc =>
    refine h.move (t := t) (by rw [hpc]; rfl) rfl (fun _ => h.waiting i t (.inr ⟨tmp, hpc⟩))
      fun o ho => ?_
    cases ho
  | ret hpc => exact h.ret hpc

/-- **Every run** keeps it: whatever the interleaving, no change is lost
and none is made twice. -/
theorem run_inv {tr : List (Event ι ω)} {s : State ι ω α} (hrun : (lts next v₀).Run tr s) :
    Inv next v₀ s := by
  refine Lts.Reachable.invariant (M := lts next v₀) (fun s hs => ?_)
    (fun s e s' h hs => h.step hs) ⟨tr, hrun⟩
  cases hs
  refine ⟨fun i t h => ?_, fun i j t h => ?_, List.nodup_nil, fun t h => ?_, fun i t h => rfl,
    fun i t o h => ?_, fun t o h => ?_, fun j h => ?_, rfl⟩
  all_goals cases h

end System

end HighJump.Lib.CasLoop
