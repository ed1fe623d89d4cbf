/-
HighJump.Sync.CounterThreads — `hj::counter` shared by threads.

Any number of threads call `inc`, `dec`, `+=` and `-=` with constants, in
any order and any number of times; the load and the swap of each loop are
separate steps that interleave freely, and a swap may fail without a
reason. The loops are those of `Lib/CasLoop`, with the counter's own
`bounded` as what an operation would store, so atomicity is the
library's; what is added here is arithmetic: where nothing overflows, what
an operation stores is the value plus its increment.
-/
import HighJump.Sync.CounterTheorems
import HighJump.Lib.CasLoop

namespace HighJump.Sync.Counter

open HighJump.Lib (IntType Lts CasLoop.State CasLoop.Event CasLoop.Outcome CasLoop.lts
  CasLoop.Chain CasLoop.run_inv)

/-- What an operation adds, if it adds a constant. -/
def increment (c : Counter) : Op → Option Int
  | .plusPlus | .plusPlusPost | .inc => some c.step
  | .minusMinus | .minusMinusPost | .dec => some (-c.step)
  | .plusEq (.val a) => some a
  | .minusEq (.val a) => some (-a)
  | .plusEq .self | .minusEq .self | .timesEq _ | .reset _ => none

/-- An operation that adds a constant and overflows nowhere within the
bounds. -/
structure Update (T : IntType) (c : Counter) where
  op : Op
  amount : Int
  adds : c.increment op = some amount
  fits : ∀ v, c.min ≤ v → v ≤ c.max → T.promoted.Mem (v + amount)

/-- What the loop of the source would store over `v`. -/
def next (T : IntType) (c : Counter) (u : Update T c) (v : Int) : Option Int :=
  c.bounded T (c.result T u.op v)

variable {T : IntType} {c : Counter}

/-- The machine's result is the sum. -/
theorem Update.result_eq (u : Update T c) {v : Int} (hlo : c.min ≤ v) (hhi : v ≤ c.max) :
    c.result T u.op v = v + u.amount := by
  have hwrap : c.result T u.op v = T.promoted.wrap (v + u.amount) := by
    obtain ⟨op, amount, adds, fits⟩ := u
    cases op with
    | plusPlus | plusPlusPost | inc => cases adds; rfl
    | minusMinus | minusMinusPost | dec => cases adds; rfl
    | plusEq arg =>
      cases arg with
      | val a => cases adds; rfl
      | self => cases adds
    | minusEq arg =>
      cases arg with
      | val a => cases adds; rfl
      | self => cases adds
    | timesEq arg => cases adds
    | reset value => cases adds
  rw [hwrap, T.promoted.wrap_of_mem (u.fits v hlo hhi)]

theorem next_eq (hc : c.Valid T) (u : Update T c) {v : Int} (hlo : c.min ≤ v) (hhi : v ≤ c.max) :
    next T c u v
      = if c.min ≤ v + u.amount ∧ v + u.amount ≤ c.max then some (v + u.amount) else none := by
  rw [next, hc.bounded_eq, u.result_eq hlo hhi]

/-- Changes that add up. -/
theorem chain_sum {d : Nat → Int} : ∀ {v w : Int} {js : List (Nat × Int × Int)},
    CasLoop.Chain v js w → (∀ j ∈ js, j.2.2 = j.2.1 + d j.1) →
    w = v + (js.map fun j => d j.1).sum
  | _, _, [], h, _ => by
      rw [List.map_nil, List.sum_nil, Int.add_zero]
      exact Eq.symm h
  | v, w, j :: js, h, hall => by
      have hrest := chain_sum h.2 fun k hk => hall k (List.mem_cons_of_mem _ hk)
      have hj := hall j (by simp)
      rw [hrest, hj, h.1, List.map_cons, List.sum_cons]
      omega

/-- The increment of call number `t`. -/
def amountOf (calls : List (Update T c)) (t : Nat) : Int := ((calls[t]?).map (·.amount)).getD 0

/-- **Counter updates are atomic.** In every state of every interleaving: a
call that has returned made exactly one change, from some `v` to `v` plus
its increment, within the bounds; or it made none, having read a value
whose sum falls outside. No call returns twice. The changes follow one
another from the first value to the present one, which is the first plus
the increments that took effect, and lies within the bounds. -/
theorem threads_atomic {ι : Type} [DecidableEq ι] (hc : c.Valid T)
    {tr : List (CasLoop.Event ι (Update T c))} {s : CasLoop.State ι (Update T c) Int}
    (hrun : (CasLoop.lts (next T c) c.value).Run tr s) :
    (∀ t v, (t, .took v) ∈ s.done → ∃ u, s.calls[t]? = some u ∧
      s.jumpsOf t = [(t, v, v + u.amount)] ∧ c.min ≤ v + u.amount ∧ v + u.amount ≤ c.max) ∧
    (∀ t v, (t, .refused v) ∈ s.done → ∃ u, s.calls[t]? = some u ∧ s.jumpsOf t = [] ∧
      ¬ (c.min ≤ v + u.amount ∧ v + u.amount ≤ c.max) ∧
      (v = c.value ∨ ∃ j ∈ s.jumps, j.2.2 = v)) ∧
    (s.done.map Prod.fst).Nodup ∧ CasLoop.Chain c.value s.jumps s.value ∧
    s.value = c.value + (s.jumps.map fun j => amountOf s.calls j.1).sum ∧
    c.min ≤ s.value ∧ s.value ≤ c.max := by
  have hinv := CasLoop.run_inv hrun
  have hstores {u : Update T c} {v v' : Int} (h : next T c u v = some v') :
      c.min ≤ v' ∧ v' ≤ c.max := by
    rw [next, hc.bounded_eq] at h
    split at h
    next hin => cases h; exact hin
    next => cases h
  -- every value the cell has had lies within the bounds
  obtain ⟨hvalue, hjumps⟩ := hinv.chain.all (P := fun v => c.min ≤ v ∧ v ≤ c.max)
    ⟨hc.le_value, hc.value_le⟩ fun j hj _ => by
      obtain ⟨u, -, hnext⟩ := hinv.legal j hj
      exact hstores hnext
  have hadds {u : Update T c} {v v' : Int} (hv : c.min ≤ v ∧ v ≤ c.max)
      (h : next T c u v = some v') : v' = v + u.amount := by
    rw [next_eq hc u hv.1 hv.2] at h
    split at h
    · exact (Option.some.inj h).symm
    · cases h
  refine ⟨fun t v ho => ?_, fun t v ho => ?_, hinv.nodup, hinv.chain, ?_, hvalue⟩
  · obtain ⟨u, v', hu, hnext, hj⟩ := hinv.settled t _ ho
    have hmem : (t, v, v') ∈ s.jumps := by
      have : (t, v, v') ∈ s.jumpsOf t := by rw [hj]; exact List.mem_singleton_self _
      exact (List.mem_filter.mp this).1
    have hv' : v' = v + u.amount := hadds (hjumps _ hmem).1 hnext
    subst hv'
    exact ⟨u, hu, hj, (hjumps _ hmem).2⟩
  · obtain ⟨u, hu, hnext, hj, hread⟩ := hinv.settled t _ ho
    refine ⟨u, hu, hj, fun hin => ?_, hread⟩
    have hv : c.min ≤ v ∧ v ≤ c.max := by
      rcases hread with rfl | ⟨j, hj, rfl⟩
      · exact ⟨hc.le_value, hc.value_le⟩
      · exact (hjumps j hj).2
    rw [next_eq hc u hv.1 hv.2, if_pos hin] at hnext
    cases hnext
  · refine chain_sum hinv.chain fun j hj => ?_
    obtain ⟨u, hu, hnext⟩ := hinv.legal j hj
    rw [amountOf, hu, hadds (hjumps j hj).1 hnext]
    rfl

/-! ## A race for the last step -/

/-- A counter one below its bound. -/
def nearMax : Counter := ⟨4, 0, 5, 1⟩

def nearMaxInc : Update .int32 nearMax where
  op := .inc
  amount := 1
  adds := rfl
  fits v hlo hhi := by
    have h0 : (0 : Int) ≤ v := hlo
    have h5 : v ≤ 5 := hhi
    have hmin : IntType.int32.promoted.min = -2147483648 := by decide
    have hmax : IntType.int32.promoted.max = 2147483647 := by decide
    unfold IntType.Mem
    rw [hmin, hmax]
    omega

/-- Both threads load 4; one swaps in 5, the other fails, loads 5 and gives
up. -/
def raceTrace : List (CasLoop.Event Bool (Update .int32 nearMax)) :=
  [.call true nearMaxInc, .call false nearMaxInc, .load true, .load false, .cas true,
    .casFail false, .load false, .ret true, .ret false]

theorem race_run :
    ∃ s, (CasLoop.lts (ι := Bool) (next .int32 nearMax) nearMax.value).Run raceTrace s ∧
      s.done = [(0, .took 4), (1, .refused 5)] ∧ s.jumps = [(0, 4, 5)] ∧ s.value = 5 := by
  have hfour : next .int32 nearMax nearMaxInc 4 = some 5 := by decide
  have hfive : next .int32 nearMax nearMaxInc 5 = none := by decide
  have h0 : (CasLoop.lts (ι := Bool) (next .int32 nearMax) nearMax.value).Run [] _ := .start rfl
  have h1 := h0.snoc (.call (i := true) nearMaxInc rfl)
  have h2 := h1.snoc (.call (i := false) nearMaxInc rfl)
  have h3 := h2.snoc (.arm (i := true) (t := 0) rfl rfl hfour)
  have h4 := h3.snoc (.arm (i := false) (t := 1) rfl rfl hfour)
  have h5 := h4.snoc (.swap (i := true) (t := 0) rfl rfl rfl hfour)
  have h6 := h5.snoc (@Lib.CasLoop.Step.fail _ _ _ _ _ _ false 1 4 rfl)
  have h7 := h6.snoc (.refuse (i := false) (t := 1) rfl rfl hfive)
  have h8 := h7.snoc (.ret (i := true) (t := 0) (o := .took 4) rfl)
  have h9 := h8.snoc (.ret (i := false) (t := 1) (o := .refused 5) rfl)
  exact ⟨_, h9, rfl, rfl, rfl⟩

/-- The theorem on the race: the thread that gave up changed nothing. -/
theorem threads_atomic_race :
    ∃ s, (CasLoop.lts (ι := Bool) (next .int32 nearMax) nearMax.value).Run raceTrace s ∧
      (1, .refused 5) ∈ s.done ∧ s.jumpsOf 1 = [] ∧ nearMax.min ≤ s.value ∧
      s.value ≤ nearMax.max := by
  obtain ⟨s, hrun, hdone, -⟩ := race_run
  have hvalid : nearMax.Valid .int32 := ⟨by decide, by decide, by decide, by decide⟩
  obtain ⟨-, hrefused, -, -, -, hbounds⟩ := threads_atomic hvalid hrun
  have hmem : (1, .refused 5) ∈ s.done := by rw [hdone]; simp
  obtain ⟨u, -, hj, -⟩ := hrefused 1 5 hmem
  exact ⟨s, hrun, hmem, hj, hbounds⟩

end HighJump.Sync.Counter
