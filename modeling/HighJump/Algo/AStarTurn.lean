/-
HighJump.Algo.AStarTurn — what one turn of `search`'s main loop can do.

`Relaxes` names what can become of one neighbour and `Turns` what can
become of a turn, each with the reason for it. The invariants of the
search are proved over these cases, so that the code of a turn is taken
apart here only.
-/
import HighJump.Algo.AStar

namespace HighJump.Algo.AStar

open HighJump.Lib

universe u

variable {L K : Type u} [LinearOrder L] [Zero K] [LinearOrder K]

/-! ## The queue -/

omit [Zero K] in
theorem pairLt_fst {a b : K × L} : (pairLt a b = true → a.1 ≤ b.1) ∧
    (pairLt a b = false → b.1 ≤ a.1) := by
  unfold pairLt
  constructor
  · intro h
    rcases of_decide_eq_true h with h | ⟨h, -⟩
    · exact le_of_lt h
    · exact not_lt.mp h
  · intro h
    exact not_lt.mp fun hlt => of_decide_eq_false h (.inl hlt)

omit [Zero K] in
theorem top_mem_le (es : List (K × L)) : ∀ e : K × L,
    top e es ∈ e :: es ∧ ∀ x ∈ e :: es, (top e es).1 ≤ x.1 := by
  induction es with
  | nil => intro e; simp [top]
  | cons y es ih =>
    intro e
    cases hlt : pairLt y e with
    | true =>
      have htop : top e (y :: es) = top y es := by simp [top, hlt]
      obtain ⟨hmem, hle⟩ := ih y
      rw [htop]
      refine ⟨List.mem_cons_of_mem _ hmem, fun x hx => ?_⟩
      rcases List.mem_cons.mp hx with rfl | hx
      · exact le_trans (hle y List.mem_cons_self) (pairLt_fst.1 hlt)
      · exact hle x hx
    | false =>
      have htop : top e (y :: es) = top e es := by simp [top, hlt]
      obtain ⟨hmem, hle⟩ := ih e
      rw [htop]
      refine ⟨?_, fun x hx => ?_⟩
      · rcases List.mem_cons.mp hmem with h | h
        · rw [h]; exact List.mem_cons_self
        · exact List.mem_cons_of_mem _ (List.mem_cons_of_mem _ h)
      · rcases List.mem_cons.mp hx with rfl | hx
        · exact hle x List.mem_cons_self
        · rcases List.mem_cons.mp hx with rfl | hx
          · exact le_trans (hle e List.mem_cons_self) (pairLt_fst.2 hlt)
          · exact hle x (List.mem_cons_of_mem _ hx)

omit [Zero K] in
/-- `get` takes a least entry out. -/
theorem get_spec {q q' : List (K × L)} {m : K × L} (h : get q = some (m, q')) :
    m ∈ q ∧ (∀ x ∈ q, m.1 ≤ x.1) ∧ q' = q.erase m := by
  cases q with
  | nil => cases h
  | cons e es =>
    obtain ⟨rfl, rfl⟩ := Prod.mk.inj (Option.some.inj h)
    obtain ⟨hmem, hle⟩ := top_mem_le es e
    exact ⟨hmem, hle, rfl⟩

omit [Zero K] in
theorem get_eq_none {q : List (K × L)} (h : get q = none) : q = [] := by
  cases q with
  | nil => rfl
  | cons e es => cases h

/-! ## One neighbour -/

/-- The state in which `v` has got the label `c` and the parent `u`. -/
def State.improve (st : State L K) (u v : L) (c : K) (p : WithTop K) : State L K :=
  { st with
    costSoFar := st.costSoFar.insert v c
    cameFrom := st.cameFrom.insert v u
    frontier := (p, v) :: st.frontier
    links := st.links ++ [(v, u)] }

section Relax

variable (grid : GridApi L K) (options : SearchOptions L K) (goal u : L) (a : K) (st : State L K)
  (v : L)

/-- What can become of the neighbour `v` of a location `u` whose cost is
`a`. -/
inductive Relaxes : Except SearchResult (State L K) → Prop
  | blocked (hv : grid.isWalkable v = false) : Relaxes (.ok st)
  | endless (hv : grid.isWalkable v = true) (hc : grid.cost u v = none) : Relaxes (.ok st)
  | overflow {w : K} (hv : grid.isWalkable v = true) (hc : grid.cost u v = some w)
      (hadd : grid.add a w = none) : Relaxes (.error .invalidCost)
  | negative {w c : K} (hv : grid.isWalkable v = true) (hc : grid.cost u v = some w)
      (hadd : grid.add a w = some c) (h0 : c < 0) : Relaxes (.error .invalidCost)
  | kept {w c old : K} (hv : grid.isWalkable v = true) (hc : grid.cost u v = some w)
      (hadd : grid.add a w = some c) (hold : st.costSoFar.lookup v = some old) (hle : old ≤ c) :
      Relaxes (.ok st)
  | unguided {w : K} (hv : grid.isWalkable v = true) (hc : grid.cost u v = some w)
      (hh : ∀ h, options.heuristic v goal = some h → h < 0) : Relaxes (.error .invalidHeuristic)
  | improved {w c h : K} (hv : grid.isWalkable v = true) (hc : grid.cost u v = some w)
      (hadd : grid.add a w = some c) (h0 : 0 ≤ c)
      (hlt : ∀ old, st.costSoFar.lookup v = some old → c < old)
      (hh : options.heuristic v goal = some h) :
      Relaxes (.ok (st.improve u v c (grid.priority c h)))

variable {grid options goal u a st}

/-- On a cheaper way the answer is up to the heuristic. -/
theorem relax_cheaper (options : SearchOptions L K) (goal : L) {v : L} {w c : K}
    (hv : grid.isWalkable v = true) (hc : grid.cost u v = some w)
    (hsub : subscript st.costSoFar u = (st.costSoFar, a)) (hadd : grid.add a w = some c)
    (h0 : ¬ c < 0) (hlt : ∀ old, st.costSoFar.lookup v = some old → c < old) :
    relax grid options goal u st v = (options.heuristic v goal).elim (.error .invalidHeuristic)
      fun h => if h < 0 then .error .invalidHeuristic
        else .ok (st.improve u v c (grid.priority c h)) := by
  simp only [relax, hv, hc, hsub, hadd, h0, Bool.not_true, Bool.false_eq_true, if_false]
  cases hl : st.costSoFar.lookup v with
  | none => cases options.heuristic v goal <;> rfl
  | some old =>
    simp only [hlt old hl, decide_true, if_true]
    cases options.heuristic v goal <;> rfl

/-- The body of the loop over the neighbours, at a labelled location. -/
theorem relax_relaxes (ha : st.costSoFar.lookup u = some a) :
    Relaxes grid options goal u a st v (relax grid options goal u st v) := by
  have hsub : subscript st.costSoFar u = (st.costSoFar, a) := by simp [subscript, ha]
  cases hv : grid.isWalkable v with
  | false =>
    rw [show relax grid options goal u st v = .ok st by simp [relax, hv]]
    exact .blocked hv
  | true =>
    cases hc : grid.cost u v with
    | none =>
      rw [show relax grid options goal u st v = .ok st by simp [relax, hv, hc]]
      exact .endless hv hc
    | some w =>
      cases hadd : grid.add a w with
      | none =>
        rw [show relax grid options goal u st v = .error .invalidCost by
          simp [relax, hv, hc, hsub, hadd]]
        exact .overflow hv hc hadd
      | some c =>
        by_cases h0 : c < 0
        · rw [show relax grid options goal u st v = .error .invalidCost by
            simp [relax, hv, hc, hsub, hadd, h0]]
          exact .negative hv hc hadd h0
        by_cases hold : ∃ old, st.costSoFar.lookup v = some old ∧ old ≤ c
        · obtain ⟨old, hold, hle⟩ := hold
          rw [show relax grid options goal u st v = .ok st by
            simp [relax, hv, hc, hsub, hadd, h0, hold, not_lt.mpr hle]]
          exact .kept hv hc hadd hold hle
        have hlt : ∀ old, st.costSoFar.lookup v = some old → c < old :=
          fun old h => not_le.mp fun hle => hold ⟨old, h, hle⟩
        have hrel := relax_cheaper options goal hv hc hsub hadd h0 hlt
        cases hh : options.heuristic v goal with
        | none =>
          rw [hrel, hh]
          exact .unguided hv hc fun h heq => by rw [hh] at heq; cases heq
        | some h =>
          rw [hrel, hh]
          by_cases hh0 : h < 0
          · rw [Option.elim_some, if_pos hh0]
            exact .unguided hv hc fun h' heq => by rw [hh] at heq; exact Option.some.inj heq ▸ hh0
          · rw [Option.elim_some, if_neg hh0]
            exact .improved hv hc hadd (not_lt.mp h0) hlt hh

end Relax

/-! ## One turn -/

section Turn

/-- The state in which a location is expanded: it is off the queue and
closed. -/
def State.expanding (st : State L K) (u : L) (q : List (WithTop K × L))
    (asked expansions : Nat) : State L K :=
  { st with frontier := q, closed := u :: st.closed, asked, expansions }

omit [Zero K] [LinearOrder K] in
theorem askCancel_state (options : SearchOptions L K) (st : State L K) :
    ∃ asked, (askCancel options st).2 = { st with asked } := by
  unfold askCancel
  cases options.shouldCancel with
  | none => exact ⟨st.asked, rfl⟩
  | some f => exact ⟨st.asked + 1, rfl⟩

omit [Zero K] [LinearOrder K] in
theorem countExpansion_state (options : SearchOptions L K) (st : State L K) :
    ∃ expansions, (countExpansion options st).2 = { st with expansions } := by
  unfold countExpansion
  split
  · exact ⟨st.expansions, rfl⟩
  · exact ⟨_, rfl⟩

omit [Zero K] [LinearOrder K] in
theorem askCancel_true {options : SearchOptions L K} {st st' : State L K}
    (h : askCancel options st = (true, st')) :
    ∃ f n, options.shouldCancel = some f ∧ f n = true := by
  unfold askCancel at h
  cases hf : options.shouldCancel with
  | none =>
    rw [hf] at h
    cases h
  | some f =>
    rw [hf] at h
    exact ⟨f, st.asked, rfl, (Prod.mk.inj h).1⟩

omit [Zero K] [LinearOrder K] in
theorem countExpansion_true {options : SearchOptions L K} {st st' : State L K}
    (h : countExpansion options st = (true, st')) : options.maxExpansions ≠ 0 := by
  intro h0
  rw [countExpansion, if_pos h0] at h
  cases h

variable (grid : GridApi L K) (options : SearchOptions L K) (goal : L) (st : State L K)

/-- What can become of a turn, beside the location it expands. -/
inductive Turns : Option L → Option (Turn (State L K) (Except SearchResult (State L K))) → Prop
  | empty (hget : get st.frontier = none) : Turns none (some (.exit (.ok st)))
  | stale {p : WithTop K} {u : L} {q : List (WithTop K × L)}
      (hget : get st.frontier = some ((p, u), q)) (hu : u ∈ st.closed) :
      Turns none (some (.again { st with frontier := q }))
  | arrived {p : WithTop K} {q : List (WithTop K × L)}
      (hget : get st.frontier = some ((p, goal), q)) (hu : goal ∉ st.closed) :
      Turns none (some (.exit (.ok { st with frontier := q, closed := goal :: st.closed })))
  | cancelled {f : Nat → Bool} {n : Nat} (hf : options.shouldCancel = some f) (hn : f n = true) :
      Turns none (some (.exit (.error .cancelled)))
  | limited (hmax : options.maxExpansions ≠ 0) :
      Turns none (some (.exit (.error .resourceLimitExceeded)))
  | thrown {p : WithTop K} {u : L} {q : List (WithTop K × L)}
      (hget : get st.frontier = some ((p, u), q)) (hu : u ∉ st.closed)
      (hns : grid.neighbors u = none) : Turns (some u) none
  | failed {p : WithTop K} {u : L} {q : List (WithTop K × L)} {asked n : Nat} {ns : List L}
      {r : SearchResult} (hget : get st.frontier = some ((p, u), q)) (hu : u ∉ st.closed)
      (hns : grid.neighbors u = some ns)
      (hrel : relaxAll grid options goal u (st.expanding u q asked n) ns = .error r) :
      Turns (some u) (some (.exit (.error r)))
  | expanded {p : WithTop K} {u : L} {q : List (WithTop K × L)} {asked n : Nat} {ns : List L}
      {st' : State L K} (hget : get st.frontier = some ((p, u), q)) (hu : u ∉ st.closed)
      (hgoal : u ≠ goal) (hns : grid.neighbors u = some ns)
      (hrel : relaxAll grid options goal u (st.expanding u q asked n) ns = .ok st') :
      Turns (some u) (some (.again st'))

/-- **What a turn of the main loop can do.** -/
theorem searchTurn_turns :
    ∃ x r, expands options goal st = x ∧ searchTurn grid options goal st = r ∧
      Turns grid options goal st x r := by
  cases hget : get st.frontier with
  | none => exact ⟨_, _, by simp [expands, hget], by simp [searchTurn, hget], .empty hget⟩
  | some e =>
    obtain ⟨⟨p, u⟩, q⟩ := e
    by_cases hu : u ∈ st.closed
    · exact ⟨_, _, by simp [expands, hget, hu], by simp [searchTurn, hget, hu], .stale hget hu⟩
    by_cases hg : u = goal
    · subst hg
      refine ⟨_, _, by simp [expands, hget], ?_, .arrived hget hu⟩
      simp only [searchTurn, hget, hu, if_false, if_true]
    obtain ⟨asked, hasked⟩ :=
      askCancel_state options { st with frontier := q, closed := u :: st.closed }
    cases hask : askCancel options { st with frontier := q, closed := u :: st.closed } with
    | mk cancel st₂ =>
      rw [hask] at hasked
      cases cancel with
      | true =>
        obtain ⟨f, n, hf, hn⟩ := askCancel_true hask
        exact ⟨_, _, by simp [expands, hget, hu, hg, hask],
          by simp [searchTurn, hget, hu, hg, hask], .cancelled hf hn⟩
      | false =>
        obtain ⟨n, hn⟩ := countExpansion_state options st₂
        cases hcount : countExpansion options st₂ with
        | mk limit st₃ =>
          rw [hcount] at hn
          cases limit with
          | true =>
            exact ⟨_, _, by simp [expands, hget, hu, hg, hask, hcount],
              by simp [searchTurn, hget, hu, hg, hask, hcount],
              .limited (countExpansion_true hcount)⟩
          | false =>
            have hex : expands options goal st = some u := by
              simp [expands, hget, hu, hg, hask, hcount]
            have hst : st₃ = st.expanding u q asked n := by
              rw [show st₃ = { st₂ with expansions := n } from hn, show st₂ = _ from hasked]
              rfl
            rw [hst] at hcount
            cases hns : grid.neighbors u with
            | none =>
              exact ⟨_, _, hex, by simp [searchTurn, hget, hu, hg, hask, hcount, hns],
                .thrown hget hu hns⟩
            | some ns =>
              cases hrel : relaxAll grid options goal u (st.expanding u q asked n) ns with
              | error r =>
                exact ⟨_, _, hex, by simp [searchTurn, hget, hu, hg, hask, hcount, hns, hrel],
                  .failed hget hu hns hrel⟩
              | ok st' =>
                exact ⟨_, _, hex, by simp [searchTurn, hget, hu, hg, hask, hcount, hns, hrel],
                  .expanded hget hu hg hns hrel⟩

end Turn

end HighJump.Algo.AStar
