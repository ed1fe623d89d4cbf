/-
HighJump.Algo.AStarLimit — raising `max_expansions` changes no answer
that did not come from the limit.

A search with limit `N` and one with a larger limit, or with none, go
through the same states but for the counter: `Alike` pairs them. The
counter itself is the same wherever it is counted, so the larger limit is
not passed before the smaller one is; `++expansions` wraps at 2^64 on
both sides alike.
-/
import HighJump.Algo.AStarTurn
import Mathlib.Algebra.Ring.Int.Defs

namespace HighJump.Algo.AStar

open HighJump.Lib

universe u

variable {L K : Type u} [LinearOrder L] [Zero K] [LinearOrder K]

/-- The same options with another limit. -/
def SearchOptions.limit (options : SearchOptions L K) (n : Nat) : SearchOptions L K :=
  { options with maxExpansions := n }

/-- The same state with another count. -/
def State.counting (st : State L K) (n : Nat) : State L K := { st with expansions := n }

/-! ## The counter beside the search -/

section Relax

variable (grid : GridApi L K) (options : SearchOptions L K) (goal u : L) (N n : Nat)

/-- A neighbour is treated the same whatever the limit and the count. -/
theorem relax_counting (st : State L K) (v : L) :
    relax grid (options.limit N) goal u (st.counting n) v =
      (relax grid options goal u st v).map (·.counting n) := by
  unfold relax State.counting SearchOptions.limit
  split
  · rfl
  cases grid.cost u v with
  | none => rfl
  | some w =>
    dsimp only
    cases grid.add (subscript st.costSoFar u).2 w with
    | none => rfl
    | some c =>
      dsimp only
      by_cases h0 : c < 0
      · rw [if_pos h0, if_pos h0]
        rfl
      rw [if_neg h0, if_neg h0, apply_ite (Except.map _)]
      congr 1
      cases options.heuristic v goal with
      | none => rfl
      | some h =>
        dsimp only
        rw [apply_ite (Except.map _)]
        rfl

theorem relaxAll_counting (ns : List L) : ∀ st : State L K,
    relaxAll grid (options.limit N) goal u (st.counting n) ns =
      (relaxAll grid options goal u st ns).map (·.counting n) := by
  induction ns with
  | nil => intro st; rfl
  | cons v ns ih =>
    intro st
    simp only [relaxAll, relax_counting]
    cases relax grid options goal u st v with
    | error r => rfl
    | ok st' => exact ih st'

end Relax

/-! ## Searches in lockstep -/

section Lockstep

variable (grid : GridApi L K) (options : SearchOptions L K) (goal : L) {N M : Nat}

/-- What a search with limit `M` makes of a state of the limited one: the
count is the same, if it is kept at all. -/
def Alike (M : Nat) (st st' : State L K) : Prop :=
  ∃ n, st' = st.counting n ∧ (M = 0 ∨ n = st.expansions)

omit [Zero K] [LinearOrder K] in
/-- `should_cancel` is asked as often, and answers the same. -/
theorem askCancel_alike {st st' : State L K} (hst : Alike M st st') :
    ∃ c st₁ st₂, askCancel (options.limit N) st = (c, st₁) ∧
      askCancel (options.limit M) st' = (c, st₂) ∧ Alike M st₁ st₂ := by
  obtain ⟨n, rfl, hn⟩ := hst
  unfold askCancel
  simp only [SearchOptions.limit]
  cases options.shouldCancel with
  | none => exact ⟨_, _, _, rfl, rfl, n, rfl, hn⟩
  | some f => exact ⟨_, _, _, rfl, rfl, n, rfl, hn⟩

omit [Zero K] [LinearOrder K] in
theorem countExpansion_limit (n : Nat) (st : State L K) :
    countExpansion (options.limit n) st =
      if n = 0 then (false, st)
      else (decide ((st.expansions + 1) % 2 ^ 64 > n),
        st.counting ((st.expansions + 1) % 2 ^ 64)) :=
  rfl

omit [Zero K] [LinearOrder K] in
/-- Where the smaller limit is not passed, the larger one is not. -/
theorem countExpansion_alike (hN : 0 < N) (hM : M = 0 ∨ N ≤ M) {st st₁ st' : State L K}
    (hst : Alike M st st') (h : countExpansion (options.limit N) st = (false, st₁)) :
    ∃ st₂, countExpansion (options.limit M) st' = (false, st₂) ∧ Alike M st₁ st₂ := by
  obtain ⟨n, rfl, hn⟩ := hst
  rw [countExpansion_limit, if_neg (Nat.pos_iff_ne_zero.mp hN)] at h
  obtain ⟨hle, rfl⟩ := Prod.mk.inj h
  by_cases h0 : M = 0
  · exact ⟨st.counting n, if_pos h0, n, rfl, .inl h0⟩
  obtain rfl : n = st.expansions := hn.resolve_left h0
  refine ⟨st.counting ((st.expansions + 1) % 2 ^ 64), ?_, _, rfl, .inr rfl⟩
  have hnot : ¬ (st.expansions + 1) % 2 ^ 64 > M := fun hgt =>
    of_decide_eq_false hle (Nat.lt_of_le_of_lt (hM.resolve_left h0) hgt)
  rw [countExpansion_limit, if_neg h0]
  exact congrArg (·, _) (decide_eq_false hnot)

/-- What the turns of two searches in lockstep come to. -/
inductive TurnAlike (M : Nat) : Turn (State L K) (Except SearchResult (State L K)) →
    Turn (State L K) (Except SearchResult (State L K)) → Prop
  | again {st st' : State L K} (h : Alike M st st') : TurnAlike M (.again st) (.again st')
  | left {st st' : State L K} (h : Alike M st st') : TurnAlike M (.exit (.ok st)) (.exit (.ok st'))
  | returned (r : SearchResult) : TurnAlike M (.exit (.error r)) (.exit (.error r))

/-- The part of a turn after the counter. -/
theorem relaxAll_alike (u : L) (ns : List L) {st st' : State L K} (hst : Alike M st st') :
    (∃ r, relaxAll grid (options.limit N) goal u st ns = .error r ∧
      relaxAll grid (options.limit M) goal u st' ns = .error r) ∨
    ∃ st₁ st₂, relaxAll grid (options.limit N) goal u st ns = .ok st₁ ∧
      relaxAll grid (options.limit M) goal u st' ns = .ok st₂ ∧ Alike M st₁ st₂ := by
  obtain ⟨n, rfl, hn⟩ := hst
  have hN := relaxAll_counting grid options goal u N st.expansions ns st
  have hM := relaxAll_counting grid options goal u M n ns st
  rw [show st.counting st.expansions = st from rfl] at hN
  cases hrel : relaxAll grid options goal u st ns with
  | error r =>
    rw [hrel] at hN hM
    exact .inl ⟨r, hN, hM⟩
  | ok st₁ =>
    rw [hrel] at hN hM
    exact .inr ⟨_, _, hN, hM, n, rfl, hn⟩

/-- **Two searches take their turns in lockstep** until the smaller limit
is passed. -/
theorem searchTurn_alike (hN : 0 < N) (hM : M = 0 ∨ N ≤ M) {st st' : State L K}
    (hst : Alike M st st') {t : Turn (State L K) (Except SearchResult (State L K))}
    (h : searchTurn grid (options.limit N) goal st = some t)
    (ht : t ≠ .exit (.error .resourceLimitExceeded)) :
    ∃ t', searchTurn grid (options.limit M) goal st' = some t' ∧ TurnAlike M t t' := by
  obtain ⟨n, rfl, hn⟩ := hst
  have hfront : (st.counting n).frontier = st.frontier := rfl
  have hclosed : (st.counting n).closed = st.closed := rfl
  unfold searchTurn at h ⊢
  rw [hfront, hclosed]
  cases hget : get st.frontier with
  | none =>
    rw [hget] at h
    obtain rfl := Option.some.inj h
    exact ⟨_, rfl, .left ⟨n, rfl, hn⟩⟩
  | some e =>
    obtain ⟨⟨p, u⟩, q⟩ := e
    rw [hget] at h
    dsimp only at h ⊢
    by_cases hu : u ∈ st.closed
    · rw [if_pos hu] at h ⊢
      obtain rfl := Option.some.inj h
      exact ⟨_, rfl, .again ⟨n, rfl, hn⟩⟩
    rw [if_neg hu] at h ⊢
    by_cases hg : u = goal
    · rw [if_pos hg] at h ⊢
      obtain rfl := Option.some.inj h
      exact ⟨_, rfl, .left ⟨n, rfl, hn⟩⟩
    rw [if_neg hg] at h ⊢
    have halike : Alike M { st with frontier := q, closed := u :: st.closed }
        (State.counting { st with frontier := q, closed := u :: st.closed } n) := ⟨n, rfl, hn⟩
    obtain ⟨c, st₁, st₂, hask, hask', hst⟩ := askCancel_alike options (N := N) halike
    rw [show ({ st.counting n with frontier := q, closed := u :: st.closed } : State L K) =
      State.counting { st with frontier := q, closed := u :: st.closed } n from rfl, hask']
    rw [hask] at h
    dsimp only at h ⊢
    cases c with
    | true =>
      obtain rfl := Option.some.inj h
      exact ⟨_, rfl, .returned _⟩
    | false =>
      cases hcount : countExpansion (options.limit N) st₁ with
      | mk passed st₃ =>
        rw [hcount] at h
        cases passed with
        | true =>
          obtain rfl := Option.some.inj h
          exact absurd rfl ht
        | false =>
          obtain ⟨st₄, hcount', hst⟩ := countExpansion_alike options hN hM hst hcount
          rw [hcount']
          dsimp only at h ⊢
          cases hns : grid.neighbors u with
          | none =>
            rw [hns] at h
            cases h
          | some ns =>
            rw [hns] at h
            rcases relaxAll_alike grid options goal (N := N) u ns hst with
              ⟨r, hrel, hrel'⟩ | ⟨st₅, st₆, hrel, hrel', hst⟩
            · simp only [hrel, Bool.false_eq_true, if_false] at h
              simp only [hrel', Bool.false_eq_true, if_false]
              obtain rfl := Option.some.inj h
              exact ⟨_, rfl, .returned r⟩
            · simp only [hrel, Bool.false_eq_true, if_false] at h
              simp only [hrel', Bool.false_eq_true, if_false]
              obtain rfl := Option.some.inj h
              exact ⟨_, rfl, .again hst⟩

/-- What the two main loops come to. -/
theorem mainLoop_alike (hN : 0 < N) (hM : M = 0 ∨ N ≤ M) (start : L) {fuel : Nat}
    {r : Except SearchResult (State L K)}
    (h : repeatUntil (fun _ st => searchTurn grid (options.limit N) goal st) fuel (initial start) =
      some r)
    (hr : r ≠ .error .resourceLimitExceeded) :
    ∃ r', repeatUntil (fun _ st => searchTurn grid (options.limit M) goal st) fuel (initial start) =
      some r' ∧ TurnAlike M (.exit r) (.exit r') := by
  refine repeatUntil_lockstep (Alike M) (· ≠ .error .resourceLimitExceeded)
    (fun r r' => TurnAlike M (.exit r) (.exit r')) ?_ ?_ fuel _ _ r ⟨0, rfl, .inr rfl⟩ h hr
  · intro _ st st₁ st' hst hturn
    obtain ⟨t', hturn', halike⟩ := searchTurn_alike grid options goal hN hM hst hturn
      (fun heq => by cases heq)
    cases halike with
    | again hst₁ => exact ⟨_, hturn', hst₁⟩
  · intro _ st r st' hst hturn hr
    obtain ⟨t', hturn', halike⟩ := searchTurn_alike grid options goal hN hM hst hturn
      (fun heq => hr (Turn.exit.inj heq))
    cases halike with
    | left hst₁ => exact ⟨_, hturn', .left hst₁⟩
    | returned e => exact ⟨_, hturn', .returned e⟩

end Lockstep

/-- **The expansion limit is monotone.** An answer that a search with limit
`N` gives for another reason than its limit is the answer, with the same
path, under every larger limit and under none, whatever the grid, the
heuristic, the rounding of its costs and the answers of `should_cancel`. -/
theorem search_limit_mono (grid : GridApi L K) (options : SearchOptions L K) (start goal : L)
    {N M : Nat} (hN : 0 < N) (hM : M = 0 ∨ N ≤ M) {fuel : Nat} {r : SearchResult} {p : List L}
    (h : search grid { options with maxExpansions := N } start goal fuel = some (r, p))
    (hr : r ≠ .resourceLimitExceeded) :
    search grid { options with maxExpansions := M } start goal fuel = some (r, p) := by
  unfold search at h ⊢
  split
  · rwa [if_pos ‹_›] at h
  rw [if_neg ‹_›] at h
  split
  · rwa [if_pos ‹_›] at h
  rw [if_neg ‹_›] at h
  split
  · rwa [if_pos ‹_›] at h
  rw [if_neg ‹_›] at h
  cases hloop : repeatUntil (fun _ st => searchTurn grid (options.limit N) goal st) fuel
      (initial start) with
  | none =>
    rw [SearchOptions.limit] at hloop
    rw [hloop] at h
    cases h
  | some e =>
    have hkeep : e ≠ .error .resourceLimitExceeded := by
      rintro rfl
      rw [SearchOptions.limit] at hloop
      rw [hloop] at h
      exact hr (Prod.mk.inj (Option.some.inj h)).1.symm
    obtain ⟨e', hloop', halike⟩ := mainLoop_alike grid options goal hN hM start hloop hkeep
    rw [SearchOptions.limit] at hloop hloop'
    rw [hloop] at h
    rw [hloop']
    cases halike with
    | left hst =>
      -- only the counter differs, and the path is read off `came_from`
      obtain ⟨n, rfl, -⟩ := hst
      exact h
    | returned e => exact h

/-- Five locations in a row. -/
def corridor : Grid ℕ ℤ :=
  ((((Grid.empty.addLocation 0 [1]).addLocation 1 [0, 2]).addLocation 2 [1, 3]).addLocation 3
    [2, 4]).addLocation 4 [3]

/-- Where sums beyond two overflow. -/
def lowCorridor : GridApi ℕ ℤ :=
  { corridor.api with add := fun a b => if a + b ≤ 2 then some (a + b) else none }

/-- Four expansions are enough to walk the corridor, three are not; and
three come to the overflow. -/
theorem search_limit_mono_corridor :
    search corridor.api ⟨fun _ _ => some 0, 3, some fun _ => false⟩ 0 4 8 =
      some (.resourceLimitExceeded, []) ∧
    search corridor.api ⟨fun _ _ => some 0, 4, some fun _ => false⟩ 0 4 8 =
      some (.found, [0, 1, 2, 3, 4]) ∧
    search corridor.api ⟨fun _ _ => some 0, 2 ^ 64 - 1, some fun _ => false⟩ 0 4 8 =
      some (.found, [0, 1, 2, 3, 4]) ∧
    search corridor.api ⟨fun _ _ => some 0, 0, some fun _ => false⟩ 0 4 8 =
      some (.found, [0, 1, 2, 3, 4]) ∧
    search lowCorridor ⟨fun _ _ => some 0, 0, some fun _ => false⟩ 0 4 8 =
      some (.invalidCost, []) := by
  have hfour : search corridor.api ⟨fun _ _ => some 0, 4, some fun _ => false⟩ 0 4 8 =
      some (.found, [0, 1, 2, 3, 4]) := by decide
  have hlow : search lowCorridor ⟨fun _ _ => some 0, 3, some fun _ => false⟩ 0 4 8 =
      some (.invalidCost, []) := by decide
  exact ⟨by decide, hfour,
    search_limit_mono corridor.api ⟨fun _ _ => some 0, 4, some fun _ => false⟩ 0 4 (by decide)
      (.inr (by decide)) hfour (by decide),
    search_limit_mono corridor.api ⟨fun _ _ => some 0, 4, some fun _ => false⟩ 0 4 (by decide)
      (.inl rfl) hfour (by decide),
    search_limit_mono lowCorridor ⟨fun _ _ => some 0, 3, some fun _ => false⟩ 0 4 (by decide)
      (.inl rfl) hlow (by decide)⟩

end HighJump.Algo.AStar
