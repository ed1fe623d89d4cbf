/-
HighJump.Algo.AStarTheorems — with a consistent heuristic, `search` finds
a cheapest path, and finds none only when there is none.

The invariant (`Inv`) is the closed-set one. Closed locations carry
optimal costs, every edge out of them has been relaxed, and no frontier
entry has a priority below theirs; every labelled location that is not
closed has its current cost in the frontier, whatever stale entries lie
beside it. `pop_optimal` (`Lib/Paths`) then makes the popped location's
cost optimal, and an optimal cost is never overwritten: that is why
closing on first pop is safe and why `came_from` is a tree in the order
of closing, zero-cost edges and ties included.
-/
import HighJump.Algo.AStarTurn
import HighJump.Lib.Paths
import Mathlib.Algebra.BigOperators.Group.Finset.Basic

namespace HighJump.Algo.AStar

open HighJump.Lib HighJump.Lib.Paths

universe u

variable {L K : Type u} [LinearOrder L] [CommRing K] [LinearOrder K]

/-! ## Walkable edges and the heuristic -/

variable (g : Grid L K)

/-- A step between walkable locations, and what it costs. -/
def Grid.Edge (x y : L) (w : K) : Prop :=
  g.isWalkable x = true ∧ g.isWalkable y = true ∧ (∃ ns, g.neighbors x = some ns ∧ y ∈ ns) ∧
    g.cost x y = some w

/-- A heuristic that is non-negative, consistent on the walkable edges and
zero at the goal. -/
structure Consistent (goal : L) (h : L → L → Option K) : Prop where
  nonneg : ∀ x, g.isWalkable x = true → ∃ v, h x goal = some v ∧ 0 ≤ v
  step : ∀ x y w a b, g.Edge x y w → h x goal = some a → h y goal = some b → a ≤ w + b
  goal : h goal goal = some 0

variable {g}

theorem Grid.neighbors_of_walkable {x : L} (h : g.isWalkable x = true) :
    ∃ ns, g.neighbors x = some ns := by
  simp only [Grid.isWalkable, Bool.and_eq_true] at h
  exact Option.isSome_iff_exists.mp h.1

/-- A walkable location costs something finite to enter. -/
theorem Grid.cost_of_walkable (x : L) {y : L} (h : g.isWalkable y = true) :
    ∃ w, g.cost x y = some w := by
  simp only [Grid.isWalkable, Bool.and_eq_true, decide_eq_true_eq] at h
  unfold Grid.cost
  rw [if_neg h.2]
  cases g.edgeWeights.lookup (x, y) with
  | none => exact ⟨1, rfl⟩
  | some w => exact ⟨w, rfl⟩

variable [IsStrictOrderedRing K]

theorem Grid.Edge.nonneg {x y : L} {w : K} (h : g.Edge x y w) : 0 ≤ w := by
  have hc := h.2.2.2
  unfold Grid.cost at hc
  split at hc
  · cases hc
  · cases hw : g.edgeWeights.lookup (x, y) with
    | none =>
      rw [hw] at hc
      rw [← Option.some.inj hc]
      exact zero_le_one
    | some v =>
      rw [hw] at hc
      rw [← Option.some.inj hc]
      exact g.weights_nonneg _ _ hw

/-- The heuristic as a potential. -/
def potential (h : L → L → Option K) (goal x : L) : K := (h x goal).getD 0

omit [IsStrictOrderedRing K] in
theorem Consistent.potential_le {goal : L} {h : L → L → Option K} (hh : Consistent g goal h) :
    ∀ x y w, g.Edge x y w → potential h goal x ≤ w + potential h goal y := by
  intro x y w he
  obtain ⟨a, ha, -⟩ := hh.nonneg x he.1
  obtain ⟨b, hb, -⟩ := hh.nonneg y he.2.1
  simpa [potential, ha, hb] using hh.step x y w a b he ha hb

omit [IsStrictOrderedRing K] in
theorem Consistent.heuristic_eq {goal : L} {h : L → L → Option K} (hh : Consistent g goal h)
    {x : L} (hx : g.isWalkable x = true) :
    h x goal = some (potential h goal x) ∧ 0 ≤ potential h goal x := by
  obtain ⟨v, hv, h0⟩ := hh.nonneg x hx
  simpa [potential, hv] using h0

/-! ## The invariant -/

/-- What holds between two steps of the search. `todo u v` are the edges
out of closed locations that are still to be relaxed. -/
structure Inv (g : Grid L K) (φ : L → K) (start : L) (todo : L → L → Prop) (st : State L K) :
    Prop where
  start_label : st.costSoFar.lookup start = some 0
  start_closed : start ∈ st.closed
  nodup : st.closed.Nodup
  route : ∀ x c, st.costSoFar.lookup x = some c → ∃ p, Route g.Edge start x p c
  closed_label : ∀ u ∈ st.closed, ∃ a, st.costSoFar.lookup u = some a
  optimal : ∀ u ∈ st.closed, ∀ a p c, st.costSoFar.lookup u = some a →
    Route g.Edge start u p c → a ≤ c
  relaxed : ∀ u a v w, u ∈ st.closed → st.costSoFar.lookup u = some a → g.Edge u v w →
    ¬ todo u v → ∃ b, st.costSoFar.lookup v = some b ∧ b ≤ a + w
  came : ∀ x, (st.cameFrom.lookup x).isSome ↔ (st.costSoFar.lookup x).isSome
  parent : ∀ x y, st.cameFrom.lookup x = some y → x ≠ start → y ∈ st.closed ∧
    ∃ a w, st.costSoFar.lookup y = some a ∧ g.Edge y x w ∧ st.costSoFar.lookup x = some (a + w)
  older : ∀ newer x old, st.closed = newer ++ x :: old → x ≠ start →
    ∃ y ∈ old, st.cameFrom.lookup x = some y
  entry : ∀ p x, (p, x) ∈ st.frontier →
    ∃ c, st.costSoFar.lookup x = some c ∧ ((c + φ x : K) : WithTop K) ≤ p
  pending : ∀ x c, st.costSoFar.lookup x = some c → x ∉ st.closed →
    (((c + φ x : K) : WithTop K), x) ∈ st.frontier

section Inv

variable {φ : L → K} {start : L} {todo todo' : L → L → Prop} {st : State L K}

omit [IsStrictOrderedRing K] in
/-- The edges still to be relaxed may be counted in another way. -/
theorem Inv.todo_mono (hi : Inv g φ start todo st)
    (h : ∀ u a v w, u ∈ st.closed → st.costSoFar.lookup u = some a → g.Edge u v w → ¬ todo' u v →
      todo u v → ∃ b, st.costSoFar.lookup v = some b ∧ b ≤ a + w) :
    Inv g φ start todo' st :=
  { hi with
    relaxed := fun u a v w hu ha he hn => by
      by_cases ht : todo u v
      · exact h u a v w hu ha he hn ht
      · exact hi.relaxed u a v w hu ha he ht }

omit [IsStrictOrderedRing K] in
theorem Inv.relaxed_all (hi : Inv g φ start (fun _ _ => False) st) :
    Relaxed g.Edge (· ∈ st.closed) (fun x => st.costSoFar.lookup x) :=
  fun x b y w hx hb he => hi.relaxed x b y w hx hb he id

omit [IsStrictOrderedRing K] in
/-- A cheaper way into a location is never found once it is closed. -/
theorem Inv.not_closed (hi : Inv g φ start todo st) {u v : L} {a w : K}
    (ha : st.costSoFar.lookup u = some a) (he : g.Edge u v w)
    (hlt : ∀ old, st.costSoFar.lookup v = some old → a + w < old) : v ∉ st.closed := by
  intro hv
  obtain ⟨old, hold⟩ := hi.closed_label v hv
  obtain ⟨p, hp⟩ := hi.route u a ha
  exact absurd (hi.optimal v hv old _ _ hold (hp.snoc he)) (not_le.mpr (hlt old hold))

/-- Labelling `v` through a closed `u` keeps the invariant. -/
theorem Inv.improve (hi : Inv g φ start todo st) {u v : L} {a w : K} (hu : u ∈ st.closed)
    (ha : st.costSoFar.lookup u = some a) (he : g.Edge u v w)
    (hlt : ∀ old, st.costSoFar.lookup v = some old → a + w < old) :
    Inv g φ start (fun x y => todo x y ∧ ¬ (x = u ∧ y = v))
      (st.improve u v (a + w) (a + w + φ v : K)) := by
  have hv : v ∉ st.closed := hi.not_closed ha he hlt
  have hne : ∀ x, x ∈ st.closed → x ≠ v := fun x hx hxv => hv (hxv ▸ hx)
  -- the label of a closed location is the one before
  have hold : ∀ x, x ∈ st.closed →
      (st.costSoFar.insert v (a + w)).lookup x = st.costSoFar.lookup x :=
    fun x hx => AList.lookup_insert_ne (hne x hx)
  unfold State.improve
  constructor
  case start_closed => exact hi.start_closed
  case nodup => exact hi.nodup
  case start_label =>
    exact (hold start hi.start_closed).trans hi.start_label
  case route =>
    intro x c hx
    by_cases hxv : x = v
    · subst hxv
      rw [AList.lookup_insert] at hx
      obtain ⟨p, hp⟩ := hi.route u a ha
      exact ⟨_, Option.some.inj hx ▸ hp.snoc he⟩
    · rw [AList.lookup_insert_ne hxv] at hx
      exact hi.route x c hx
  case closed_label =>
    intro x hx
    obtain ⟨b, hb⟩ := hi.closed_label x hx
    exact ⟨b, (hold x hx).trans hb⟩
  case optimal =>
    intro x hx b p c hb hr
    exact hi.optimal x hx b p c ((hold x hx).symm.trans hb) hr
  case relaxed =>
    intro x b y w' hx hb he' hn
    have hb' : st.costSoFar.lookup x = some b := (hold x hx).symm.trans hb
    by_cases hyv : y = v
    · subst hyv
      refine ⟨a + w, AList.lookup_insert _, ?_⟩
      by_cases hxu : x = u
      · -- the edge just relaxed
        subst hxu
        rw [ha] at hb'
        rw [← Option.some.inj hb', Option.some.inj (he.2.2.2.symm.trans he'.2.2.2)]
      · obtain ⟨d, hd, hle⟩ := hi.relaxed x b y w' hx hb' he' fun ht => hn ⟨ht, fun h => hxu h.1⟩
        exact le_of_lt (lt_of_lt_of_le (hlt d hd) hle)
    · obtain ⟨d, hd, hle⟩ := hi.relaxed x b y w' hx hb' he' fun ht => hn ⟨ht, fun h => hyv h.2⟩
      exact ⟨d, (AList.lookup_insert_ne hyv).trans hd, hle⟩
  case came =>
    intro x
    by_cases hxv : x = v
    · subst hxv
      simp
    · simpa [AList.lookup_insert_ne hxv] using hi.came x
  case parent =>
    intro x y hxy hxs
    by_cases hxv : x = v
    · subst hxv
      rw [AList.lookup_insert] at hxy
      obtain rfl := Option.some.inj hxy
      exact ⟨hu, a, w, (hold _ hu).trans ha, he, AList.lookup_insert _⟩
    · rw [AList.lookup_insert_ne hxv] at hxy
      obtain ⟨hy, b, w', hb, he', hx⟩ := hi.parent x y hxy hxs
      exact ⟨hy, b, w', (hold y hy).trans hb, he', (AList.lookup_insert_ne hxv).trans hx⟩
  case older =>
    intro newer x old hcl hxs
    obtain ⟨y, hy, hxy⟩ := hi.older newer x old hcl hxs
    have hx : x ∈ st.closed := by rw [hcl]; simp
    exact ⟨y, hy, (AList.lookup_insert_ne (hne x hx)).trans hxy⟩
  case entry =>
    intro p x hx
    by_cases hxv : x = v
    · subst hxv
      refine ⟨a + w, AList.lookup_insert _, ?_⟩
      rcases List.mem_cons.mp hx with h | h
      · rw [(Prod.mk.inj h).1]
      · obtain ⟨c, hc, hle⟩ := hi.entry p x h
        have hlower : a + w + φ x ≤ c + φ x := by linarith [hlt c hc]
        exact (WithTop.coe_le_coe.mpr hlower).trans hle
    · rw [AList.lookup_insert_ne hxv]
      rcases List.mem_cons.mp hx with h | h
      · exact absurd (Prod.mk.inj h).2 hxv
      · exact hi.entry p x h
  case pending =>
    intro x c hx hcl
    by_cases hxv : x = v
    · subst hxv
      rw [AList.lookup_insert] at hx
      rw [← Option.some.inj hx]
      exact List.mem_cons_self
    · rw [AList.lookup_insert_ne hxv] at hx
      exact List.mem_cons_of_mem _ (hi.pending x c hx hcl)

/-- Closing the location popped keeps the invariant; all its edges are
then still to be relaxed. -/
theorem Inv.close (hi : Inv g φ start (fun _ _ => False) st)
    (hφ : ∀ x y w, g.Edge x y w → φ x ≤ w + φ y) {p : WithTop K} {u : L}
    (hmem : (p, u) ∈ st.frontier) (hmin : ∀ e ∈ st.frontier, p ≤ e.1) (hu : u ∉ st.closed) :
    Inv g φ start (fun x _ => x = u)
      { st with frontier := st.frontier.erase (p, u), closed := u :: st.closed } := by
  obtain ⟨a, ha, hap⟩ := hi.entry p u hmem
  have hopt : ∀ q c, Route g.Edge start u q c → a ≤ c := by
    intro q c hr
    refine pop_optimal hi.relaxed_all hφ hi.start_closed hi.start_label hu (fun v b hv hb => ?_) hr
    exact WithTop.coe_le_coe.mp (hap.trans (hmin _ (hi.pending v b hb hv)))
  have hus : u ≠ start := fun h => hu (h ▸ hi.start_closed)
  constructor
  case start_label => exact hi.start_label
  case start_closed => exact List.mem_cons_of_mem _ hi.start_closed
  case nodup => exact List.nodup_cons.mpr ⟨hu, hi.nodup⟩
  case route => exact hi.route
  case came => exact hi.came
  case closed_label =>
    intro x hx
    rcases List.mem_cons.mp hx with rfl | hx
    · exact ⟨a, ha⟩
    · exact hi.closed_label x hx
  case optimal =>
    intro x hx b q c hb hr
    rcases List.mem_cons.mp hx with rfl | hx
    · rw [ha] at hb
      exact Option.some.inj hb ▸ hopt q c hr
    · exact hi.optimal x hx b q c hb hr
  case relaxed =>
    intro x b y w hx hb he hn
    rcases List.mem_cons.mp hx with rfl | hx
    · exact absurd rfl hn
    · exact hi.relaxed x b y w hx hb he id
  case parent =>
    intro x y hxy hxs
    obtain ⟨hy, h⟩ := hi.parent x y hxy hxs
    exact ⟨List.mem_cons_of_mem _ hy, h⟩
  case older =>
    intro newer x old hcl hxs
    cases newer with
    | nil =>
      obtain ⟨rfl, rfl⟩ := List.cons.inj hcl
      obtain ⟨y, hy⟩ := Option.isSome_iff_exists.mp ((hi.came u).mpr (by simp [ha]))
      exact ⟨y, (hi.parent u y hy hxs).1, hy⟩
    | cons z newer =>
      exact hi.older newer x old (List.cons.inj hcl).2 hxs
  case entry =>
    intro q x hx
    exact hi.entry q x (List.mem_of_mem_erase hx)
  case pending =>
    intro x c hx hcl
    obtain ⟨hxu, hcl⟩ := not_or.mp (mt List.mem_cons.mpr hcl)
    exact (List.mem_erase_of_ne fun h => hxu (Prod.mk.inj h).2).mpr (hi.pending x c hx hcl)

omit [IsStrictOrderedRing K] in
/-- Dropping an entry of a closed location keeps the invariant. -/
theorem Inv.drop (hi : Inv g φ start todo st) {p : WithTop K} {u : L} (hu : u ∈ st.closed) :
    Inv g φ start todo { st with frontier := st.frontier.erase (p, u) } :=
  { hi with
    entry := fun q x hx => hi.entry q x (List.mem_of_mem_erase hx)
    pending := fun x c hx hcl => by
      have hxu : x ≠ u := fun h => hcl (h ▸ hu)
      exact (List.mem_erase_of_ne fun h => hxu (Prod.mk.inj h).2).mpr (hi.pending x c hx hcl) }

/-- The invariant after the start location has been closed. -/
theorem inv_initial (asked expansions : Nat) :
    Inv g φ start (fun x _ => x = start)
      { (initial start : State L K) with frontier := [], closed := [start], asked, expansions } := by
  have hlab : ∀ x c, ((initial start : State L K).costSoFar).lookup x = some c → x = start ∧ c = 0 := by
    intro x c h
    by_cases hx : x = start
    · subst hx
      rw [initial, AList.lookup_insert] at h
      exact ⟨rfl, (Option.some.inj h).symm⟩
    · rw [initial, AList.lookup_insert_ne hx] at h
      cases h
  constructor
  case start_label => exact AList.lookup_insert _
  case start_closed => exact List.mem_singleton_self _
  case nodup => exact List.nodup_singleton _
  case route =>
    intro x c h
    obtain ⟨rfl, rfl⟩ := hlab x c h
    exact ⟨_, .refl x⟩
  case closed_label =>
    intro x hx
    rw [List.mem_singleton.mp hx]
    exact ⟨0, AList.lookup_insert _⟩
  case optimal =>
    intro x _ a p c ha hr
    rw [(hlab x a ha).2]
    exact hr.cost_nonneg fun _ _ _ he => he.nonneg
  case relaxed =>
    intro x a y w hx _ _ hn
    exact absurd (List.mem_singleton.mp hx) hn
  case came =>
    intro x
    by_cases hx : x = start
    · subst hx
      simp only [initial, AList.lookup_insert, Option.isSome_some]
    · simp only [initial, AList.lookup_insert_ne hx, AList.lookup_empty, Option.isSome_none]
  case parent =>
    intro x y h hx
    rw [initial, AList.lookup_insert_ne hx] at h
    cases h
  case older =>
    intro newer x old hcl hx
    have hmem : x ∈ [start] := by rw [show [start] = newer ++ x :: old from hcl]; simp
    exact absurd (List.mem_singleton.mp hmem) hx
  case entry =>
    intro p x hx
    cases hx
  case pending =>
    intro x c h hx
    exact absurd (List.mem_singleton.mpr (hlab x c h).1) hx

end Inv

/-! ## The neighbours of one location -/

section Relax

variable {options : SearchOptions L K} {start goal : L} {st : State L K}

/-- What one neighbour does to the search. -/
theorem relax_spec (hh : Consistent g goal options.heuristic) {u v : L} {ns rest : List L}
    (hns : g.neighbors u = some ns) (hv : v ∈ ns) (hw : g.isWalkable u = true)
    (hi : Inv g (potential options.heuristic goal) start (fun x y => x = u ∧ y ∈ v :: rest) st)
    (hu : u ∈ st.closed) :
    ∃ st', relax g.api options goal u st v = .ok st' ∧
      Inv g (potential options.heuristic goal) start (fun x y => x = u ∧ y ∈ rest) st' ∧
      st'.closed = st.closed ∧ st'.frontier.length ≤ st.frontier.length + 1 := by
  obtain ⟨a, ha⟩ := hi.closed_label u hu
  have hrel : Relaxes g.api options goal u a st v (relax g.api options goal u st v) :=
    relax_relaxes v ha
  generalize relax g.api options goal u st v = r at hrel ⊢
  cases hrel with
  | blocked hwv =>
    refine ⟨st, rfl, hi.todo_mono ?_, rfl, by omega⟩
    rintro x b y w - - he hn ⟨rfl, hy⟩
    rcases List.mem_cons.mp hy with rfl | hy
    · rw [show g.api.isWalkable y = true from he.2.1] at hwv
      cases hwv
    · exact absurd ⟨rfl, hy⟩ hn
  | endless hwv hc =>
    obtain ⟨w, hc'⟩ := g.cost_of_walkable u hwv
    rw [show g.api.cost u v = some w from hc'] at hc
    cases hc
  | overflow _ _ hadd => cases hadd
  | negative hwv hc hadd h0 =>
    obtain rfl := Option.some.inj hadd
    obtain ⟨p, hp⟩ := hi.route u a ha
    have he : g.Edge u v _ := ⟨hw, hwv, ⟨ns, hns, hv⟩, hc⟩
    exact absurd h0 (not_lt.mpr ((hp.snoc he).cost_nonneg fun _ _ _ h => h.nonneg))
  | @kept w c old hwv hc hadd hold hle =>
    obtain rfl := Option.some.inj hadd
    refine ⟨st, rfl, hi.todo_mono ?_, rfl, by omega⟩
    rintro x b y w' - hb he' hn ⟨rfl, hy⟩
    rcases List.mem_cons.mp hy with rfl | hy
    · rw [ha] at hb
      have hww : w = w' := Option.some.inj (hc.symm.trans he'.2.2.2)
      rw [← Option.some.inj hb, ← hww]
      exact ⟨old, hold, hle⟩
    · exact absurd ⟨rfl, hy⟩ hn
  | unguided hwv _ hneg =>
    obtain ⟨hval, hval0⟩ := hh.heuristic_eq hwv
    exact absurd (hneg _ hval) (not_lt.mpr hval0)
  | improved hwv hc hadd h0 hlt hval =>
    obtain rfl := Option.some.inj hadd
    have he : g.Edge u v _ := ⟨hw, hwv, ⟨ns, hns, hv⟩, hc⟩
    obtain rfl := Option.some.inj ((hh.heuristic_eq hwv).1.symm.trans hval)
    refine ⟨_, rfl, (hi.improve hu ha he hlt).todo_mono ?_, rfl, le_rfl⟩
    rintro x b y w' - - - hn ⟨⟨rfl, hy⟩, hne⟩
    rcases List.mem_cons.mp hy with rfl | hy
    · exact absurd ⟨rfl, rfl⟩ hne
    · exact absurd ⟨rfl, hy⟩ hn

/-- What all its neighbours do to the search. -/
theorem relaxAll_spec (hh : Consistent g goal options.heuristic) {u : L} {ns : List L}
    (hns : g.neighbors u = some ns) (hw : g.isWalkable u = true) (rest : List L) :
    ∀ st : State L K, (∀ v ∈ rest, v ∈ ns) → u ∈ st.closed →
      Inv g (potential options.heuristic goal) start (fun x y => x = u ∧ y ∈ rest) st →
      ∃ st', relaxAll g.api options goal u st rest = .ok st' ∧
        Inv g (potential options.heuristic goal) start (fun _ _ => False) st' ∧
        st'.closed = st.closed ∧ st'.frontier.length ≤ st.frontier.length + rest.length := by
  induction rest with
  | nil =>
    intro st _ _ hi
    exact ⟨st, rfl, hi.todo_mono (by simp), rfl, le_rfl⟩
  | cons v rest ih =>
    intro st hsub hu hi
    obtain ⟨st1, hr1, hi1, hcl1, hlen1⟩ := relax_spec hh hns (hsub v List.mem_cons_self) hw hi hu
    obtain ⟨st2, hr2, hi2, hcl2, hlen2⟩ := ih st1 (fun x hx => hsub x (List.mem_cons_of_mem _ hx))
      (hcl1 ▸ hu) hi1
    refine ⟨st2, by simp [relaxAll, hr1, hr2], hi2, hcl2.trans hcl1, ?_⟩
    rw [List.length_cons]
    omega

/-- Expanding a location just closed leaves no edge to be relaxed. -/
theorem Inv.expand (hh : Consistent g goal options.heuristic) {u : L} {ns : List L}
    (hns : g.neighbors u = some ns) (hw : g.isWalkable u = true) (hu : u ∈ st.closed)
    (hi : Inv g (potential options.heuristic goal) start (fun x _ => x = u) st) :
    ∃ st', relaxAll g.api options goal u st ns = .ok st' ∧
      Inv g (potential options.heuristic goal) start (fun _ _ => False) st' ∧
      st'.closed = st.closed ∧ st'.frontier.length ≤ st.frontier.length + ns.length := by
  refine relaxAll_spec hh hns hw ns st (fun _ => id) hu (hi.todo_mono ?_)
  rintro x a y w - - he hn rfl
  obtain ⟨ms, hms, hy⟩ := he.2.2.1
  rw [hns] at hms
  exact absurd ⟨rfl, Option.some.inj hms ▸ hy⟩ hn

end Relax

/-! ## One turn -/

omit [IsStrictOrderedRing K] in
theorem Grid.walkable_of_route {x y : L} {p : List L} {c : K} (h : Route g.Edge x y p c) :
    g.isWalkable x = true → g.isWalkable y = true := by
  induction h with
  | refl x => exact id
  | cons he _ ih => exact fun _ => ih he.2.1

/-- How many neighbours a location has. -/
def Grid.degree (g : Grid L K) (x : L) : Nat := ((g.neighbors x).getD []).length

/-- A bound on the turns to come: one for every entry in the queue, and
one for every entry that closing another location may bring. -/
def budget (g : Grid L K) (st : State L K) : Nat :=
  st.frontier.length + ∑ x ∈ g.adjacencyList.keys.toFinset \ st.closed.toFinset, g.degree x

omit [IsStrictOrderedRing K] in
theorem degree_add_sum (g : Grid L K) {u : L} {closed : List L} (hu : u ∉ closed)
    (hw : g.isWalkable u = true) :
    g.degree u + ∑ x ∈ g.adjacencyList.keys.toFinset \ (u :: closed).toFinset, g.degree x =
      ∑ x ∈ g.adjacencyList.keys.toFinset \ closed.toFinset, g.degree x := by
  obtain ⟨ns, hns⟩ := g.neighbors_of_walkable hw
  have hmem : u ∈ g.adjacencyList.keys.toFinset \ closed.toFinset := by
    rw [Finset.mem_sdiff, List.mem_toFinset, List.mem_toFinset]
    exact ⟨AList.mem_keys.mp (AList.lookup_isSome.mp (Option.isSome_iff_exists.mpr ⟨ns, hns⟩)), hu⟩
  rw [List.toFinset_cons, Finset.sdiff_insert, Finset.add_sum_erase _ _ hmem]

section Turn

variable {options : SearchOptions L K} {start goal : L} {st : State L K}

/-- The state the loop is left in: the goal is closed, or the queue is
empty. -/
def Done (g : Grid L K) (φ : L → K) (start goal : L) (st : State L K) : Prop :=
  (∃ todo, Inv g φ start todo st ∧ goal ∈ st.closed) ∨
    (Inv g φ start (fun _ _ => False) st ∧ goal ∉ st.closed ∧ st.frontier = [])

/-- The state between two turns: the search is about to begin, or the
invariant holds. -/
def Between (g : Grid L K) (φ : L → K) (start goal : L) (st : State L K) : Prop :=
  (st = initial start ∨ Inv g φ start (fun _ _ => False) st) ∧ goal ∉ st.closed

omit [IsStrictOrderedRing K] in
theorem get_initial (start : L) :
    get (initial start : State L K).frontier = some ((0, start), []) := by
  simp [initial, get, top]

/-- The location popped is walkable, and closing it keeps the
invariant. -/
theorem Between.expanding (hstart : g.isWalkable start = true)
    (hh : Consistent g goal options.heuristic)
    (hb : Between g (potential options.heuristic goal) start goal st) {p : WithTop K}
    {u : L} {q : List (WithTop K × L)} (hget : get st.frontier = some ((p, u), q)) (hu : u ∉ st.closed)
    (asked n : Nat) :
    g.isWalkable u = true ∧
      Inv g (potential options.heuristic goal) start (fun x _ => x = u)
        (st.expanding u q asked n) := by
  rcases hb.1 with rfl | hi
  · rw [get_initial] at hget
    cases hget
    exact ⟨hstart, inv_initial asked n⟩
  · obtain ⟨hmem, hmin, rfl⟩ := get_spec hget
    obtain ⟨a, ha, -⟩ := hi.entry p u hmem
    obtain ⟨r, hr⟩ := hi.route u a ha
    exact ⟨Grid.walkable_of_route hr hstart,
      { hi.close hh.potential_le hmem hmin hu with }⟩

/-- **One turn of the main loop** keeps the invariant and uses up budget,
or leaves the loop with the goal closed or the queue empty. -/
theorem searchTurn_spec (hstart : g.isWalkable start = true)
    (hh : Consistent g goal options.heuristic) (hmax : options.maxExpansions = 0)
    (hcancel : ∀ f, options.shouldCancel = some f → ∀ n, f n = false)
    (hb : Between g (potential options.heuristic goal) start goal st) :
    (∃ st', searchTurn g.api options goal st = some (.again st') ∧
      Between g (potential options.heuristic goal) start goal st' ∧ budget g st' < budget g st) ∨
    ∃ r, searchTurn g.api options goal st = some (.exit r) ∧
      ∃ st', r = .ok st' ∧ Done g (potential options.heuristic goal) start goal st' := by
  obtain ⟨x, r, -, hturn, hcases⟩ := searchTurn_turns g.api options goal st
  rw [hturn]
  cases hcases with
  | empty hget =>
    refine .inr ⟨_, rfl, st, rfl, .inr ?_⟩
    rcases hb.1 with rfl | hi
    · cases get_eq_none hget
    · exact ⟨hi, hb.2, get_eq_none hget⟩
  | stale hget hu =>
    rcases hb.1 with rfl | hi
    · cases hu
    · obtain ⟨hmem, -, rfl⟩ := get_spec hget
      have hlen := List.length_erase_add_one hmem
      refine .inl ⟨_, rfl, ⟨.inr (hi.drop hu), hb.2⟩, ?_⟩
      simp only [budget]
      omega
  | arrived hget hu =>
    obtain ⟨-, hi⟩ := hb.expanding hstart hh hget hu st.asked st.expansions
    exact .inr ⟨_, rfl, _, rfl, .inl ⟨_, hi, List.mem_cons_self⟩⟩
  | cancelled hf hn =>
    rw [hcancel _ hf] at hn
    cases hn
  | limited hpos => exact absurd hmax hpos
  | thrown hget hu hnone =>
    obtain ⟨hw, -⟩ := hb.expanding hstart hh hget hu 0 0
    obtain ⟨ns, hns⟩ := g.neighbors_of_walkable hw
    rw [show g.api.neighbors _ = some ns from hns] at hnone
    cases hnone
  | failed hget hu hns hrel =>
    obtain ⟨hw, hi⟩ := hb.expanding hstart hh hget hu _ _
    obtain ⟨st', hok, -⟩ := hi.expand hh hns hw List.mem_cons_self
    rw [hrel] at hok
    cases hok
  | @expanded p u q asked n ns st' hget hu hug hns hrel =>
    obtain ⟨hw, hi⟩ := hb.expanding hstart hh hget hu asked n
    obtain ⟨st₁, hok, hi', hcl, hlen⟩ := hi.expand hh hns hw List.mem_cons_self
    obtain rfl := Except.ok.inj (hrel.symm.trans hok)
    refine .inl ⟨st', rfl, ⟨.inr hi', ?_⟩, ?_⟩
    · rw [hcl]
      exact fun h => (List.mem_cons.mp h).elim (Ne.symm hug) hb.2
    · obtain ⟨hmem, -, rfl⟩ := get_spec hget
      have hpop := List.length_erase_add_one hmem
      have hdeg : g.degree u = ns.length := by
        rw [Grid.degree, show g.neighbors u = some ns from hns]
        rfl
      have hsum := degree_add_sum g hu hw
      simp only [budget, hcl, State.expanding] at hlen ⊢
      omega

end Turn

/-! ## The path -/

section Path

variable {φ : L → K} {start goal : L} {todo : L → L → Prop} {st : State L K}

omit [IsStrictOrderedRing K] in
/-- Walking back from a closed location ends at the start: every hop goes
to a location closed before. -/
theorem reconstruct_spec (hi : Inv g φ start todo st) :
    ∀ (old newer : List L) (x : L) (left : Nat) (path : List L) (c : K),
      st.closed = newer ++ x :: old → old.length < left → st.costSoFar.lookup x = some c →
      ∃ p, Route g.Edge start x p c ∧
        reconstruct start st.cameFrom left x path = (.found, p ++ path.reverse) := by
  intro old
  induction hn : old.length using Nat.strong_induction_on generalizing old with
  | _ n ih =>
    intro newer x left path c hcl hleft hc
    by_cases hx : x = start
    · subst hx
      rw [hi.start_label] at hc
      obtain rfl := Option.some.inj hc
      exact ⟨[x], .refl x, by unfold reconstruct; simp⟩
    · obtain ⟨y, hy, hxy⟩ := hi.older newer x old hcl hx
      obtain ⟨-, a, w, ha, he, hxc⟩ := hi.parent x y hxy hx
      rw [hc] at hxc
      obtain rfl := Option.some.inj hxc
      obtain ⟨mid, old', rfl⟩ := List.append_of_mem hy
      obtain ⟨left, rfl⟩ : ∃ k, left = k + 1 := ⟨left - 1, by omega⟩
      have hlen : old'.length < (mid ++ y :: old').length := by
        rw [List.length_append, List.length_cons]
        omega
      obtain ⟨p, hp, hrec⟩ := ih old'.length (by omega) old' rfl (newer ++ x :: mid) y left
        (path ++ [x]) a (by simp [hcl]) (by omega) ha
      refine ⟨p ++ [x], hp.snoc he, ?_⟩
      unfold reconstruct
      simp only [hx, if_false, hxy, hrec]
      simp

omit [IsStrictOrderedRing K] in
/-- Every closed location has an entry in `came_from`. -/
theorem Inv.closed_length_le (hi : Inv g φ start todo st) :
    st.closed.length ≤ st.cameFrom.entries.length := by
  have hsub : st.closed ⊆ st.cameFrom.keys := by
    intro x hx
    obtain ⟨a, ha⟩ := hi.closed_label x hx
    exact AList.mem_keys.mp (AList.lookup_isSome.mp ((hi.came x).mpr (by simp [ha])))
  have hlen := (hi.nodup.subperm hsub).length_le
  simpa [AList.keys, List.keys] using hlen

omit [IsStrictOrderedRing K] in
/-- With the goal closed, the path walked back is a cheapest one. -/
theorem reconstruct_goal (hi : Inv g φ start todo st) (hgoal : goal ∈ st.closed) :
    (∃ y, st.cameFrom.lookup goal = some y) ∧
    ∃ p c, reconstruct start st.cameFrom (st.cameFrom.entries.length + 1) goal [] = (.found, p) ∧
      Route g.Edge start goal p c ∧ ∀ q d, Route g.Edge start goal q d → c ≤ d := by
  obtain ⟨c, hc⟩ := hi.closed_label goal hgoal
  obtain ⟨newer, old, hcl⟩ := List.append_of_mem hgoal
  have hlen := hi.closed_length_le
  rw [hcl, List.length_append, List.length_cons] at hlen
  obtain ⟨p, hp, hrec⟩ := reconstruct_spec hi old newer goal (st.cameFrom.entries.length + 1) [] c
    hcl (by omega) hc
  refine ⟨Option.isSome_iff_exists.mp ((hi.came goal).mpr (by simp [hc])), p, c, by simpa using hrec,
    hp, fun q d hq => hi.optimal goal hgoal c q d hc hq⟩

/-- With the queue empty and the goal not closed, nothing leads there. -/
theorem Inv.no_route (hi : Inv g φ start (fun _ _ => False) st) (hgoal : goal ∉ st.closed)
    (hempty : st.frontier = []) :
    st.cameFrom.lookup goal = none ∧ ¬ ∃ q d, Route g.Edge start goal q d := by
  have hall : ∀ x c, st.costSoFar.lookup x = some c → x ∈ st.closed := by
    intro x c hx
    by_contra hcl
    have := hi.pending x c hx hcl
    rw [hempty] at this
    cases this
  constructor
  · by_contra h
    obtain ⟨c, hc⟩ := Option.isSome_iff_exists.mp
      ((hi.came goal).mp (Option.isSome_iff_ne_none.mpr h))
    exact hgoal (hall goal c hc)
  · rintro ⟨q, d, hr⟩
    obtain ⟨v, b, -, -, hv, hb, -, -⟩ := frontier hi.relaxed_all hr hi.start_closed hi.start_label
      hgoal
    exact hv (hall v b hb)

end Path

/-! ## The search -/

section Search

variable {options : SearchOptions L K} {start goal : L}

/-- The main loop is left with the goal closed or the queue empty. -/
theorem mainLoop_spec (hstart : g.isWalkable start = true)
    (hh : Consistent g goal options.heuristic) (hmax : options.maxExpansions = 0)
    (hcancel : ∀ f, options.shouldCancel = some f → ∀ n, f n = false) :
    ∃ N, ∀ fuel, N ≤ fuel → ∃ st,
      repeatUntil (fun _ st => searchTurn g.api options goal st) fuel (initial start) =
        some (.ok st) ∧
      Done g (potential options.heuristic goal) start goal st := by
  refine ⟨budget g (initial start) + 1, fun fuel hfuel => ?_⟩
  obtain ⟨r, hr, st, rfl, hdone⟩ := @repeatUntil_spec _ _
    (fun _ st => searchTurn g.api options goal st)
    (Between g (potential options.heuristic goal) start goal)
    (fun r => ∃ st', r = .ok st' ∧ Done g (potential options.heuristic goal) start goal st')
    (budget g) (fun _ s hs => searchTurn_spec hstart hh hmax hcancel hs) fuel (initial start)
    ⟨.inl rfl, List.not_mem_nil⟩ hfuel
  exact ⟨st, hr, hdone⟩

/-- **A consistent heuristic makes `search` exact.** With enough fuel it
answers: `found` with a path of least cost when a path through walkable
locations exists, and `not_found` with the empty path exactly when none
does. -/
theorem search_optimal (hstart : g.isWalkable start = true) (hgoal : g.isWalkable goal = true)
    (hh : Consistent g goal options.heuristic) (hmax : options.maxExpansions = 0)
    (hcancel : ∀ f, options.shouldCancel = some f → ∀ n, f n = false) :
    ∃ N, ∀ fuel, N ≤ fuel →
      ((∃ q d, Route g.Edge start goal q d) →
        ∃ p c, search g.api options start goal fuel = some (.found, p) ∧
          Route g.Edge start goal p c ∧ ∀ q d, Route g.Edge start goal q d → c ≤ d) ∧
      (search g.api options start goal fuel = some (.notFound, []) ↔
        ¬ ∃ q d, Route g.Edge start goal q d) := by
  by_cases hne : start = goal
  · subst hne
    have hs : ∀ fuel, search g.api options start start fuel = some (.found, [start]) := by
      intro fuel
      simp [search, Grid.api, hstart]
    refine ⟨0, fun fuel _ => ⟨fun _ => ⟨[start], 0, hs fuel, .refl start, fun q d hr => ?_⟩, ?_⟩⟩
    · exact hr.cost_nonneg fun _ _ _ he => he.nonneg
    · rw [hs fuel]
      exact ⟨fun h => (by cases h), fun h => absurd ⟨_, _, .refl start⟩ h⟩
  · obtain ⟨N, hN⟩ := mainLoop_spec hstart hh hmax hcancel
    refine ⟨N, fun fuel hfuel => ?_⟩
    obtain ⟨st, hloop, hdone⟩ := hN fuel hfuel
    rcases hdone with ⟨todo, hi, hcl⟩ | ⟨hi, hcl, hempty⟩
    · obtain ⟨⟨y, hy⟩, p, c, hrec, hp, hmin⟩ := reconstruct_goal hi hcl
      have hs : search g.api options start goal fuel = some (.found, p) := by
        simp only [search, Grid.api] at hloop ⊢
        simp [hstart, hgoal, hne, hloop, hy, hrec]
      refine ⟨fun _ => ⟨p, c, hs, hp, hmin⟩, ?_⟩
      rw [hs]
      exact ⟨fun h => (by cases h), fun h => absurd ⟨p, c, hp⟩ h⟩
    · obtain ⟨hnone, hno⟩ := hi.no_route hcl hempty
      have hs : search g.api options start goal fuel = some (.notFound, []) := by
        simp only [search, Grid.api] at hloop ⊢
        simp [hstart, hgoal, hne, hloop, hnone]
      exact ⟨fun h => absurd h hno, fun _ => hno, fun _ => hs⟩

/-- Three locations: a direct edge of weight 5, and a detour of two edges
of the default weight. -/
def detour : Grid ℕ ℤ :=
  (((Grid.empty.addLocation 0 [2, 1]).addLocation 1 [2]).addLocation 2 [] |>.setEdgeWeight 0 2
    (some 5)).2

/-- The number of hops the detour still has. -/
def hopsLeft : SearchOptions ℕ ℤ := ⟨fun x _ => some (2 - x), 0, none⟩

theorem detour_walkable {x : ℕ} (h : detour.isWalkable x = true) : x = 0 ∨ x = 1 ∨ x = 2 := by
  by_contra hx
  obtain ⟨h0, h1, h2⟩ : x ≠ 0 ∧ x ≠ 1 ∧ x ≠ 2 := by omega
  have hnone : detour.adjacencyList.lookup x = none := by
    simp only [detour, Grid.setEdgeWeight, Grid.addLocation, Grid.empty]
    exact (AList.lookup_insert_ne h2).trans
      ((AList.lookup_insert_ne h1).trans ((AList.lookup_insert_ne h0).trans (AList.lookup_empty x)))
  rw [Grid.isWalkable, hnone] at h
  cases h

theorem detour_consistent : Consistent detour 2 hopsLeft.heuristic := by
  refine ⟨fun x hx => ?_, fun x y w a b he ha hb => ?_, rfl⟩
  · rcases detour_walkable hx with rfl | rfl | rfl <;> exact ⟨_, rfl, by decide⟩
  · obtain ⟨hx, hy, ⟨ns, hns, hmem⟩, hc⟩ := he
    obtain rfl := Option.some.inj ha
    obtain rfl := Option.some.inj hb
    rcases detour_walkable hx with rfl | rfl | rfl <;>
      rcases detour_walkable hy with rfl | rfl | rfl <;>
      obtain rfl := Option.some.inj hc <;> decide

theorem search_optimal_detour :
    (∃ N, ∀ fuel, N ≤ fuel →
      ((∃ q d, Route detour.Edge 0 2 q d) →
        ∃ p c, search detour.api hopsLeft 0 2 fuel = some (.found, p) ∧
          Route detour.Edge 0 2 p c ∧ ∀ q d, Route detour.Edge 0 2 q d → c ≤ d) ∧
      (search detour.api hopsLeft 0 2 fuel = some (.notFound, []) ↔
        ¬ ∃ q d, Route detour.Edge 0 2 q d)) ∧
    search detour.api hopsLeft 0 2 4 = some (.found, [0, 1, 2]) :=
  ⟨search_optimal (by decide) (by decide) detour_consistent rfl (fun f h => by cases h), by decide⟩

end Search

end HighJump.Algo.AStar
