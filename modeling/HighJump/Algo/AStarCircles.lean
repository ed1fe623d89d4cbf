/-
HighJump.Algo.AStarCircles — when a `search` that fails leaves a path
behind.

The only way is to walk back from the goal without coming to the start.
The start is never relabelled and every parent has a parent, so the walk
then goes round in a circle of parents. A circle is closed by a relaxation
that gives a location a parent whose own parents lead through it
(`Lib/Paths`); it does no harm if a later relaxation concerns it or if the
goal does not hang on it. `search_emptyOnFailure_iff` says that nothing
else goes wrong, for every grid and every rounding of its costs.
-/
import HighJump.Algo.AStarLinks
import Mathlib.Algebra.Ring.Int.Defs

namespace HighJump.Algo.AStar

open HighJump.Lib HighJump.Lib.Paths

universe u

variable {L K : Type u} [LinearOrder L] [Zero K] [LinearOrder K]

variable (grid : GridApi L K) (options : SearchOptions L K) (start goal : L)

/-- Whenever `search` answers anything but `found`, the path is empty. -/
def EmptyOnFailure : Prop :=
  ∀ fuel r p, search grid options start goal fuel = some (r, p) → r ≠ .found → p = []

/-- Whenever a relaxation has given `v` a parent `u` whose own parents led
through `v`, a later one has concerned a location of the circle so closed,
or the parents of the goal do not lead there. -/
def CirclesHarmless : Prop :=
  grid.isWalkable start = true → grid.isWalkable goal = true →
    ∀ fuel st, mainLoop grid options start goal fuel = some (.ok st) →
      ∀ before v u after, st.links = before ++ (v, u) :: after →
        LeadsTo (assigned start before) u v →
        (∃ l ∈ after, LeadsTo (assigned start (before ++ [(v, u)])) v l.1) ∨
          ¬ LeadsTo (assigned start st.links) goal v

/-- No relaxation gives a location a parent whose own parents lead
through it. -/
def NoCircle : Prop :=
  grid.isWalkable start = true → grid.isWalkable goal = true →
    ∀ fuel st, mainLoop grid options start goal fuel = some (.ok st) → Unclosed start st.links

variable {grid options start goal} {st : State L K}

omit [LinearOrder K] in
/-- A parent has a parent. -/
theorem Labelled.next (hl : Labelled grid start st) {x y : L}
    (h : parents st.cameFrom x = some y) : ∃ z, parents st.cameFrom y = some z := by
  obtain ⟨c, hc⟩ := hl.came x y h
  obtain ⟨y', b, hy, hb⟩ := hl.linked x c hc
  obtain rfl := Option.some.inj (h.symm.trans hy)
  obtain ⟨z, -, hz, -⟩ := hl.linked y b hb
  exact ⟨z, hz⟩

omit [LinearOrder K] in
/-- From a location with a parent one comes to locations with parents
only. -/
theorem Labelled.next_of_leadsTo (hl : Labelled grid start st) {x y : L}
    (hx : ∃ z, parents st.cameFrom x = some z) (h : LeadsTo (parents st.cameFrom) x y) :
    ∃ z, parents st.cameFrom y = some z :=
  h.mem (C := fun y => ∃ z, parents st.cameFrom y = some z) (fun _ _ _ hab => hl.next hab) hx

omit [Zero K] [LinearOrder K] in
/-- The walk back finds the start where the parents of the goal lead
there. -/
theorem reconstruct_of_leadsTo (h : LeadsTo (parents st.cameFrom) goal start) :
    ∃ p, reconstruct start st.cameFrom (st.cameFrom.entries.length + 1) goal [] = (.found, p) := by
  obtain ⟨p, hp⟩ := exists_traced_iff.mpr h
  exact ⟨_, reconstruct_of_traced hp _ _ (Nat.le_succ_of_le (traced_length_le hp))⟩

/-- So a failing `search` that leaves a path has walked back along links
that do not lead to the start. -/
theorem search_fails {fuel : Nat} {r : SearchResult} {p : List L}
    (h : search grid options start goal fuel = some (r, p)) (hr : r ≠ .found) :
    p = [] ∨ ∃ st, grid.isWalkable start = true ∧ grid.isWalkable goal = true ∧
      mainLoop grid options start goal fuel = some (.ok st) ∧
      (∃ y, parents st.cameFrom goal = some y) ∧
      ¬ LeadsTo (parents st.cameFrom) goal start := by
  rcases search_cases h with ⟨-, hfound, -⟩ | ⟨hp, -⟩ | ⟨st, y, hs, hg, hloop, hy, hrec⟩
  · exact absurd hfound hr
  · exact .inl hp
  · refine .inr ⟨st, hs, hg, hloop, ⟨y, hy⟩, fun hlead => hr ?_⟩
    obtain ⟨q, hq⟩ := reconstruct_of_leadsTo hlead
    exact (Prod.mk.inj (hrec.symm.trans hq)).1

theorem emptyOnFailure_iff :
    EmptyOnFailure grid options start goal ↔ CirclesHarmless grid options start goal := by
  constructor
  · intro hempty hs hg fuel st hloop before v u after hlinks hclose
    by_contra hharm
    obtain ⟨hleft, hgoal⟩ := not_or.mp hharm
    have hleft : ∀ l ∈ after, ¬ LeadsTo (assigned start (before ++ [(v, u)])) v l.1 :=
      fun l hl h => hleft ⟨l, hl, h⟩
    have hgoal := not_not.mp hgoal
    have hl : Labelled grid start st :=
      (labelled_kept grid start).mainLoop (linked_initial hs).toLabelled hloop
    have hroot := hl.kept_start
    have hrec := hl.recorded
    rw [hlinks] at hroot hgoal hrec
    have hno := not_leadsTo_of_circle hroot hclose hleft hgoal
    have hne : start ≠ goal := fun h => hno (h ▸ .refl)
    -- the goal has a parent, as `v` has one
    have hparent : ∃ y, parents st.cameFrom goal = some y := by
      rw [hrec]
      rcases hgoal.cases_head with rfl | ⟨y, hy, -⟩
      · exact ⟨u, assigned_last fun l hl heq => hleft l hl (heq ▸ .refl)⟩
      · exact ⟨y, hy⟩
    obtain ⟨y, hy⟩ := hparent
    have hsearch := search_of_loop hs hg hne hloop hy
    rcases reconstruct_cases start st.cameFrom (st.cameFrom.entries.length + 1) goal [] with
      hback | ⟨path, hfail, hpath⟩
    · rw [hrec] at hback
      exact hno (exists_traced_iff.mp hback)
    · rw [hfail] at hsearch
      exact hpath (hempty fuel _ _ hsearch (by decide))
  · intro hharmless fuel r p h hr
    rcases search_fails h hr with hp | ⟨st, hs, hg, hloop, hparent, hno⟩
    · exact hp
    · have hl : Labelled grid start st :=
        (labelled_kept grid start).mainLoop (linked_initial hs).toLabelled hloop
      have hnext := fun y => hl.next_of_leadsTo hparent (y := y)
      rw [hl.recorded] at hno hnext
      obtain ⟨before, v, u, after, hlinks, hclose, hleft, hgoal⟩ :=
        exists_closing hl.kept_start hnext hno
      rcases hharmless hs hg fuel st hloop before v u after hlinks hclose with
        ⟨l, hmem, hlead⟩ | hoff
      · exact absurd hlead (hleft l hmem)
      · exact absurd hgoal hoff

theorem CirclesHarmless.of_noCircle (h : NoCircle grid options start goal) :
    CirclesHarmless grid options start goal := by
  intro hs hg fuel st hloop before v u after hlinks hclose
  exact absurd hclose (h hs hg fuel st hloop before v u after hlinks)

/-- Where sums grow, no circle is ever closed. -/
theorem noCircle_of_sumsGrow (hgrow : grid.SumsGrow) : NoCircle grid options start goal := by
  intro hs _ fuel st hloop
  exact ((linked_kept hgrow start).mainLoop (linked_initial hs) hloop).unclosed

/-- **When a failing `search` leaves no path behind.** Exactly when every
circle of parents that a relaxation closes is concerned by a later one or
lies off the way of the goal; so in particular if none is closed, and none
is on a grid on which no sum along an edge is less than what it is added
to. -/
theorem search_emptyOnFailure_iff (grid : GridApi L K) (options : SearchOptions L K)
    (start goal : L) :
    (EmptyOnFailure grid options start goal ↔ CirclesHarmless grid options start goal) ∧
      (NoCircle grid options start goal → EmptyOnFailure grid options start goal) ∧
      (grid.SumsGrow → NoCircle grid options start goal) :=
  ⟨emptyOnFailure_iff, fun h => emptyOnFailure_iff.mpr (.of_noCircle h), noCircle_of_sumsGrow⟩

/-- A grid of one's own: `0 → 1` costs 5, and behind it lies a cycle of
cost -2. -/
def rebate : GridApi ℕ ℤ where
  isWalkable x := decide (x < 4)
  neighbors x := [[1], [2], [1, 3], []][x]?
  cost x y := if x = 0 then some 5 else if x = 2 ∧ y = 1 then some (-3) else some 1
  add a b := some (a + b)

/-- The relaxation of `2 → 1` makes 1 and 2 each other's parents, and the
walk back from 3 goes round until `max_hops` stops it. -/
theorem search_rebate : ¬ EmptyOnFailure rebate ⟨fun _ _ => some 0, 0, none⟩ 0 3 := by
  intro h
  have hsearch : search rebate ⟨fun _ _ => some 0, 0, none⟩ 0 3 6 =
      some (.invalidGraph, [3, 2, 1, 2, 1, 2]) := by decide
  exact absurd (h 6 _ _ hsearch (by decide)) (by decide)

/-- The same locations without the rebate; sums are rounded up to even
numbers, and beyond 8 they are not finite. -/
def coarse : GridApi ℕ ℤ where
  isWalkable := rebate.isWalkable
  neighbors := rebate.neighbors
  cost x _ := if x = 0 then some 5 else some 1
  add a b := if a + b ≤ 8 then some ((a + b + 1) / 2 * 2) else none

theorem coarse_sumsGrow : coarse.SumsGrow := by
  rintro x y w a c ⟨-, -, -, hw⟩ hadd
  have hw0 : 0 ≤ w := by
    simp only [coarse] at hw
    split at hw <;> obtain rfl := Option.some.inj hw <;> decide
  simp only [coarse] at hadd
  split at hadd
  · obtain rfl := Option.some.inj hadd
    omega
  · cases hadd

/-- There the way to 3 comes to an overflow. -/
theorem search_emptyOnFailure_iff_coarse :
    (EmptyOnFailure rebate ⟨fun _ _ => some 0, 0, none⟩ 0 3 ↔
      CirclesHarmless rebate ⟨fun _ _ => some 0, 0, none⟩ 0 3) ∧
    EmptyOnFailure coarse ⟨fun _ _ => some 0, 0, none⟩ 0 3 ∧
    search coarse ⟨fun _ _ => some 0, 0, none⟩ 0 3 6 = some (.invalidCost, []) :=
  have hcoarse := search_emptyOnFailure_iff coarse ⟨fun _ _ => some 0, 0, none⟩ 0 3
  ⟨(search_emptyOnFailure_iff rebate ⟨fun _ _ => some 0, 0, none⟩ 0 3).1,
    hcoarse.2.1 (hcoarse.2.2 coarse_sumsGrow), by decide⟩

end HighJump.Algo.AStar
