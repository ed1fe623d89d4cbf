/-
HighJump.Algo.AStarSoundness — what `search` does on a grid of the
library without any assumption on the heuristic.

Weights are not negative there, so sums grow and the links lead back to
the start throughout (`Linked`). A location is closed when it is expanded,
which bounds the turns to come, and only labelled locations are expanded,
which are in the adjacency list.
-/
import HighJump.Algo.AStarLinks
import HighJump.Algo.AStarTheorems

namespace HighJump.Algo.AStar

open HighJump.Lib HighJump.Lib.Paths

universe u

variable {L K : Type u} [LinearOrder L]

/-! ## The neighbours asked for -/

section Neighbors

variable [Zero K] [LinearOrder K] {grid : GridApi L K} {options : SearchOptions L K} {goal : L}
  {st : State L K}

theorem relaxAll_neighbors (f : L → Option (List L)) (u : L) (ns : List L) (st : State L K) :
    relaxAll { grid with neighbors := f } options goal u st ns =
      relaxAll grid options goal u st ns := by
  induction ns generalizing st with
  | nil => rfl
  | cons v ns ih =>
    have hrel : relax { grid with neighbors := f } options goal u st v =
        relax grid options goal u st v := rfl
    rw [relaxAll, relaxAll, hrel]
    cases relax grid options goal u st v with
    | error r => rfl
    | ok st => exact ih st

/-- A turn looks at no neighbours but those of the location it
expands. -/
theorem searchTurn_neighbors (f : L → Option (List L))
    (h : ∀ u, expands options goal st = some u → f u = grid.neighbors u) :
    searchTurn { grid with neighbors := f } options goal st = searchTurn grid options goal st := by
  cases hget : get st.frontier with
  | none => simp [searchTurn, hget]
  | some e =>
    obtain ⟨⟨p, u⟩, q⟩ := e
    by_cases hu : u ∈ st.closed
    · simp [searchTurn, hget, hu]
    by_cases hg : u = goal
    · simp [searchTurn, hget, hg]
    cases hask : askCancel options { st with frontier := q, closed := u :: st.closed } with
    | mk cancel st₂ =>
      cases cancel with
      | true => simp [searchTurn, hget, hu, hg, hask]
      | false =>
        cases hcount : countExpansion options st₂ with
        | mk limit st₃ =>
          cases limit with
          | true => simp [searchTurn, hget, hu, hg, hask, hcount]
          | false =>
            have hf := h u (by simp [expands, hget, hu, hg, hask, hcount])
            simp [searchTurn, hget, hu, hg, hask, hcount, hf, relaxAll_neighbors]

/-- No location is expanded twice, and only walkable ones are. -/
theorem expansions_spec (grid : GridApi L K) (options : SearchOptions L K) (start goal : L)
    (fuel : Nat) :
    ∀ st : State L K, Labelled grid start st →
      (expansions grid options goal fuel st).Nodup ∧
        ∀ x ∈ expansions grid options goal fuel st, x ∉ st.closed ∧ grid.isWalkable x = true := by
  induction fuel with
  | zero => exact fun st _ => ⟨List.nodup_nil, fun x hx => by cases hx⟩
  | succ fuel ih =>
    intro st hl
    -- a turn that ends the loop
    have hlast : ∀ rest, rest = [] → ((expands options goal st).toList ++ rest).Nodup ∧
        ∀ x ∈ (expands options goal st).toList ++ rest,
          x ∉ st.closed ∧ grid.isWalkable x = true := by
      rintro _ rfl
      cases hex : expands options goal st with
      | none => exact ⟨List.nodup_nil, fun x hx => by cases hx⟩
      | some u =>
        refine ⟨List.nodup_singleton u, fun x hx => ?_⟩
        obtain rfl := List.mem_singleton.mp hx
        exact hl.expands hex
    rw [expansions]
    rcases (labelled_kept grid start).searchTurn options goal hl with
      ⟨hturn, -⟩ | ⟨st', hturn, -⟩ | ⟨r, hturn, -⟩ | ⟨st', hturn, hl', hprog⟩
    · exact hlast _ (by rw [hturn])
    · exact hlast _ (by rw [hturn])
    · exact hlast _ (by rw [hturn])
    · rw [hturn]
      obtain ⟨hnd, hmem⟩ := ih st' hl'
      rcases hprog with ⟨hex, hcl, -⟩ | ⟨u, ns, hex, -, hcl, -⟩
      · rw [hex]
        exact ⟨hnd, fun x hx => hcl ▸ hmem x hx⟩
      · rw [hex]
        refine ⟨List.nodup_cons.mpr ⟨fun hu => ?_, hnd⟩, fun x hx => ?_⟩
        · exact (hmem u hu).1 (hcl ▸ List.mem_cons_self)
        · rcases List.mem_cons.mp hx with rfl | hx
          · exact hl.expands hex
          · obtain ⟨hxcl, hw⟩ := hmem x hx
            exact ⟨fun h => hxcl (hcl ▸ List.mem_cons_of_mem u h), hw⟩

end Neighbors

/-! ## The library's grid -/

section Grid

variable [CommRing K] [LinearOrder K] (grid : GridApi L K) (start goal : L)

/-- What is promised of a path: it leads from start to goal along the
neighbour lists, through walkable locations and none of them twice. -/
structure PathOk (p : List L) : Prop where
  first : p.head? = some start
  last : p.getLast? = some goal
  nodup : p.Nodup
  walkable : ∀ x ∈ p, grid.isWalkable x = true
  steps : p.IsChain fun a b => ∃ ns, grid.neighbors a = some ns ∧ b ∈ ns

variable [IsStrictOrderedRing K] {options : SearchOptions L K} {start goal : L} {g : Grid L K}

theorem Grid.sumsGrow (g : Grid L K) : g.api.SumsGrow := by
  intro x y w a c he hadd
  have he' : g.Edge x y w := he
  obtain rfl : a + w = c := Option.some.inj hadd
  exact le_add_of_nonneg_right he'.nonneg

/-- With enough fuel the main loop is left, by a `return` other than
`invalid_graph` or with the links in order. -/
theorem mainLoop_terminates (options : SearchOptions L K) (goal : L)
    (hs : g.isWalkable start = true) :
    ∃ N, ∀ fuel, N ≤ fuel → ∃ r, mainLoop g.api options start goal fuel = some r ∧
      ((∃ e, r = .error e ∧ e ≠ .invalidGraph ∧ e ≠ .found) ∨
        ∃ st, r = .ok st ∧ Linked g.api start st) := by
  refine ⟨budget g (initial start) + 1, fun fuel hfuel =>
    repeatUntil_spec (Linked g.api start) _ (budget g) (fun n st hl => ?_) fuel (initial start)
      (linked_initial hs) hfuel⟩
  rcases (linked_kept g.sumsGrow start).searchTurn options goal hl with
    ⟨-, u, hw, hns⟩ | ⟨st', hturn, hl'⟩ | ⟨r, hturn, hr⟩ | ⟨st', hturn, hl', hprog⟩
  · -- a walkable location is in the adjacency list
    obtain ⟨ns, hns'⟩ := g.neighbors_of_walkable hw
    rw [show g.api.neighbors u = some ns from hns'] at hns
    cases hns
  · exact .inr ⟨_, hturn, .inr ⟨st', rfl, hl'⟩⟩
  · exact .inr ⟨_, hturn, .inl ⟨r, rfl, hr⟩⟩
  · refine .inl ⟨st', hturn, hl', ?_⟩
    rcases hprog with ⟨-, hcl, hlen⟩ | ⟨u, ns, hex, hns, hcl, hlen⟩
    · simp only [budget, hcl]
      omega
    · obtain ⟨hu, hw⟩ := hl.expands hex
      have hdeg : g.degree u = ns.length := by
        rw [Grid.degree, show g.neighbors u = some ns from hns]
        rfl
      have hsum := degree_add_sum g hu hw
      simp only [budget, hcl]
      omega

omit [IsStrictOrderedRing K] in
theorem Linked.pathOk {st : State L K} (hl : Linked g.api start st) {p : List L}
    (hp : Traced (parents st.cameFrom) start goal p) : PathOk g.api start goal p := by
  refine ⟨hp.head_last.1, hp.head_last.2, hp.nodup, fun x hx => ?_, ?_⟩
  · by_cases hxs : x = start
    · exact hl.walkable x 0 (hxs ▸ hl.start_label)
    · obtain ⟨y, hy⟩ := hp.linked hx hxs
      obtain ⟨c, hc⟩ := hl.came x y hy
      exact hl.walkable x c hc
  · refine (hp.isChain hl.rising).imp fun a b hab => ?_
    obtain ⟨w, -, -, hns, -⟩ := hab
    exact hns

/-- **`search` is sound without any assumption on the heuristic.** On a
grid of the library, with enough fuel, it answers; it expands no location
twice and none outside the adjacency list, never answers `invalid_graph`,
and a path it finds is a path. -/
theorem search_sound (g : Grid L K) (options : SearchOptions L K) (start goal : L) :
    ∃ N, ∀ fuel, N ≤ fuel → ∃ r p, search g.api options start goal fuel = some (r, p) ∧
      r ≠ .invalidGraph ∧ (r = .found → PathOk g.api start goal p) ∧
      (searchExpansions g.api options start goal fuel).Nodup ∧
      ∀ x ∈ searchExpansions g.api options start goal fuel, ∃ ns, g.neighbors x = some ns := by
  -- what is expanded, whatever the answer
  have hexp : ∀ fuel, (searchExpansions g.api options start goal fuel).Nodup ∧
      ∀ x ∈ searchExpansions g.api options start goal fuel, ∃ ns, g.neighbors x = some ns := by
    intro fuel
    rw [searchExpansions]
    split
    · exact ⟨List.nodup_nil, fun x hx => by cases hx⟩
    · rename_i hrun
      simp only [Bool.or_eq_true, Bool.not_eq_true', not_or, Bool.not_eq_false] at hrun
      obtain ⟨hnd, hmem⟩ := expansions_spec g.api options start goal fuel (initial start)
        (linked_initial hrun.1.1).toLabelled
      exact ⟨hnd, fun x hx => g.neighbors_of_walkable (hmem x hx).2⟩
  suffices h : ∃ N, ∀ fuel, N ≤ fuel → ∃ r p, search g.api options start goal fuel = some (r, p) ∧
      r ≠ .invalidGraph ∧ (r = .found → PathOk g.api start goal p) by
    obtain ⟨N, hN⟩ := h
    refine ⟨N, fun fuel hfuel => ?_⟩
    obtain ⟨r, p, hsearch, hr, hp⟩ := hN fuel hfuel
    exact ⟨r, p, hsearch, hr, hp, hexp fuel⟩
  cases hs : g.api.isWalkable start with
  | false => exact ⟨0, fun fuel _ => ⟨.invalidStart, [], by simp [search, hs], by decide,
      fun h => absurd h (by decide)⟩⟩
  | true =>
    cases hg : g.api.isWalkable goal with
    | false => exact ⟨0, fun fuel _ => ⟨.invalidGoal, [], by simp [search, hs, hg], by decide,
        fun h => absurd h (by decide)⟩⟩
    | true =>
      by_cases hne : start = goal
      · subst hne
        refine ⟨0, fun fuel _ => ⟨.found, [start], by simp [search, hs], by decide, fun _ => ?_⟩⟩
        exact ⟨rfl, rfl, List.nodup_singleton _, by simpa using hs, .singleton _⟩
      obtain ⟨N, hN⟩ := mainLoop_terminates options goal hs
      refine ⟨N, fun fuel hfuel => ?_⟩
      obtain ⟨r, hloop, ⟨e, rfl, he, hf⟩ | ⟨st, rfl, hl⟩⟩ := hN fuel hfuel
      · rw [mainLoop] at hloop
        exact ⟨e, [], by simp [search, hs, hg, hne, hloop], he, fun hfound => absurd hfound hf⟩
      · cases hy : parents st.cameFrom goal with
        | none =>
          rw [mainLoop] at hloop
          rw [parents] at hy
          exact ⟨.notFound, [], by simp [search, hs, hg, hne, hloop, hy], by decide,
            fun h => absurd h (by decide)⟩
        | some y =>
          obtain ⟨c, hc⟩ := hl.came goal y hy
          obtain ⟨p, hp⟩ := hl.traced goal c hc
          refine ⟨.found, p, ?_, by decide, fun _ => hl.pathOk hp⟩
          rw [search_of_loop hs hg hne hloop hy,
            reconstruct_of_traced hp _ _ (Nat.le_succ_of_le (traced_length_le hp)), List.reverse_nil,
            List.append_nil]

/-- A heuristic that is neither admissible nor consistent. -/
def misled : SearchOptions ℕ ℤ := ⟨fun x _ => some (if x = 1 then 100 else 0), 3, none⟩

theorem search_sound_detour :
    (∃ N, ∀ fuel, N ≤ fuel → ∃ r p, search detour.api misled 0 2 fuel = some (r, p) ∧
      r ≠ .invalidGraph ∧ (r = .found → PathOk detour.api 0 2 p) ∧
      (searchExpansions detour.api misled 0 2 fuel).Nodup ∧
      ∀ x ∈ searchExpansions detour.api misled 0 2 fuel, ∃ ns, detour.neighbors x = some ns) ∧
    search detour.api misled 0 2 4 = some (.found, [0, 2]) :=
  ⟨search_sound detour misled 0 2, by decide⟩

end Grid

end HighJump.Algo.AStar
