/-
HighJump.Algo.AStar — `hj::astar` of `hj/algo/astar.hpp`: the grid, the
priority queue and `search`.

`search` is a template over the grid, so it is modelled over the three
functions it calls and the addition of `cost_t` (`GridApi`); `Grid` is the
class of the library, whose edge weights `set_edge_weight` keeps finite and
non-negative. Costs are the finite values of any ordered type, added with
any rounding; a cost, a sum or a heuristic value that is not finite is
`none`, and a priority that has become infinite is `⊤`. A location the grid
does not know makes `neighbors` throw: `search` then has no result, as when
its fuel runs out.
-/
import HighJump.Lib.Loop
import Mathlib.Algebra.Order.Monoid.Unbundled.WithTop
import Mathlib.Algebra.Order.Ring.Defs
import Mathlib.Data.List.AList
import Mathlib.Data.Finset.Insert
import Mathlib.Algebra.Ring.Nat

namespace HighJump.Algo.AStar

open HighJump.Lib

universe u

variable {L K : Type u} [LinearOrder L] [Zero K] [LinearOrder K]

/-! ## The grid -/

/-- What `search` calls of a grid, and the addition of its costs. -/
structure GridApi (L K : Type u) where
  isWalkable : L → Bool
  neighbors : L → Option (List L)
  cost : L → L → Option K
  add : K → K → Option K

/-- `grid<Location>`. -/
structure Grid (L K : Type u) [LinearOrder L] [Zero K] [LinearOrder K] where
  adjacencyList : AList fun _ : L => List L
  edgeWeights : AList fun _ : L × L => K
  obstacles : Finset L
  weights_nonneg : ∀ e w, edgeWeights.lookup e = some w → 0 ≤ w

namespace Grid

/-- `grid()`. -/
def empty : Grid L K where
  adjacencyList := ∅
  edgeWeights := ∅
  obstacles := ∅
  weights_nonneg e w h := by simp at h

/-- `add_location`. -/
def addLocation (g : Grid L K) (loc : L) (neighbors : List L) : Grid L K :=
  { g with adjacencyList := g.adjacencyList.insert loc neighbors }

/-- `add_obstacles`. -/
def addObstacles (g : Grid L K) (obs : List L) : Grid L K :=
  { g with obstacles := obs.foldl (fun s o => insert o s) g.obstacles }

/-- `is_walkable`. -/
def isWalkable (g : Grid L K) (loc : L) : Bool :=
  (g.adjacencyList.lookup loc).isSome && decide (loc ∉ g.obstacles)

/-- `set_edge_weight`: what it answers and the grid after it; `none` is a
weight that is not finite. -/
def setEdgeWeight (g : Grid L K) (from_ to_ : L) (w : Option K) : Bool × Grid L K :=
  match w with
  | none => (false, g)
  | some w =>
      if h : w < 0 then (false, g)
      else
        (true,
          { g with
            edgeWeights := g.edgeWeights.insert (from_, to_) w
            weights_nonneg := by
              intro e v hv
              by_cases he : e = (from_, to_)
              · rw [he, AList.lookup_insert] at hv
                rw [← Option.some.inj hv]
                exact not_lt.mp h
              · rw [AList.lookup_insert_ne he] at hv
                exact g.weights_nonneg e v hv })

/-- `neighbors`: `adjacency_list.at(loc)`. -/
def neighbors (g : Grid L K) (loc : L) : Option (List L) := g.adjacencyList.lookup loc

/-- `cost`. -/
def cost [One K] (g : Grid L K) (from_ to_ : L) : Option K :=
  if to_ ∈ g.obstacles then none
  else
    match g.edgeWeights.lookup (from_, to_) with
    | some w => some w
    | none => some 1

/-- The grid as `search` sees it, with costs that are added exactly. -/
def api [One K] [Add K] (g : Grid L K) : GridApi L K :=
  ⟨g.isWalkable, g.neighbors, g.cost, fun a b => some (a + b)⟩

end Grid

/-! ## The priority queue -/

/-- `std::pair`'s order, as far as `std::greater` asks for it. -/
def pairLt (a b : K × L) : Bool := decide (a.1 < b.1 ∨ (¬ b.1 < a.1 ∧ a.2 < b.2))

/-- `top()`: the least element. -/
def top (e : K × L) (es : List (K × L)) : K × L := es.foldl (fun m x => if pairLt x m then x else m) e

/-- `get()`: the least element and the queue without it. -/
def get : List (K × L) → Option ((K × L) × List (K × L))
  | [] => none
  | e :: es => some (top e es, (e :: es).erase (top e es))

/-! ## The search -/

/-- `search_result`. -/
inductive SearchResult where
  | found | notFound | invalidStart | invalidGoal | invalidGraph | invalidCost | invalidHeuristic
  | resourceLimitExceeded | cancelled
  deriving DecidableEq, Repr

/-- `search_options`. `shouldCancel`, if there is one, is the sequence of
its answers. -/
structure SearchOptions (L K : Type u) where
  heuristic : L → L → Option K
  maxExpansions : Nat
  shouldCancel : Option (Nat → Bool)

/-- The variables of `search`'s main loop; `asked` counts the calls of
`should_cancel`. `links` is a ghost: the assignments `came_from[next] =
current` so far, in order. -/
structure State (L K : Type u) [LinearOrder L] where
  frontier : List (WithTop K × L)
  cameFrom : AList fun _ : L => L
  costSoFar : AList fun _ : L => K
  closed : List L
  expansions : Nat
  asked : Nat
  links : List (L × L)

/-- `m[k]`: the value, and the map with the key in it. -/
def subscript (m : AList fun _ : L => K) (k : L) : AList (fun _ : L => K) × K :=
  match m.lookup k with
  | some v => (m, v)
  | none => (m.insert k 0, 0)

/-- `new_cost + h` as a priority. -/
def GridApi.priority (grid : GridApi L K) (newCost h : K) : WithTop K :=
  match grid.add newCost h with
  | none => ⊤
  | some p => p

section Search

variable (grid : GridApi L K) (options : SearchOptions L K) (start goal : L)

/-- The body of the loop over `grid.neighbors(current)`. -/
def relax (current : L) (st : State L K) (next : L) : Except SearchResult (State L K) :=
  if !grid.isWalkable next then .ok st
  else
    match grid.cost current next with
    | none => .ok st
    | some edgeCost =>
        let (costSoFar, c) := subscript st.costSoFar current
        let st := { st with costSoFar }
        match grid.add c edgeCost with
        | none => .error .invalidCost
        | some newCost =>
            if newCost < 0 then .error .invalidCost
            else if (match st.costSoFar.lookup next with
                | none => true
                | some old => decide (newCost < old)) then
              let st := { st with
                costSoFar := st.costSoFar.insert next newCost
                cameFrom := st.cameFrom.insert next current
                links := st.links ++ [(next, current)] }
              match options.heuristic next goal with
              | none => .error .invalidHeuristic
              | some h =>
                  if h < 0 then .error .invalidHeuristic
                  else .ok { st with
                    frontier := (grid.priority newCost h, next) :: st.frontier }
            else .ok st

/-- The loop over the neighbours. -/
def relaxAll (current : L) : State L K → List L → Except SearchResult (State L K)
  | st, [] => .ok st
  | st, next :: rest =>
      match relax grid options goal current st next with
      | .error r => .error r
      | .ok st => relaxAll current st rest

/-- Whether `should_cancel` is there and answers true, and the state after
the call. -/
def askCancel (st : State L K) : Bool × State L K :=
  match options.shouldCancel with
  | none => (false, st)
  | some f => (f st.asked, { st with asked := st.asked + 1 })

/-- Whether the expansion limit is passed, and the state after the
count. -/
def countExpansion (st : State L K) : Bool × State L K :=
  if options.maxExpansions = 0 then (false, st)
  else
    let n := (st.expansions + 1) % 2 ^ 64
    (decide (n > options.maxExpansions), { st with expansions := n })

/-- One turn of the main loop. It ends with a `return` (`error`) or by
leaving the loop (`ok`). -/
def searchTurn (st : State L K) :
    Option (Turn (State L K) (Except SearchResult (State L K))) :=
  match get st.frontier with
  | none => some (.exit (.ok st))
  | some ((_, current), frontier) =>
      let st := { st with frontier }
      if current ∈ st.closed then some (.again st)
      else
        let st := { st with closed := current :: st.closed }
        if current = goal then some (.exit (.ok st))
        else
          let (cancel, st) := askCancel options st
          if cancel then some (.exit (.error .cancelled))
          else
            let (limit, st) := countExpansion options st
            if limit then some (.exit (.error .resourceLimitExceeded))
            else
              match grid.neighbors current with
              | none => none
              | some ns =>
                  match relaxAll grid options goal current st ns with
                  | .error r => some (.exit (.error r))
                  | .ok st => some (.again st)

/-- The location whose neighbours a turn asks for. -/
def expands (st : State L K) : Option L :=
  match get st.frontier with
  | none => none
  | some ((_, current), queue) =>
      if current ∈ st.closed ∨ current = goal then none
      else
        let st := { st with frontier := queue, closed := current :: st.closed }
        let (cancel, st) := askCancel options st
        if cancel then none
        else if (countExpansion options st).1 then none
        else some current

/-- The calls of `neighbors` the main loop makes, in order. -/
def expansions : Nat → State L K → List L
  | 0, _ => []
  | fuel + 1, st =>
      (expands options goal st).toList ++
        match searchTurn grid options goal st with
        | some (.again st) => expansions fuel st
        | _ => []

/-- The loop that walks `came_from` back; `left` is `max_hops - hops`. -/
def reconstruct (cameFrom : AList fun _ : L => L) : Nat → L → List L → SearchResult × List L
  | left, current, path =>
      if current = start then (.found, (path ++ [start]).reverse)
      else
        match left with
        | 0 => (.invalidGraph, path ++ [current])
        | left + 1 =>
            match cameFrom.lookup current with
            | none => (.invalidGraph, path ++ [current])
            | some next => reconstruct cameFrom left next (path ++ [current])

/-- What the main loop starts from. -/
def initial : State L K where
  frontier := [(0, start)]
  cameFrom := AList.insert start start ∅
  costSoFar := AList.insert start 0 ∅
  closed := []
  expansions := 0
  asked := 0
  links := []

/-- `search`: the answer and the path vector. -/
def search (fuel : Nat) : Option (SearchResult × List L) :=
  if !grid.isWalkable start then some (.invalidStart, [])
  else if !grid.isWalkable goal then some (.invalidGoal, [])
  else if start = goal then some (.found, [start])
  else
    match repeatUntil (fun _ st => searchTurn grid options goal st) fuel (initial start) with
    | none => none
    | some (.error r) => some (r, [])
    | some (.ok st) =>
        match st.cameFrom.lookup goal with
        | none => some (.notFound, [])
        | some _ => some (reconstruct start st.cameFrom (st.cameFrom.entries.length + 1) goal [])

/-- The calls of `neighbors` that `search` makes, in order. -/
def searchExpansions (fuel : Nat) : List L :=
  if !grid.isWalkable start || !grid.isWalkable goal || decide (start = goal) then []
  else expansions grid options goal fuel (initial start)

end Search

end HighJump.Algo.AStar
