/-
HighJump.Algo.AStarLinks — the parent links of `search`, on grids of any
kind and without any assumption on the heuristic.

Labels and parents of closed locations may change here, so nothing is
optimal and `came_from` follows no order of closing. What a turn does is
to take an entry out of the queue and to improve some labels; `Kept` is an
invariant of these two, and the lemmas about a turn and about the loop are
stated for all such invariants at once. `Labelled` holds on every grid:
what is labelled has a parent, which is labelled, and `came_from` is what
the assignments so far have made of it. `Linked` holds where no sum along
an edge is less than what it is added to: there the labels rise along the
links, which lead back to the start, and no assignment closes a circle.
-/
import HighJump.Algo.AStarTurn
import HighJump.Lib.Paths

namespace HighJump.Algo.AStar

open HighJump.Lib HighJump.Lib.Paths

universe u

variable {L K : Type u} [LinearOrder L] [Zero K] [LinearOrder K]

/-! ## Walking back -/

section Back

variable {start : L} {cameFrom : AList fun _ : L => L}

/-- `came_from` as a function. -/
def parents (cameFrom : AList fun _ : L => L) (x : L) : Option L := cameFrom.lookup x

theorem parents_insert (cameFrom : AList fun _ : L => L) (u v : L) :
    parents (cameFrom.insert v u) = Function.update (parents cameFrom) v (some u) := by
  funext x
  by_cases hx : x = v
  · subst hx
    rw [Function.update_self]
    exact AList.lookup_insert cameFrom
  · rw [Function.update_of_ne hx]
    exact AList.lookup_insert_ne hx

/-- Where the links lead back to the start, the walk finds it. -/
theorem reconstruct_of_traced {x : L} {p : List L} (h : Traced (parents cameFrom) start x p) :
    ∀ (left : Nat) (path : List L), p.length ≤ left + 1 →
      reconstruct start cameFrom left x path = (.found, p ++ path.reverse) := by
  induction h with
  | root =>
    intro left path _
    unfold reconstruct
    simp
  | @step x y p hne hy h ih =>
    intro left path hlen
    rw [List.length_append, List.length_singleton] at hlen
    have hpos : 0 < p.length := List.length_pos_of_mem (List.mem_of_getLast? h.head_last.2)
    obtain ⟨left, rfl⟩ : ∃ k, left = k + 1 := ⟨left - 1, by omega⟩
    have hlookup : cameFrom.lookup x = some y := hy
    unfold reconstruct
    simp only [hne, if_false, hlookup]
    rw [ih left (path ++ [x]) (by omega)]
    simp

/-- The walk finds the start along the links, or gives up with something
in the path. -/
theorem reconstruct_cases (start : L) (cameFrom : AList fun _ : L => L) :
    ∀ (left : Nat) (x : L) (path : List L), (∃ p, Traced (parents cameFrom) start x p) ∨
      ∃ path', reconstruct start cameFrom left x path = (.invalidGraph, path') ∧ path' ≠ [] := by
  intro left
  induction left with
  | zero =>
    intro x path
    by_cases hx : x = start
    · subst hx
      exact .inl ⟨_, .root⟩
    · exact .inr ⟨path ++ [x], by unfold reconstruct; simp [hx], by simp⟩
  | succ left ih =>
    intro x path
    by_cases hx : x = start
    · subst hx
      exact .inl ⟨_, .root⟩
    · cases hl : cameFrom.lookup x with
      | none => exact .inr ⟨path ++ [x], by unfold reconstruct; simp [hx, hl], by simp⟩
      | some y =>
        rcases ih y (path ++ [x]) with ⟨p, hp⟩ | ⟨path', hrec, hne⟩
        · exact .inl ⟨_, .step hx hl hp⟩
        · exact .inr ⟨path', by unfold reconstruct; simp [hx, hl, hrec], hne⟩

/-- `max_hops` is enough for every way back. -/
theorem traced_length_le {x : L} {p : List L} (h : Traced (parents cameFrom) start x p) :
    p.length ≤ cameFrom.entries.length + 1 := by
  have hsub : p ⊆ start :: cameFrom.keys := by
    intro z hz
    by_cases hzs : z = start
    · exact List.mem_cons.mpr (.inl hzs)
    · obtain ⟨y, hy⟩ := h.linked hz hzs
      exact List.mem_cons_of_mem _
        (AList.mem_keys.mp (AList.lookup_isSome.mp (Option.isSome_iff_exists.mpr ⟨y, hy⟩)))
  have hlen := (h.nodup.subperm hsub).length_le
  simpa [AList.keys, List.keys] using hlen

end Back

/-! ## The invariants -/

/-- A step between walkable locations, and what it costs. -/
def GridApi.Edge (grid : GridApi L K) (x y : L) (w : K) : Prop :=
  grid.isWalkable x = true ∧ grid.isWalkable y = true ∧
    (∃ ns, grid.neighbors x = some ns ∧ y ∈ ns) ∧ grid.cost x y = some w

/-- No sum along an edge is less than what it is added to: costs that are
not negative, in any monotone rounding. -/
def GridApi.SumsGrow (grid : GridApi L K) : Prop :=
  ∀ x y w a c, grid.Edge x y w → grid.add a w = some c → a ≤ c

/-- `cost_so_far` as a function. -/
def labels (st : State L K) (x : L) : Option K := st.costSoFar.lookup x

/-- What holds between two relaxations. -/
structure Labelled (grid : GridApi L K) (start : L) (st : State L K) : Prop where
  start_label : labels st start = some 0
  walkable : ∀ x c, labels st x = some c → grid.isWalkable x = true
  linked : ∀ x c, labels st x = some c →
    ∃ y b, parents st.cameFrom x = some y ∧ labels st y = some b
  came : ∀ x y, parents st.cameFrom x = some y → ∃ c, labels st x = some c
  entry : ∀ p x, (p, x) ∈ st.frontier → ∃ c, labels st x = some c
  recorded : parents st.cameFrom = assigned start st.links
  kept_start : ∀ l ∈ st.links, l.1 ≠ start

/-- What holds besides where sums grow. -/
structure Linked (grid : GridApi L K) (start : L) (st : State L K) : Prop
    extends Labelled grid start st where
  traced : ∀ x c, labels st x = some c → ∃ p, Traced (parents st.cameFrom) start x p
  rising : Rising (fun x y => ∃ w, grid.Edge x y w) (labels st) (parents st.cameFrom) start
  unclosed : Unclosed start st.links

/-- The state between two relaxations, with an entry of the queue dropped
and the bookkeeping of a turn done. -/
def State.popped (st : State L K) (e : WithTop K × L) (closed : List L) (asked n : Nat) :
    State L K :=
  { st with frontier := st.frontier.erase e, closed, asked, expansions := n }

/-- An invariant of what the main loop does to a state, beside what holds
on every grid. -/
structure Kept (grid : GridApi L K) (start : L) (I : State L K → Prop) : Prop where
  labelled : ∀ st, I st → Labelled grid start st
  pop : ∀ st e closed asked n, I st → I (st.popped e closed asked n)
  improve : ∀ st u v a w c p, I st → labels st u = some a → grid.Edge u v w →
    grid.add a w = some c → 0 ≤ c → (∀ old, labels st v = some old → c < old) →
    I (st.improve u v c p)

section Improve

variable {grid : GridApi L K} {start : L} {st : State L K} {u v : L} {a w c : K} {p : WithTop K}

omit [Zero K] [LinearOrder K] in
theorem labels_improve (st : State L K) (u v x : L) (c : K) (p : WithTop K) :
    labels (st.improve u v c p) x = if x = v then some c else labels st x := by
  by_cases hx : x = v
  · subst hx
    rw [if_pos rfl]
    exact AList.lookup_insert _
  · rw [if_neg hx]
    exact AList.lookup_insert_ne hx

omit [Zero K] [LinearOrder K] in
theorem parents_improve (st : State L K) (u v : L) (c : K) (p : WithTop K) :
    parents (st.improve u v c p).cameFrom =
      Function.update (parents st.cameFrom) v (some u) :=
  parents_insert st.cameFrom u v

omit [Zero K] [LinearOrder K] in
/-- What is labelled stays labelled. -/
theorem exists_label_improve {x : L} (h : ∃ b, labels st x = some b) :
    ∃ b, labels (st.improve u v c p) x = some b := by
  rw [labels_improve]
  split
  · exact ⟨c, rfl⟩
  · exact h

/-- The start is never labelled lower. -/
theorem Labelled.ne_start (hl : Labelled grid start st) (h0 : 0 ≤ c)
    (hlt : ∀ old, labels st v = some old → c < old) : v ≠ start := by
  rintro rfl
  exact absurd (hlt 0 hl.start_label) (not_lt.mpr h0)

/-- **An improvement keeps the labels in order.** -/
theorem Labelled.improve (hl : Labelled grid start st) (ha : labels st u = some a)
    (he : grid.Edge u v w) (h0 : 0 ≤ c) (hlt : ∀ old, labels st v = some old → c < old) :
    Labelled grid start (st.improve u v c p) := by
  have hvs := hl.ne_start h0 hlt
  constructor
  case start_label =>
    rw [labels_improve, if_neg (Ne.symm hvs)]
    exact hl.start_label
  case walkable =>
    intro x d hx
    rw [labels_improve] at hx
    by_cases hxv : x = v
    · subst hxv
      exact he.2.1
    · rw [if_neg hxv] at hx
      exact hl.walkable x d hx
  case linked =>
    intro x d hx
    rw [labels_improve] at hx
    rw [parents_improve]
    by_cases hxv : x = v
    · subst hxv
      obtain ⟨b, hb⟩ := exists_label_improve (u := u) (v := x) (c := c) (p := p) ⟨a, ha⟩
      exact ⟨u, b, Function.update_self .., hb⟩
    · rw [if_neg hxv] at hx
      obtain ⟨y, b, hy, hb⟩ := hl.linked x d hx
      obtain ⟨b', hb'⟩ := exists_label_improve (u := u) (v := v) (c := c) (p := p) ⟨b, hb⟩
      exact ⟨y, b', by rw [Function.update_of_ne hxv, hy], hb'⟩
  case came =>
    intro x y hxy
    rw [parents_improve] at hxy
    by_cases hxv : x = v
    · exact ⟨c, by rw [labels_improve, if_pos hxv]⟩
    · rw [Function.update_of_ne hxv] at hxy
      exact exists_label_improve (hl.came x y hxy)
  case entry =>
    intro q x hx
    rcases List.mem_cons.mp hx with hx | hx
    · exact ⟨c, by rw [labels_improve, if_pos (Prod.mk.inj hx).2]⟩
    · exact exists_label_improve (hl.entry q x hx)
  case recorded =>
    rw [parents_improve, hl.recorded]
    exact (assigned_snoc start st.links v u).symm
  case kept_start =>
    intro l hmem
    rcases List.mem_append.mp hmem with hmem | hmem
    · exact hl.kept_start l hmem
    · rw [List.mem_singleton.mp hmem]
      exact hvs

/-- **An improvement keeps the links** where sums grow. -/
theorem Linked.improve (hl : Linked grid start st) (hgrow : grid.SumsGrow)
    (ha : labels st u = some a) (he : grid.Edge u v w) (hadd : grid.add a w = some c)
    (h0 : 0 ≤ c) (hlt : ∀ old, labels st v = some old → c < old) :
    Linked grid start (st.improve u v c p) := by
  have hle : a ≤ c := hgrow u v w a c he hadd
  obtain ⟨q, hq⟩ := hl.traced u a ha
  -- the way to `u` does not go through `v`
  have hvq : v ∉ q := by
    intro hv
    by_cases hvs : v = start
    · exact hl.ne_start h0 hlt hvs
    · obtain ⟨y, hy⟩ := hq.linked hv hvs
      obtain ⟨b, hb⟩ := hl.came v y hy
      exact hq.not_mem_of_improves hl.rising ha hb hle (hlt b hb) hv
  have hvs := hl.ne_start h0 hlt
  have huv : u ≠ v := by
    rintro rfl
    exact hvq (List.mem_of_getLast? hq.head_last.2)
  obtain ⟨qu, hqu⟩ := hq.relink hvq hq
  refine
    { hl.toLabelled.improve ha he h0 hlt with
      traced := ?traced, rising := ?rising, unclosed := ?unclosed }
  case traced =>
    intro x d hx
    rw [parents_improve]
    rw [labels_improve] at hx
    by_cases hxv : x = v
    · subst hxv
      exact ⟨_, .step hvs (Function.update_self ..) hqu⟩
    · rw [if_neg hxv] at hx
      obtain ⟨r, hr⟩ := hl.traced x d hx
      exact hq.relink hvq hr
  case rising =>
    intro x y hxy hxs
    rw [parents_improve] at hxy
    by_cases hxv : x = v
    · subst hxv
      rw [Function.update_self] at hxy
      obtain rfl := Option.some.inj hxy
      exact ⟨a, c, by rw [labels_improve, if_neg huv, ha], ⟨w, he⟩,
        by rw [labels_improve, if_pos rfl], hle⟩
    · rw [Function.update_of_ne hxv] at hxy
      obtain ⟨b, d, hb, he', hd, hbd⟩ := hl.rising x y hxy hxs
      by_cases hyv : y = v
      · subst hyv
        exact ⟨c, d, by rw [labels_improve, if_pos rfl], he',
          by rw [labels_improve, if_neg hxv, hd], (hlt b hb).le.trans hbd⟩
      · exact ⟨b, d, by rw [labels_improve, if_neg hyv, hb], he',
          by rw [labels_improve, if_neg hxv, hd], hbd⟩

  case unclosed =>
    have hself : parents st.cameFrom start = some start := by
      rw [hl.recorded, assigned_of_ne hl.kept_start, if_pos rfl]
    refine hl.unclosed.snoc fun hlead => hvq (hq.mem_of_leadsTo hself ?_)
    rwa [hl.recorded]

theorem Labelled.popped (hl : Labelled grid start st) (e : WithTop K × L) (closed : List L)
    (asked n : Nat) : Labelled grid start (st.popped e closed asked n) :=
  { hl with entry := fun p x hx => hl.entry p x (List.mem_of_mem_erase hx) }

theorem labelled_kept (grid : GridApi L K) (start : L) :
    Kept grid start (Labelled grid start) where
  labelled _ := id
  pop _ e closed asked n hl := hl.popped e closed asked n
  improve _ _ _ _ _ _ _ hl ha he _ h0 hlt := hl.improve ha he h0 hlt

theorem linked_kept (hgrow : grid.SumsGrow) (start : L) : Kept grid start (Linked grid start) where
  labelled _ hl := hl.toLabelled
  pop _ e closed asked n hl :=
    { hl.toLabelled.popped e closed asked n with
      traced := hl.traced, rising := hl.rising, unclosed := hl.unclosed }
  improve _ _ _ _ _ _ _ hl ha he hadd h0 hlt := hl.improve hgrow ha he hadd h0 hlt

theorem linked_initial (hstart : grid.isWalkable start = true) :
    Linked grid start (initial start : State L K) := by
  have hlab : ∀ x, labels (initial start : State L K) x = if x = start then some 0 else none := by
    intro x
    by_cases hx : x = start
    · subst hx
      rw [if_pos rfl]
      exact AList.lookup_insert _
    · rw [if_neg hx]
      exact AList.lookup_insert_ne hx
  have heq : ∀ {x c}, labels (initial start : State L K) x = some c → x = start := by
    intro x c hx
    rw [hlab] at hx
    by_contra hne
    rw [if_neg hne] at hx
    cases hx
  have hparent : parents (initial start : State L K).cameFrom =
      Function.update (fun _ => none) start (some start) :=
    parents_insert ∅ start start
  refine
    { start_label := ?start_label, walkable := ?walkable, linked := ?linked, came := ?came
      entry := ?entry, recorded := ?recorded, kept_start := ?kept_start, traced := ?traced
      rising := ?rising, unclosed := unclosed_nil start }
  case start_label => rw [hlab, if_pos rfl]
  case walkable => exact fun x c hx => heq hx ▸ hstart
  case linked =>
    intro x c hx
    obtain rfl := heq hx
    exact ⟨x, 0, by rw [hparent, Function.update_self], by rw [hlab, if_pos rfl]⟩
  case came =>
    intro x y hxy
    by_cases hxs : x = start
    · exact ⟨0, by rw [hlab, if_pos hxs]⟩
    · rw [hparent, Function.update_of_ne hxs] at hxy
      cases hxy
  case entry =>
    intro p x hx
    obtain ⟨-, rfl⟩ := Prod.mk.inj (List.mem_singleton.mp hx)
    exact ⟨0, by rw [hlab, if_pos rfl]⟩
  case recorded => exact hparent
  case kept_start => exact fun l hl => absurd hl List.not_mem_nil
  case traced =>
    intro x c hx
    obtain rfl := heq hx
    exact ⟨_, .root⟩
  case rising =>
    intro x y hxy hxs
    rw [hparent, Function.update_of_ne hxs] at hxy
    cases hxy

end Improve

/-! ## Turns -/

section Turn

variable {grid : GridApi L K} {start : L} {st : State L K} {I : State L K → Prop}

/-- What one neighbour does: it keeps the invariant, closes nothing and
puts one entry in the queue at most, or the search is over. -/
theorem Kept.relax (hI : Kept grid start I) (options : SearchOptions L K) (goal : L)
    {u v : L} {ns : List L} (hns : grid.neighbors u = some ns) (hv : v ∈ ns) (hi : I st) {a : K}
    (ha : labels st u = some a) :
    (∃ r, (r = .invalidCost ∨ r = .invalidHeuristic) ∧
      relax grid options goal u st v = .error r) ∨
    ∃ st', relax grid options goal u st v = .ok st' ∧ I st' ∧ (∃ b, labels st' u = some b) ∧
      st'.closed = st.closed ∧ st'.frontier.length ≤ st.frontier.length + 1 := by
  have hrel : Relaxes grid options goal u a st v (AStar.relax grid options goal u st v) :=
    relax_relaxes v ha
  generalize AStar.relax grid options goal u st v = r at hrel ⊢
  cases hrel with
  | blocked => exact .inr ⟨st, rfl, hi, ⟨a, ha⟩, rfl, by omega⟩
  | endless => exact .inr ⟨st, rfl, hi, ⟨a, ha⟩, rfl, by omega⟩
  | overflow => exact .inl ⟨_, .inl rfl, rfl⟩
  | negative => exact .inl ⟨_, .inl rfl, rfl⟩
  | kept => exact .inr ⟨st, rfl, hi, ⟨a, ha⟩, rfl, by omega⟩
  | unguided => exact .inl ⟨_, .inr rfl, rfl⟩
  | improved hwv hc hadd h0 hlt =>
    have he : grid.Edge u v _ := ⟨(hI.labelled st hi).walkable u a ha, hwv, ⟨ns, hns, hv⟩, hc⟩
    exact .inr ⟨_, rfl, hI.improve st u v a _ _ _ hi ha he hadd h0 hlt,
      exists_label_improve ⟨a, ha⟩, rfl, le_rfl⟩

/-- What all neighbours do. -/
theorem Kept.relaxAll (hI : Kept grid start I) (options : SearchOptions L K) (goal : L) {u : L}
    {ns : List L} (hns : grid.neighbors u = some ns) (rest : List L) :
    ∀ st : State L K, (∀ v ∈ rest, v ∈ ns) → I st → (∃ a, labels st u = some a) →
      (∃ r, (r = .invalidCost ∨ r = .invalidHeuristic) ∧
        relaxAll grid options goal u st rest = .error r) ∨
      ∃ st', relaxAll grid options goal u st rest = .ok st' ∧ I st' ∧
        st'.closed = st.closed ∧ st'.frontier.length ≤ st.frontier.length + rest.length := by
  induction rest with
  | nil => exact fun st _ hi _ => .inr ⟨st, rfl, hi, rfl, le_rfl⟩
  | cons v rest ih =>
    intro st hsub hi ⟨a, ha⟩
    rcases hI.relax options goal hns (hsub v List.mem_cons_self) hi ha with
      ⟨r, hr, hrel⟩ | ⟨st₁, hrel, hi₁, hu, hcl₁, hlen₁⟩ <;> simp only [AStar.relaxAll, hrel]
    · exact .inl ⟨r, hr, rfl⟩
    · rcases ih st₁ (fun x hx => hsub x (List.mem_cons_of_mem v hx)) hi₁ hu with
        h | ⟨st', hst', hi', hcl, hlen⟩
      · exact .inl h
      · refine .inr ⟨st', hst', hi', hcl.trans hcl₁, ?_⟩
        rw [List.length_cons]
        omega

/-- Only walkable locations that are not closed yet are expanded. -/
theorem Labelled.expands (hl : Labelled grid start st) {options : SearchOptions L K} {goal u : L}
    (h : expands options goal st = some u) : u ∉ st.closed ∧ grid.isWalkable u = true := by
  obtain ⟨x, r, hx, -, hcases⟩ := searchTurn_turns grid options goal st
  rw [h] at hx
  -- of the turns that expand a location only what they pop matters
  have hpop : ∀ {p q}, get st.frontier = some ((p, u), q) → grid.isWalkable u = true := by
    intro p q hget
    obtain ⟨hmem, -, -⟩ := get_spec hget
    obtain ⟨a, ha⟩ := hl.entry p u hmem
    exact hl.walkable u a ha
  subst hx
  cases hcases with
  | thrown hget hu => exact ⟨hu, hpop hget⟩
  | failed hget hu => exact ⟨hu, hpop hget⟩
  | expanded hget hu => exact ⟨hu, hpop hget⟩

/-- **A turn keeps the invariant**; it drops an entry of the queue, or
closes a location and brings an entry for each neighbour at most. -/
theorem Kept.searchTurn (hI : Kept grid start I) (options : SearchOptions L K) (goal : L)
    (hi : I st) :
    (searchTurn grid options goal st = none ∧
      ∃ u, grid.isWalkable u = true ∧ grid.neighbors u = none) ∨
    (∃ st', searchTurn grid options goal st = some (.exit (.ok st')) ∧ I st') ∨
    (∃ r, searchTurn grid options goal st = some (.exit (.error r)) ∧
      r ≠ .invalidGraph ∧ r ≠ .found) ∨
    ∃ st', searchTurn grid options goal st = some (.again st') ∧ I st' ∧
      ((expands options goal st = none ∧ st'.closed = st.closed ∧
          st'.frontier.length < st.frontier.length) ∨
        ∃ u ns, expands options goal st = some u ∧ grid.neighbors u = some ns ∧
          st'.closed = u :: st.closed ∧
          st'.frontier.length < st.frontier.length + ns.length) := by
  obtain ⟨x, r, hx, hturn, hcases⟩ := searchTurn_turns grid options goal st
  rw [hturn, hx]
  -- a location popped is labelled, so it is walkable
  have hpop : ∀ {p u q}, get st.frontier = some ((p, u), q) →
      q = st.frontier.erase (p, u) ∧ q.length + 1 = st.frontier.length ∧
        (∃ a, labels st u = some a) ∧ grid.isWalkable u = true := by
    intro p u q hget
    obtain ⟨hmem, -, rfl⟩ := get_spec hget
    obtain ⟨a, ha⟩ := (hI.labelled st hi).entry p u hmem
    exact ⟨rfl, List.length_erase_add_one hmem, ⟨a, ha⟩, (hI.labelled st hi).walkable u a ha⟩
  cases hcases with
  | empty => exact .inr (.inl ⟨st, rfl, hi⟩)
  | stale hget =>
    obtain ⟨rfl, hlen, -⟩ := hpop hget
    exact .inr (.inr (.inr ⟨_, rfl, hI.pop st _ st.closed st.asked st.expansions hi,
      .inl ⟨rfl, rfl, by simp only; omega⟩⟩))
  | arrived hget =>
    obtain ⟨rfl, -⟩ := hpop hget
    exact .inr (.inl ⟨_, rfl, hI.pop st _ (goal :: st.closed) st.asked st.expansions hi⟩)
  | cancelled => exact .inr (.inr (.inl ⟨_, rfl, by decide, by decide⟩))
  | limited => exact .inr (.inr (.inl ⟨_, rfl, by decide, by decide⟩))
  | thrown hget _ hns =>
    obtain ⟨-, -, -, hw⟩ := hpop hget
    exact .inl ⟨rfl, _, hw, hns⟩
  | @failed p u q asked n ns r hget _ hns hrel =>
    obtain ⟨rfl, -, hlab, -⟩ := hpop hget
    rcases hI.relaxAll options goal hns ns (st.popped (p, u) (u :: st.closed) asked n)
      (fun _ => id) (hI.pop st _ _ _ _ hi) hlab with ⟨r', hr, hrel'⟩ | ⟨st', hst', -⟩
    · obtain rfl := Except.error.inj (hrel.symm.trans hrel')
      refine .inr (.inr (.inl ⟨_, rfl, ?_⟩))
      rcases hr with rfl | rfl <;> decide
    · cases hrel.symm.trans hst'
  | @expanded p u q asked n ns st' hget hu _ hns hrel =>
    obtain ⟨rfl, hlen, hlab, -⟩ := hpop hget
    rcases hI.relaxAll options goal hns ns (st.popped (p, u) (u :: st.closed) asked n)
      (fun _ => id) (hI.pop st _ _ _ _ hi) hlab with
      ⟨r', -, hrel'⟩ | ⟨st₁, hst₁, hi', hcl, hlen'⟩
    · cases hrel.symm.trans hrel'
    · obtain rfl := Except.ok.inj (hrel.symm.trans hst₁)
      refine .inr (.inr (.inr ⟨st', rfl, hi', .inr ⟨u, ns, rfl, hns, hcl, ?_⟩⟩))
      simp only [State.popped] at hlen'
      omega

end Turn

/-! ## The main loop -/

section Search

variable (grid : GridApi L K) (options : SearchOptions L K) (start goal : L)

/-- The main loop of `search`. -/
def mainLoop (fuel : Nat) : Option (Except SearchResult (State L K)) :=
  repeatUntil (fun _ st => searchTurn grid options goal st) fuel (initial start)

variable {grid options start goal}

/-- Where the answer of `search` comes from. -/
theorem search_cases {fuel : Nat} {r : SearchResult} {p : List L}
    (h : search grid options start goal fuel = some (r, p)) :
    (start = goal ∧ r = .found ∧ p = [start] ∧ grid.isWalkable start = true) ∨
    (p = [] ∧ (r = .invalidStart ∨ r = .invalidGoal ∨ r = .notFound ∨
      mainLoop grid options start goal fuel = some (.error r))) ∨
    ∃ st y, grid.isWalkable start = true ∧ grid.isWalkable goal = true ∧
      mainLoop grid options start goal fuel = some (.ok st) ∧
      parents st.cameFrom goal = some y ∧
      reconstruct start st.cameFrom (st.cameFrom.entries.length + 1) goal [] = (r, p) := by
  unfold search at h
  cases hs : grid.isWalkable start with
  | false =>
    simp only [hs, Bool.not_false, if_true, Option.some.injEq, Prod.mk.injEq] at h
    exact .inr (.inl ⟨h.2.symm, .inl h.1.symm⟩)
  | true =>
    cases hg : grid.isWalkable goal with
    | false =>
      simp only [hs, hg, Bool.not_true, Bool.not_false, Bool.false_eq_true, if_false, if_true,
        Option.some.injEq, Prod.mk.injEq] at h
      exact .inr (.inl ⟨h.2.symm, .inr (.inl h.1.symm)⟩)
    | true =>
      simp only [hs, hg, Bool.not_true, Bool.false_eq_true, if_false] at h
      by_cases hne : start = goal
      · rw [if_pos hne, Option.some.injEq, Prod.mk.injEq] at h
        exact .inl ⟨hne, h.1.symm, h.2.symm, rfl⟩
      · rw [if_neg hne] at h
        cases hloop : mainLoop grid options start goal fuel with
        | none =>
          rw [mainLoop] at hloop
          rw [hloop] at h
          cases h
        | some e =>
          have hloop' := hloop
          rw [mainLoop] at hloop'
          rw [hloop'] at h
          cases e with
          | error r' =>
            obtain ⟨rfl, rfl⟩ := Prod.mk.inj (Option.some.inj h)
            exact .inr (.inl ⟨rfl, .inr (.inr (.inr rfl))⟩)
          | ok st =>
            cases hl : parents st.cameFrom goal with
            | none =>
              rw [parents] at hl
              simp only [hl, Option.some.injEq, Prod.mk.injEq] at h
              exact .inr (.inl ⟨h.2.symm, .inr (.inr (.inl h.1.symm))⟩)
            | some y =>
              have hl' := hl
              rw [parents] at hl'
              simp only [hl', Option.some.injEq] at h
              exact .inr (.inr ⟨st, y, rfl, rfl, rfl, hl, h⟩)

/-- With a parent for the goal, the answer is what walking back gives. -/
theorem search_of_loop {fuel : Nat} {st : State L K} {y : L} (hs : grid.isWalkable start = true)
    (hg : grid.isWalkable goal = true) (hne : start ≠ goal)
    (hloop : mainLoop grid options start goal fuel = some (.ok st))
    (hy : parents st.cameFrom goal = some y) :
    search grid options start goal fuel =
      some (reconstruct start st.cameFrom (st.cameFrom.entries.length + 1) goal []) := by
  rw [mainLoop] at hloop
  rw [parents] at hy
  simp [search, hs, hg, hne, hloop, hy]

/-- What is kept holds whenever the main loop is left. -/
theorem Kept.mainLoop {I : State L K → Prop} (hI : Kept grid start I)
    (hinit : I (initial start)) {fuel : Nat} {st : State L K}
    (h : mainLoop grid options start goal fuel = some (.ok st)) : I st := by
  refine repeatUntil_sound I (fun r => ∀ st, r = .ok st → I st) (fun n s s' hl hturn => ?_)
    (fun n s r hl hturn st hr => ?_) fuel (initial start) _ hinit h st rfl
  · rcases hI.searchTurn options goal hl with
      ⟨h, -⟩ | ⟨st, h, -⟩ | ⟨r, h, -⟩ | ⟨st, h, hl', -⟩ <;> rw [hturn] at h
    · cases h
    · cases h
    · cases h
    · obtain rfl := Turn.again.inj (Option.some.inj h)
      exact hl'
  · subst hr
    rcases hI.searchTurn options goal hl with
      ⟨h, -⟩ | ⟨st, h, hl'⟩ | ⟨r, h, -⟩ | ⟨st, h, -⟩ <;> rw [hturn] at h
    · cases h
    · obtain rfl := Except.ok.inj (Turn.exit.inj (Option.some.inj h))
      exact hl'
    · cases h
    · cases h

end Search

end HighJump.Algo.AStar
