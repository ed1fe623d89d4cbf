/-
HighJump.Lib.Paths — routes in a weighted directed graph, and the two
facts a best-first search is correct by.

A graph is a relation `E x y w` over arbitrary vertices, weighted in an
ordered group. A route keeps its vertex list and its cost. `frontier`
says that a route leaving a set of settled, fully relaxed vertices leaves
it through a labelled vertex whose label the route so far justifies;
`pop_optimal` adds a consistent potential and concludes that the
unsettled vertex of least label plus potential has an optimal label.

Parent links are any partial function, `LeadsTo` is following them and
`Traced` the way they lead back to the root. Following them from a vertex
ends where there is no link or goes round in a circle (`exists_circle`).
Where no label is less than that of the parent (`Rising`), no strict
improvement closes a circle.
-/
import Mathlib.Algebra.Order.Group.Defs
import Mathlib.Data.List.Chain
import Mathlib.Data.List.Nodup
import Mathlib.Data.Set.Finite.Basic
import Mathlib.Logic.Function.Basic
import Mathlib.Logic.Relation
import Mathlib.Tactic.Linarith

namespace HighJump.Lib.Paths

universe u v

variable {V : Type u} {K : Type v} [CommRing K] [LinearOrder K] [IsStrictOrderedRing K]

/-- `Route E x z p c`: the vertices `p` lead from `x` to `z` along edges
of total cost `c`. -/
inductive Route (E : V → V → K → Prop) : V → V → List V → K → Prop where
  | refl (x : V) : Route E x x [x] 0
  | cons {x y z : V} {w c : K} {p : List V} :
      E x y w → Route E y z p c → Route E x z (x :: p) (w + c)

variable {E : V → V → K → Prop}

namespace Route

omit [LinearOrder K] [IsStrictOrderedRing K] in
theorem snoc {x y z : V} {p : List V} {c w : K} (h : Route E x y p c) (he : E y z w) :
    Route E x z (p ++ [z]) (c + w) := by
  induction h with
  | refl x =>
    have hr := Route.cons he (Route.refl z)
    rwa [add_zero, ← zero_add w] at hr
  | cons he' _ ih =>
    have hr := Route.cons he' (ih he)
    rwa [← add_assoc] at hr

theorem cost_nonneg (hE : ∀ x y w, E x y w → 0 ≤ w) {x y : V} {p : List V} {c : K}
    (h : Route E x y p c) : 0 ≤ c := by
  induction h with
  | refl x => exact le_rfl
  | cons he _ ih => exact add_nonneg (hE _ _ _ he) ih

/-- A consistent potential bounds the cost of every route. -/
theorem potential {φ : V → K} (hφ : ∀ x y w, E x y w → φ x ≤ w + φ y) {x y : V} {p : List V}
    {c : K} (h : Route E x y p c) : φ x ≤ c + φ y := by
  induction h with
  | refl x => rw [zero_add]
  | @cons x y z w c p he _ ih =>
    have := hφ x y w he
    linarith

end Route

/-! ## Labels -/

/-- Every edge out of a settled vertex has been relaxed. -/
def Relaxed (E : V → V → K → Prop) (S : V → Prop) (label : V → Option K) : Prop :=
  ∀ u a v w, S u → label u = some a → E u v w → ∃ b, label v = some b ∧ b ≤ a + w

/-- A route that leaves the settled vertices leaves them through a label
it justifies. -/
theorem frontier {S : V → Prop} {label : V → Option K} (hrel : Relaxed E S label) {x y : V}
    {p : List V} {c : K} (h : Route E x y p c) :
    ∀ {a : K}, S x → label x = some a → ¬ S y →
      ∃ v b q c', ¬ S v ∧ label v = some b ∧ Route E v y q c' ∧ b + c' ≤ a + c := by
  induction h with
  | refl x => intro a hx _ hy; exact absurd hx hy
  | @cons x y z w c p he hr ih =>
    intro a hx ha hz
    obtain ⟨b, hb, hle⟩ := hrel x a y w hx ha he
    by_cases hy : S y
    · obtain ⟨v, b', q, c', hv, hb', hr', hle'⟩ := ih hy hb hz
      exact ⟨v, b', q, c', hv, hb', hr', by linarith⟩
    · exact ⟨y, b, p, c, hy, hb, hr, by linarith⟩

/-- The unsettled vertex of least label plus potential has an optimal
label. -/
theorem pop_optimal {S : V → Prop} {label : V → Option K} (hrel : Relaxed E S label) {φ : V → K}
    (hφ : ∀ x y w, E x y w → φ x ≤ w + φ y) {s u : V} {a : K} (hs : S s)
    (hs0 : label s = some 0) (hu : ¬ S u)
    (hmin : ∀ v b, ¬ S v → label v = some b → a + φ u ≤ b + φ v) {p : List V} {c : K}
    (h : Route E s u p c) : a ≤ c := by
  obtain ⟨v, b, q, c', hv, hb, hr, hle⟩ := frontier hrel h hs hs0 hu
  have h1 := hmin v b hv hb
  have h2 := hr.potential hφ
  linarith

/-! ## Parent links -/

/-- Following the links from `x` one comes to `y`. -/
def LeadsTo (parent : V → Option V) : V → V → Prop :=
  Relation.ReflTransGen fun x y => parent x = some y

namespace LeadsTo

variable {parent parent' : V → Option V} {x y u v w : V}

/-- A vertex has one link. -/
theorem unique : Relator.RightUnique fun x y : V => parent x = some y :=
  fun _ _ _ hy hz => Option.some.inj (hy.symm.trans hz)

/-- Of two vertices on one way, one leads to the other. -/
theorem total (hx : LeadsTo parent u x) (hy : LeadsTo parent u y) :
    LeadsTo parent x y ∨ LeadsTo parent y x :=
  Relation.ReflTransGen.total_of_right_unique unique hx hy

/-- A vertex that is its own parent leads nowhere else. -/
theorem eq_of_self (hself : parent x = some x) (h : LeadsTo parent x y) : y = x := by
  induction h with
  | refl => rfl
  | @tail y z _ hyz ih =>
    rw [ih] at hyz
    exact (Option.some.inj (hself.symm.trans hyz)).symm

/-- From a circle all ways lead back to it. -/
theorem back (hlink : parent v = some u) (huv : LeadsTo parent u v) (h : LeadsTo parent v w) :
    LeadsTo parent w v := by
  induction h with
  | refl => exact .refl
  | @tail w z _ hwz ih =>
    rcases ih.cases_head with rfl | ⟨z', hwz', hz'⟩
    · rwa [← Option.some.inj (hlink.symm.trans hwz)]
    · rwa [← Option.some.inj (hwz'.symm.trans hwz)]

/-- Links that agree wherever one comes on the way to `v` lead there as
well. -/
theorem congr {C : V → Prop} (hC : ∀ a b, C a → parent a = some b → C b)
    (hagree : ∀ a, C a → a ≠ v → parent' a = parent a) (h : LeadsTo parent x v) :
    C x → LeadsTo parent' x v := by
  induction h using Relation.ReflTransGen.head_induction_on with
  | refl => exact fun _ => .refl
  | @head x y hxy hyv ih =>
    intro hx
    by_cases hxv : x = v
    · subst hxv
      exact .refl
    · exact .head ((hagree x hx hxv).trans hxy) (ih (hC x y hx hxy))

/-- What is closed under the links is not left. -/
theorem mem {C : V → Prop} (hC : ∀ a b, C a → parent a = some b → C b) (h : LeadsTo parent x y)
    (hx : C x) : C y := by
  induction h with
  | refl => exact hx
  | tail _ hlink ih => exact hC _ _ ih hlink

end LeadsTo

/-- The vertex `n` links from `x`, along a successor function. -/
theorem leadsTo_iterate {parent : V → Option V} {f : ℕ → V}
    (hf : ∀ n, parent (f n) = some (f (n + 1))) (n k : ℕ) : LeadsTo parent (f n) (f (n + k)) := by
  induction k with
  | zero => exact .refl
  | succ k ih => exact .tail ih (hf (n + k))

/-- **Following the links** from a vertex that leads to linked vertices
only, of which there are finitely many, one comes to a circle. -/
theorem exists_circle {parent : V → Option V} {x : V} (hfin : {y | parent y ≠ none}.Finite)
    (hnext : ∀ y, LeadsTo parent x y → ∃ z, parent y = some z) :
    ∃ v u, LeadsTo parent x v ∧ parent v = some u ∧ LeadsTo parent u v := by
  choose! next hnext using hnext
  -- the vertices one comes to, one after the other
  let f : ℕ → V := fun n => next^[n] x
  have hstep : ∀ n, LeadsTo parent x (f n) → parent (f n) = some (f (n + 1)) := by
    intro n hn
    rw [hnext _ hn]
    exact congrArg some (Function.iterate_succ_apply' next n x).symm
  have hreach : ∀ n, LeadsTo parent x (f n) := by
    intro n
    induction n with
    | zero => exact .refl
    | succ n ih => exact .tail ih (hstep n ih)
  have hf : ∀ n, parent (f n) = some (f (n + 1)) := fun n => hstep n (hreach n)
  have hrepeat : ¬ Function.Injective f := fun hinj =>
    Set.infinite_of_injective_forall_mem hinj (fun n => by simp [hf n]) hfin
  obtain ⟨i, j, hlt, heq⟩ : ∃ i j, i < j ∧ f i = f j := by
    simp only [Function.Injective, not_forall] at hrepeat
    obtain ⟨i, j, heq, hne⟩ := hrepeat
    rcases Nat.lt_or_gt_of_ne hne with hlt | hlt
    · exact ⟨i, j, hlt, heq⟩
    · exact ⟨j, i, hlt, heq.symm⟩
  obtain ⟨k, rfl⟩ := Nat.exists_eq_add_of_lt hlt
  refine ⟨f i, f (i + 1), hreach i, hf i, ?_⟩
  rw [heq, Nat.add_right_comm]
  exact leadsTo_iterate hf (i + 1) k

/-- The links lead from `x` back to `root`; `p` is the way, from the
root. -/
inductive Traced (parent : V → Option V) (root : V) : V → List V → Prop where
  | root : Traced parent root root [root]
  | step {x y : V} {p : List V} :
      x ≠ root → parent x = some y → Traced parent root y p → Traced parent root x (p ++ [x])

namespace Traced

variable {parent : V → Option V} {root x z : V} {p q : List V}

theorem unique (h : Traced parent root x p) (h' : Traced parent root x q) : p = q := by
  induction h generalizing q with
  | root =>
    cases h' with
    | root => rfl
    | step hne _ _ => exact absurd rfl hne
  | step hne hy _ ih =>
    cases h' with
    | root => exact absurd rfl hne
    | step _ hy' h' =>
      rw [hy] at hy'
      obtain rfl := Option.some.inj hy'
      rw [ih h']

/-- The way to a vertex on the way is its beginning. -/
theorem of_mem (h : Traced parent root x p) (hz : z ∈ p) :
    ∃ q t, Traced parent root z q ∧ p = q ++ t := by
  induction h with
  | root =>
    obtain rfl := List.mem_singleton.mp hz
    exact ⟨_, [], .root, by simp⟩
  | @step x y p hne hy h ih =>
    rcases List.mem_append.mp hz with hz | hz
    · obtain ⟨q, t, hq, rfl⟩ := ih hz
      exact ⟨q, t ++ [x], hq, by simp⟩
    · obtain rfl := List.mem_singleton.mp hz
      exact ⟨_, [], .step hne hy h, by simp⟩

theorem nodup (h : Traced parent root x p) : p.Nodup := by
  induction h with
  | root => exact List.nodup_singleton _
  | @step x y p hne hy h ih =>
    refine List.nodup_append.mpr ⟨ih, List.nodup_singleton x, fun a ha b hb hab => ?_⟩
    -- else the way to `x` would be a beginning of the way to `y`
    obtain rfl := List.mem_singleton.mp hb
    obtain ⟨q, t, hq, hqt⟩ := h.of_mem (hab ▸ ha)
    have hlen := congrArg List.length (hq.unique (.step hne hy h))
    rw [hqt, List.length_append, List.length_append, List.length_singleton] at hlen
    omega

/-- The links lead along the way, and round at the root. -/
theorem mem_of_leadsTo (h : Traced parent root x p) (hroot : parent root = some root)
    (hz : LeadsTo parent x z) : z ∈ p := by
  induction h with
  | root =>
    rw [hz.eq_of_self hroot]
    exact List.mem_singleton_self root
  | @step x y p hne hy h ih =>
    rcases hz.cases_head with rfl | ⟨y', hy', hz'⟩
    · simp
    · obtain rfl := Option.some.inj (hy.symm.trans hy')
      exact List.mem_append_left [x] (ih hz')

theorem head_last (h : Traced parent root x p) : p.head? = some root ∧ p.getLast? = some x := by
  induction h with
  | root => exact ⟨rfl, rfl⟩
  | step _ _ _ ih => exact ⟨by rw [List.head?_append, ih.1]; rfl, by simp⟩

/-- All vertices on the way but the root have a link. -/
theorem linked (h : Traced parent root x p) (hz : z ∈ p) (hne : z ≠ root) :
    ∃ y, parent z = some y := by
  obtain ⟨q, t, hq, -⟩ := h.of_mem hz
  cases hq with
  | root => exact absurd rfl hne
  | step _ hy _ => exact ⟨_, hy⟩

/-- Linking `v` to a vertex whose way does not go through `v` leaves
every vertex traced. -/
theorem relink [DecidableEq V] {u v : V} (hu : Traced parent root u p) (hv : v ∉ p)
    (h : Traced parent root x q) :
    ∃ q', Traced (Function.update parent v (some u)) root x q' := by
  -- the way to `u` is not touched
  have keep : ∀ {y r}, Traced parent root y r → v ∉ r →
      Traced (Function.update parent v (some u)) root y r := by
    intro y r hy
    induction hy with
    | root => exact fun _ => .root
    | @step y z r hne hz _ ih =>
      intro hvr
      rw [List.mem_append, List.mem_singleton, not_or] at hvr
      exact .step hne (by rw [Function.update_of_ne (Ne.symm hvr.2), hz]) (ih hvr.1)
  induction h with
  | root => exact ⟨_, .root⟩
  | @step y z r hne hz _ ih =>
    by_cases hyv : y = v
    · subst hyv
      exact ⟨_, .step hne (Function.update_self ..) (keep hu hv)⟩
    · obtain ⟨r', hr'⟩ := ih
      exact ⟨_, .step hne (by rw [Function.update_of_ne hyv, hz]) hr'⟩

end Traced

/-- There is a way back where the links lead to the root. -/
theorem exists_traced_iff {parent : V → Option V} {root x : V} :
    (∃ p, Traced parent root x p) ↔ LeadsTo parent x root := by
  constructor
  · rintro ⟨p, h⟩
    induction h with
    | root => exact .refl
    | step _ hy _ ih => exact .head hy ih
  · intro h
    induction h using Relation.ReflTransGen.head_induction_on with
    | refl => exact ⟨_, .root⟩
    | @head x y hxy _ ih =>
      by_cases hx : x = root
      · subst hx
        exact ⟨_, .root⟩
      · obtain ⟨p, hp⟩ := ih
        exact ⟨_, .step hx hxy hp⟩

/-! ## Links given one after the other -/

section Assigned

variable [DecidableEq V]

/-- The links after some assignments; at first there is but that of the
root to itself. -/
def assigned (root : V) (ls : List (V × V)) : V → Option V :=
  ls.foldl (fun parent l => Function.update parent l.1 (some l.2))
    (Function.update (fun _ => none) root (some root))

variable {root : V} {ls ls' before after : List (V × V)} {x u v : V}

theorem assigned_snoc (root : V) (ls : List (V × V)) (v u : V) :
    assigned root (ls ++ [(v, u)]) = Function.update (assigned root ls) v (some u) :=
  List.foldl_append

theorem assigned_append_of_ne (h : ∀ l ∈ ls', l.1 ≠ x) :
    assigned root (ls ++ ls') x = assigned root ls x := by
  induction ls' generalizing ls with
  | nil => rw [List.append_nil]
  | cons l ls' ih =>
    obtain ⟨v, u⟩ := l
    rw [List.append_cons, ih fun l hl => h l (List.mem_cons_of_mem _ hl), assigned_snoc,
      Function.update_of_ne (Ne.symm (h (v, u) List.mem_cons_self))]

/-- What no assignment concerns has no link but the root's. -/
theorem assigned_of_ne (h : ∀ l ∈ ls, l.1 ≠ x) :
    assigned root ls x = if x = root then some root else none := by
  rw [← List.nil_append ls, assigned_append_of_ne h, assigned, List.foldl_nil, Function.update_apply]

/-- After its last assignment a vertex has that link. -/
theorem assigned_last (h : ∀ l ∈ after, l.1 ≠ v) :
    assigned root (before ++ (v, u) :: after) v = some u := by
  rw [List.append_cons, assigned_append_of_ne h, assigned_snoc, Function.update_self]

theorem assigned_finite (root : V) (ls : List (V × V)) :
    {x | assigned root ls x ≠ none}.Finite := by
  refine (root :: ls.map Prod.fst).toFinset.finite_toSet.subset fun x hx => ?_
  rw [List.coe_toFinset]
  by_contra hnot
  obtain ⟨hxr, hmem⟩ := not_or.mp (mt List.mem_cons.mpr hnot)
  refine hx ((assigned_of_ne fun l hl heq => hmem ?_).trans (if_neg hxr))
  exact List.mem_map.mpr ⟨l, hl, heq⟩

/-- A circle closed by one assignment and not concerned by a later one is
there in the end, and does not lead to the root. -/
theorem not_leadsTo_of_circle (hroot : ∀ l ∈ before ++ (v, u) :: after, l.1 ≠ root)
    (hclose : LeadsTo (assigned root before) u v)
    (hleft : ∀ l ∈ after, ¬ LeadsTo (assigned root (before ++ [(v, u)])) v l.1)
    (hx : LeadsTo (assigned root (before ++ (v, u) :: after)) x v) :
    ¬ LeadsTo (assigned root (before ++ (v, u) :: after)) x root := by
  have hvr : v ≠ root := hroot (v, u) (by simp)
  have hlink : assigned root (before ++ [(v, u)]) v = some u := assigned_last nofun
  have hback : LeadsTo (assigned root (before ++ [(v, u)])) u v :=
    hclose.congr (C := fun _ => True) (fun _ _ _ _ => trivial)
      (fun a _ hav => assigned_append_of_ne (by simpa using hav.symm)) trivial
  -- no later assignment concerns what `v` leads to
  have hsame : ∀ a, LeadsTo (assigned root (before ++ [(v, u)])) v a →
      assigned root (before ++ (v, u) :: after) a = assigned root (before ++ [(v, u)]) a := by
    intro a ha
    rw [List.append_cons]
    exact assigned_append_of_ne fun l hl heq => hleft l hl (heq ▸ ha)
  intro h
  rcases hx.total h with hv | hr
  · have hmem : LeadsTo (assigned root (before ++ [(v, u)])) v root :=
      hv.mem (fun a b ha hab => ha.tail ((hsame a ha).symm.trans hab)) .refl
    refine hvr ((LeadsTo.back hlink hback hmem).eq_of_self ?_)
    rw [assigned_of_ne fun l hl => hroot l ?_, if_pos rfl]
    rw [List.append_cons]
    exact List.mem_append_left _ hl
  · refine hvr (hr.eq_of_self ?_)
    rw [assigned_of_ne hroot, if_pos rfl]

/-- No assignment has closed a circle. -/
def Unclosed (root : V) (ls : List (V × V)) : Prop :=
  ∀ before v u after, ls = before ++ (v, u) :: after → ¬ LeadsTo (assigned root before) u v

theorem unclosed_nil (root : V) : Unclosed root [] := by
  intro before v u after h
  simp at h

theorem Unclosed.snoc (h : Unclosed root ls) (hopen : ¬ LeadsTo (assigned root ls) u v) :
    Unclosed root (ls ++ [(v, u)]) := by
  intro before v' u' after heq
  rcases List.eq_nil_or_concat after with rfl | ⟨after, l, rfl⟩
  · obtain ⟨rfl, hl⟩ := List.append_inj' heq rfl
    cases hl
    exact hopen
  · rw [List.concat_eq_append, ← List.cons_append, ← List.append_assoc] at heq
    exact h before v' u' after (List.append_inj' heq rfl).1

theorem exists_last {α : Type u} {P : α → Prop} {l : List α} (h : ∃ x ∈ l, P x) :
    ∃ before x after, l = before ++ x :: after ∧ P x ∧ ∀ y ∈ after, ¬ P y := by
  induction l with
  | nil => simp at h
  | cons a l ih =>
    by_cases hl : ∃ x ∈ l, P x
    · obtain ⟨before, x, after, rfl, hx, hafter⟩ := ih hl
      exact ⟨a :: before, x, after, rfl, hx, hafter⟩
    · obtain ⟨x, hx, hp⟩ := h
      rcases List.mem_cons.mp hx with rfl | hx
      · exact ⟨[], x, l, rfl, hp, fun y hy hpy => hl ⟨y, hy, hpy⟩⟩
      · exact absurd ⟨x, hx, hp⟩ hl

/-- **The last assignment on a circle closed it.** Where the links lead on
without end and not to the root, one of the assignments has closed a circle
that no later one concerns. -/
theorem exists_closing (hroot : ∀ l ∈ ls, l.1 ≠ root)
    (hnext : ∀ y, LeadsTo (assigned root ls) x y → ∃ z, assigned root ls y = some z)
    (hx : ¬ LeadsTo (assigned root ls) x root) :
    ∃ before v u after, ls = before ++ (v, u) :: after ∧ LeadsTo (assigned root before) u v ∧
      (∀ l ∈ after, ¬ LeadsTo (assigned root (before ++ [(v, u)])) v l.1) ∧
      LeadsTo (assigned root ls) x v := by
  obtain ⟨v₀, u₀, hxv, hlink, hback⟩ := exists_circle (assigned_finite root ls) hnext
  -- a vertex of the circle has been assigned its link
  have hmem : ∃ l ∈ ls, LeadsTo (assigned root ls) v₀ l.1 := by
    by_contra hnone
    rw [assigned_of_ne fun l hl heq => hnone ⟨l, hl, heq ▸ .refl⟩] at hlink
    split at hlink
    · rename_i heq
      exact hx (heq ▸ hxv)
    · cases hlink
  obtain ⟨before, ⟨v, u⟩, after, rfl, hv, hafter⟩ := exists_last hmem
  have hne : ∀ a, LeadsTo (assigned root (before ++ (v, u) :: after)) v₀ a →
      ∀ l ∈ after, l.1 ≠ a := fun a ha l hl heq => hafter l hl (heq ▸ ha)
  have hu : LeadsTo (assigned root (before ++ (v, u) :: after)) v₀ u :=
    hv.tail (assigned_last (hne v hv))
  have huv : LeadsTo (assigned root (before ++ (v, u) :: after)) u v :=
    (LeadsTo.back hlink hback hu).trans hv
  refine ⟨before, v, u, after, rfl, ?_, fun l hl h => hafter l hl ?_, hxv.trans hv⟩
  · refine huv.congr (fun a b ha hab => ha.tail hab)
      (fun a ha hav => (assigned_append_of_ne fun l hl => ?_).symm) hu
    rcases List.mem_cons.mp hl with rfl | hl
    · exact Ne.symm hav
    · exact hne a ha l hl
  · refine h.mem (fun a b ha hab => ha.tail ?_) hv
    rw [List.append_cons, assigned_append_of_ne (hne a ha)]
    exact hab

end Assigned

/-! ## Labels that rise along the links -/

section Rising

variable {C : Type v} [LinearOrder C]

/-- Every link but the root's is an edge from the parent, whose label is
no greater. -/
def Rising (E : V → V → Prop) (label : V → Option C) (parent : V → Option V) (root : V) : Prop :=
  ∀ x y, parent x = some y → x ≠ root →
    ∃ a c, label y = some a ∧ E y x ∧ label x = some c ∧ a ≤ c

variable {E : V → V → Prop} {label : V → Option C} {parent : V → Option V} {root x z : V}
  {p : List V}

/-- Along a way the labels rise. -/
theorem Traced.label_le (hj : Rising E label parent root) (h : Traced parent root x p)
    (hz : z ∈ p) {a c : C} (ha : label z = some a) (hc : label x = some c) : a ≤ c := by
  induction h generalizing c with
  | root =>
    obtain rfl := List.mem_singleton.mp hz
    exact (Option.some.inj (ha.symm.trans hc)).le
  | @step x y p hne hy h ih =>
    rcases List.mem_append.mp hz with hz | hz
    · obtain ⟨b, c', hb, -, hc', hle⟩ := hj x y hy hne
      obtain rfl := Option.some.inj (hc.symm.trans hc')
      exact (ih hz hb).trans hle
    · obtain rfl := List.mem_singleton.mp hz
      exact (Option.some.inj (ha.symm.trans hc)).le

/-- A way goes along edges. -/
theorem Traced.isChain (hj : Rising E label parent root) (h : Traced parent root x p) :
    p.IsChain E := by
  induction h with
  | root => exact .singleton _
  | @step x y p hne hy h ih =>
    refine ih.append (.singleton _) fun a ha b hb => ?_
    rw [h.head_last.2] at ha
    obtain rfl := Option.some.inj ha
    obtain rfl := Option.some.inj hb
    obtain ⟨-, -, -, he, -⟩ := hj _ _ hy hne
    exact he

/-- **An improvement closes no circle of links**: what it labels lower is
not on the way back. -/
theorem Traced.not_mem_of_improves {u v : V} (hj : Rising E label parent root)
    (h : Traced parent root u p) {a b c : C} (ha : label u = some a) (hb : label v = some b)
    (hle : a ≤ c) (hlt : c < b) : v ∉ p :=
  fun hv => absurd (h.label_le hj hv hb ha) (not_le.mpr (hle.trans_lt hlt))

end Rising

end HighJump.Lib.Paths
