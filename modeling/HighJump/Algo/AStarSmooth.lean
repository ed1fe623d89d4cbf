/-
HighJump.Algo.AStarSmooth — `hj::astar::detail::smooth`, the cross
product test that drops locations from a path.

Coordinates are integers and the products of the test are exact. Each
location is judged by its two neighbours on the path alone, and the test
is zero as well where a location is repeated and where the path turns
back: `smooth_keepsRoute_iff` says which paths keep their route all the
same. A path is cut into stretches where the test is not zero, and
`smooth` returns the ends of the stretches (`smooth_eq_stretches`).
-/
import HighJump.Lib.Polyline
import Mathlib.Analysis.Convex.Segment
import Mathlib.Data.Real.Basic
import Mathlib.Tactic.LinearCombination

namespace HighJump.Algo.AStar

open HighJump.Lib

/-- A location with integer coordinates. -/
structure Location where
  x : ℤ
  y : ℤ
  deriving DecidableEq, Repr

/-- The test of `smooth`: `dx1 * dy2 != dy1 * dx2`. -/
def turns (prev curr next : Location) : Bool :=
  let dx1 := curr.x - prev.x
  let dy1 := curr.y - prev.y
  let dx2 := next.x - curr.x
  let dy2 := next.y - curr.y
  dx1 * dy2 != dy1 * dx2

/-- The loop of `smooth`; the list starts at `path[i - 1]`. -/
def smoothLoop : List Location → List Location
  | prev :: curr :: next :: rest =>
      if turns prev curr next then curr :: smoothLoop (curr :: next :: rest)
      else smoothLoop (curr :: next :: rest)
  | _ => []

/-- `smooth`. -/
def smooth (path : List Location) : List Location :=
  if path.length ≤ 2 then path
  else path.head?.toList ++ smoothLoop path ++ path.getLast?.toList

/-! ## Stretches -/

/-- A piece of a path without a turn inside. -/
structure Stretch where
  first : Location
  inner : List Location
  last : Location

/-- A path cut at its turns. -/
def stretches : List Location → List Stretch
  | a :: b :: c :: rest =>
      if turns a b c then ⟨a, [], b⟩ :: stretches (b :: c :: rest)
      else
        match stretches (b :: c :: rest) with
        | [] => []
        | s :: ss => ⟨a, b :: s.inner, s.last⟩ :: ss
  | [a, b] => [⟨a, [], b⟩]
  | _ => []

theorem stretches_turn {a b c : Location} (rest : List Location) (h : turns a b c = true) :
    stretches (a :: b :: c :: rest) = ⟨a, [], b⟩ :: stretches (b :: c :: rest) := by
  rw [stretches, if_pos h]

theorem stretches_straight {a b c : Location} {rest : List Location} {s : Stretch}
    {ss : List Stretch} (h : turns a b c = false) (hs : stretches (b :: c :: rest) = s :: ss) :
    stretches (a :: b :: c :: rest) = ⟨a, b :: s.inner, s.last⟩ :: ss := by
  rw [stretches, h, hs]
  rfl

theorem stretches_ne_nil (rest : List Location) : ∀ a b : Location,
    ∃ s ss, stretches (a :: b :: rest) = s :: ss := by
  induction rest with
  | nil => exact fun a b => ⟨⟨a, [], b⟩, [], rfl⟩
  | cons c rest ih =>
    intro a b
    cases h : turns a b c with
    | true => exact ⟨_, _, stretches_turn rest h⟩
    | false =>
      obtain ⟨s, ss, hs⟩ := ih b c
      exact ⟨_, _, stretches_straight h hs⟩

/-- The loop pushes the ends of the stretches but for the last. -/
theorem smoothLoop_eq (rest : List Location) : ∀ a b : Location,
    smoothLoop (a :: b :: rest) ++ (a :: b :: rest).getLast?.toList =
      (stretches (a :: b :: rest)).map Stretch.last := by
  induction rest with
  | nil => exact fun a b => rfl
  | cons c rest ih =>
    intro a b
    have hlast : (a :: b :: c :: rest).getLast? = (b :: c :: rest).getLast? :=
      List.getLast?_cons_cons
    rw [hlast, smoothLoop]
    cases h : turns a b c with
    | true =>
      rw [stretches_turn rest h, List.map_cons, ← ih b c]
      rfl
    | false =>
      obtain ⟨s, ss, hs⟩ := stretches_ne_nil rest b c
      have htail := ih b c
      rw [hs] at htail
      rw [stretches_straight h hs]
      exact htail

/-- **`smooth` keeps the ends of the stretches.** -/
theorem smooth_eq_stretches (path : List Location) :
    smooth path = path.head?.toList ++ (stretches path).map Stretch.last := by
  match path with
  | [] => rfl
  | [a] => rfl
  | [a, b] => rfl
  | a :: b :: c :: rest =>
    rw [← smoothLoop_eq, ← List.append_assoc]
    exact if_neg (by simp)

/-! ## Points of the plane -/

/-- A location as a point of the plane. -/
def Location.point (p : Location) : ℝ × ℝ := (p.x, p.y)

/-- The locations of a stretch. -/
def Stretch.locations (s : Stretch) : List Location := s.first :: (s.inner ++ [s.last])

/-- What a stretch drops lies between its ends. -/
def Stretch.Flat (s : Stretch) : Prop :=
  ∀ c ∈ s.inner, c.point ∈ segment ℝ s.first.point s.last.point

/-- The differences of neighbouring locations. -/
def steps : List Location → List (ℤ × ℤ)
  | p :: q :: rest => (q.x - p.x, q.y - p.y) :: steps (q :: rest)
  | _ => []

/-- The steps of a stretch are parallel and its coordinates lie between
those of its ends. -/
structure Stretch.Direct (s : Stretch) : Prop where
  parallel : ∀ d ∈ steps s.locations, ∀ e ∈ steps s.locations, d.1 * e.2 = d.2 * e.1
  within : ∀ c ∈ s.inner, c.x ∈ Set.uIcc s.first.x s.last.x ∧ c.y ∈ Set.uIcc s.first.y s.last.y

theorem exists_of_mem_steps : ∀ {l : List Location} {d : ℤ × ℤ}, d ∈ steps l →
    ∃ p ∈ l, ∃ q ∈ l, d = (q.x - p.x, q.y - p.y)
  | p :: q :: rest, d, h => by
      rcases List.mem_cons.mp h with rfl | h
      · exact ⟨p, by simp, q, by simp, rfl⟩
      · obtain ⟨p', hp, q', hq, rfl⟩ := exists_of_mem_steps h
        exact ⟨p', List.mem_cons_of_mem p hp, q', List.mem_cons_of_mem p hq, rfl⟩

/-- A list all of whose steps are along `d` stays on the line along `d`. -/
theorem mem_line_of_steps {d : ℤ × ℤ} : ∀ {rest : List Location} {a : Location},
    (∀ e ∈ steps (a :: rest), d.1 * e.2 = d.2 * e.1) →
    ∀ c ∈ a :: rest, d.1 * (c.y - a.y) = d.2 * (c.x - a.x)
  | [], a, _, c, hc => by
      obtain rfl := List.mem_singleton.mp hc
      simp
  | b :: rest, a, h, c, hc => by
      rcases List.mem_cons.mp hc with rfl | hc
      · simp
      · have hstep := h _ List.mem_cons_self
        have htail := mem_line_of_steps (fun e he => h e (List.mem_cons_of_mem _ he)) c hc
        simp only at hstep
        linear_combination hstep + htail

/-- Three points of one segment make no turn. -/
theorem cross_eq_zero_of_mem_segment {a b p q r s : Location}
    (hp : p.point ∈ segment ℝ a.point b.point) (hq : q.point ∈ segment ℝ a.point b.point)
    (hr : r.point ∈ segment ℝ a.point b.point) (hs : s.point ∈ segment ℝ a.point b.point) :
    (q.x - p.x) * (s.y - r.y) = (q.y - p.y) * (s.x - r.x) := by
  rw [segment_eq_image'] at hp hq hr hs
  obtain ⟨t₁, -, h₁⟩ := hp
  obtain ⟨t₂, -, h₂⟩ := hq
  obtain ⟨t₃, -, h₃⟩ := hr
  obtain ⟨t₄, -, h₄⟩ := hs
  simp only [Location.point, Prod.mk.injEq, Prod.mk_sub_mk, Prod.smul_mk, Prod.mk_add_mk,
    smul_eq_mul] at h₁ h₂ h₃ h₄
  have hreal : ((q.x : ℝ) - p.x) * (s.y - r.y) = (q.y - p.y) * (s.x - r.x) := by
    rw [← h₁.1, ← h₁.2, ← h₂.1, ← h₂.2, ← h₃.1, ← h₃.2, ← h₄.1, ← h₄.2]
    ring
  exact_mod_cast hreal

theorem Stretch.Flat.mem_segment {s : Stretch} (h : s.Flat) {c : Location}
    (hc : c ∈ s.locations) : c.point ∈ segment ℝ s.first.point s.last.point := by
  simp only [locations, List.mem_cons, List.mem_append, List.not_mem_nil, or_false] at hc
  rcases hc with rfl | hc | rfl
  · exact left_mem_segment ℝ _ _
  · exact h c hc
  · exact right_mem_segment ℝ _ _

theorem cast_mem_uIcc {a b c : ℤ} : (c : ℝ) ∈ Set.uIcc (a : ℝ) b ↔ c ∈ Set.uIcc a b := by
  simp only [Set.mem_uIcc, Int.cast_le]

theorem Stretch.Flat.direct {s : Stretch} (h : s.Flat) : s.Direct where
  parallel d hd e he := by
    obtain ⟨p, hp, q, hq, rfl⟩ := exists_of_mem_steps hd
    obtain ⟨p', hp', q', hq', rfl⟩ := exists_of_mem_steps he
    exact cross_eq_zero_of_mem_segment (h.mem_segment hp) (h.mem_segment hq)
      (h.mem_segment hp') (h.mem_segment hq')
  within c hc := by
    obtain ⟨hx, hy⟩ := Prod.segment_subset _ _ (h c hc)
    rw [segment_eq_uIcc] at hx hy
    exact ⟨cast_mem_uIcc.mp hx, cast_mem_uIcc.mp hy⟩

/-- On a line that is not vertical, the first coordinates decide. -/
theorem exists_weight {a b c k d : ℝ} {a' b' c' : ℝ} (hd : d ≠ 0)
    (hb : d * (b' - a') = k * (b - a)) (hc : d * (c' - a') = k * (c - a))
    (h : c ∈ Set.uIcc a b) :
    ∃ t ∈ Set.Icc (0 : ℝ) 1, a + t * (b - a) = c ∧ a' + t * (b' - a') = c' := by
  rw [← segment_eq_uIcc, segment_eq_image'] at h
  obtain ⟨t, ht, rfl⟩ := h
  refine ⟨t, ht, rfl, mul_left_cancel₀ hd ?_⟩
  simp only [smul_eq_mul] at hc
  linear_combination t * hb - hc

/-- A direction all steps of a stretch go along; any will do where the
path stands still. -/
theorem Stretch.Direct.exists_direction {s : Stretch} (h : s.Direct) :
    ∃ d : ℤ × ℤ, d ≠ (0, 0) ∧ ∀ e ∈ steps s.locations, d.1 * e.2 = d.2 * e.1 := by
  by_cases hzero : ∀ e ∈ steps s.locations, e = (0, 0)
  · exact ⟨(1, 0), by decide, fun e he => by rw [hzero e he]; rfl⟩
  · push Not at hzero
    obtain ⟨d, hd, hne⟩ := hzero
    exact ⟨d, hne, h.parallel d hd⟩

theorem Stretch.Direct.flat {s : Stretch} (h : s.Direct) : s.Flat := by
  intro c hc
  obtain ⟨hx, hy⟩ := h.within c hc
  obtain ⟨d, hd, hpar⟩ := h.exists_direction
  have hline := mem_line_of_steps hpar
  have hcline : (d.1 : ℝ) * (c.y - s.first.y) = d.2 * (c.x - s.first.x) := by
    exact_mod_cast hline c (by simp [hc])
  have hbline : (d.1 : ℝ) * (s.last.y - s.first.y) = d.2 * (s.last.x - s.first.x) := by
    exact_mod_cast hline s.last (by simp)
  suffices ht : ∃ t ∈ Set.Icc (0 : ℝ) 1, s.first.x + t * (s.last.x - s.first.x) = (c.x : ℝ) ∧
      s.first.y + t * (s.last.y - s.first.y) = (c.y : ℝ) by
    obtain ⟨t, ht, htx, hty⟩ := ht
    rw [segment_eq_image']
    exact ⟨t, ht, Prod.ext htx hty⟩
  by_cases hd1 : d.1 = 0
  · have hd2 : (d.2 : ℝ) ≠ 0 := Int.cast_ne_zero.mpr fun h2 => hd (Prod.ext hd1 h2)
    obtain ⟨t, ht, hty, htx⟩ := exists_weight hd2 hbline.symm hcline.symm (cast_mem_uIcc.mpr hy)
    exact ⟨t, ht, htx, hty⟩
  · exact exists_weight (Int.cast_ne_zero.mpr hd1) hbline hcline (cast_mem_uIcc.mpr hx)

/-- **A stretch is flat when its steps are parallel and stay between its
ends.** -/
theorem Stretch.flat_iff (s : Stretch) : s.Flat ↔ s.Direct :=
  ⟨Stretch.Flat.direct, Stretch.Direct.flat⟩

/-! ## The route -/

/-- What smoothing should keep: the locations are among the path's, in
order, with its ends; what is dropped lies on the segment between the
nearest locations that are not; the points drawn are the same. -/
structure KeepsRoute (path : List Location) : Prop where
  sublist : (smooth path).Sublist path
  first : (smooth path).head? = path.head?
  last : (smooth path).getLast? = path.getLast?
  dropped : Straightens ℝ Location.point path (smooth path)
  covers : polyline ℝ ((smooth path).map Location.point) = polyline ℝ (path.map Location.point)

theorem keepsRoute_iff_straightens (path : List Location) :
    KeepsRoute path ↔ Straightens ℝ Location.point path (smooth path) :=
  ⟨KeepsRoute.dropped, fun h => ⟨h.sublist, h.head?_eq, h.getLast?_eq, h, h.polyline_eq⟩⟩

/-- The first stretch of a path and the rest of the path. -/
theorem stretches_cut (rest : List Location) : ∀ (a b : Location) {s : Stretch} {ss : List Stretch},
    stretches (a :: b :: rest) = s :: ss →
    ∃ rest', a :: b :: rest = s.first :: (s.inner ++ s.last :: rest') ∧
      stretches (s.last :: rest') = ss := by
  induction rest with
  | nil =>
    intro a b s ss h
    obtain ⟨rfl, rfl⟩ := List.cons.inj h
    exact ⟨[], rfl, rfl⟩
  | cons c rest ih =>
    intro a b s ss h
    cases ht : turns a b c with
    | true =>
      rw [stretches_turn rest ht] at h
      obtain ⟨rfl, rfl⟩ := List.cons.inj h
      exact ⟨c :: rest, rfl, rfl⟩
    | false =>
      obtain ⟨s₁, ss₁, hs₁⟩ := stretches_ne_nil rest b c
      rw [stretches_straight ht hs₁] at h
      obtain ⟨rfl, rfl⟩ := List.cons.inj h
      obtain ⟨rest', hpath, hrest⟩ := ih b c hs₁
      have hfirst := (List.cons.inj hpath).1
      exact ⟨rest', by rw [hpath, hfirst]; rfl, hrest⟩

/-- Flat stretches are all that straightening needs. -/
theorem straightens_of_flat : ∀ (ss : List Stretch) (a : Location) (rest : List Location),
    stretches (a :: rest) = ss → (∀ s ∈ ss, s.Flat) →
    Straightens ℝ Location.point (a :: rest) (a :: ss.map Stretch.last)
  | [], a, [], _, _ => .last a
  | [], a, b :: rest, h, _ => by
      obtain ⟨s, ss, hs⟩ := stretches_ne_nil rest a b
      rw [hs] at h
      cases h
  | s :: ss, a, [], h, _ => by cases h
  | s :: ss, a, b :: rest, h, hflat => by
      obtain ⟨rest', hpath, hrest⟩ := stretches_cut rest a b h
      have hfirst := (List.cons.inj hpath).1
      rw [hpath, hfirst]
      exact .stretch (hflat s List.mem_cons_self)
        (straightens_of_flat ss s.last rest' hrest fun s' hs' => hflat s' (List.mem_cons_of_mem s hs'))

theorem turns_eq_false_of_mem_segment {a b p q r : Location}
    (hp : p.point ∈ segment ℝ a.point b.point) (hq : q.point ∈ segment ℝ a.point b.point)
    (hr : r.point ∈ segment ℝ a.point b.point) : turns p q r = false := by
  simpa [turns] using cross_eq_zero_of_mem_segment hp hq hq hr

/-- A piece without a turn is a stretch or the beginning of one. -/
theorem stretches_append (b : Location) (rest : List Location) : ∀ (mid : List Location)
    (a : Location), (∀ p ∈ a :: (mid ++ [b]), ∀ q ∈ a :: (mid ++ [b]), ∀ r ∈ a :: (mid ++ [b]),
      turns p q r = false) →
    stretches (a :: (mid ++ b :: rest)) = ⟨a, mid, b⟩ :: stretches (b :: rest) ∨
    ∃ s ss, stretches (b :: rest) = s :: ss ∧
      stretches (a :: (mid ++ b :: rest)) = ⟨a, mid ++ b :: s.inner, s.last⟩ :: ss
  | [], a, _ => by
      cases rest with
      | nil => exact .inl rfl
      | cons c rest =>
        cases ht : turns a b c with
        | true => exact .inl (stretches_turn rest ht)
        | false =>
          obtain ⟨s, ss, hs⟩ := stretches_ne_nil rest b c
          exact .inr ⟨s, ss, hs, stretches_straight ht hs⟩
  | m :: mid, a, h => by
      obtain ⟨c, tail, hc, hmem⟩ : ∃ c tail, mid ++ b :: rest = c :: tail ∧ c ∈ mid ++ [b] := by
        cases mid with
        | nil => exact ⟨b, rest, rfl, by simp⟩
        | cons c mid => exact ⟨c, mid ++ b :: rest, rfl, by simp⟩
      have hturn : turns a m c = false := h a (by simp) m (by simp) c (by simp [hmem])
      have hind := stretches_append b rest mid m fun p hp q hq r hr =>
        h p (List.mem_cons_of_mem a hp) q (List.mem_cons_of_mem a hq) r (List.mem_cons_of_mem a hr)
      rw [List.cons_append]
      rw [hc] at hind ⊢
      rcases hind with hs | ⟨s, ss, hs, hs'⟩
      · exact .inl (stretches_straight hturn hs)
      · exact .inr ⟨s, ss, hs, stretches_straight hturn hs'⟩

/-- No selection of vertices straightens a path with fewer of them than it
has stretches, and with as many only if these are flat. -/
theorem stretches_flat_of_straightens {path kept : List Location}
    (h : Straightens ℝ Location.point path kept) :
    (stretches path).length ≤ kept.length - 1 ∧
      (kept.length - 1 ≤ (stretches path).length → ∀ s ∈ stretches path, s.Flat) := by
  induction h with
  | empty => exact ⟨Nat.le_refl 0, fun _ s hs => by cases hs⟩
  | last a => exact ⟨Nat.le_refl 0, fun _ s hs => by cases hs⟩
  | @stretch a b mid rest kept hmid _ ih =>
    have hflat : Stretch.Flat ⟨a, mid, b⟩ := hmid
    obtain ⟨hle, hall⟩ := ih
    simp only [List.length_cons, Nat.add_sub_cancel] at hle hall ⊢
    rcases stretches_append b rest mid a fun p hp q hq r hr =>
      turns_eq_false_of_mem_segment (hflat.mem_segment hp) (hflat.mem_segment hq)
        (hflat.mem_segment hr) with hs | ⟨s, ss, hs, hs'⟩
    · rw [hs, List.length_cons]
      refine ⟨by omega, fun hge s hmem => ?_⟩
      rcases List.mem_cons.mp hmem with rfl | hmem
      · exact hflat
      · exact hall (by omega) s hmem
    · rw [hs, List.length_cons] at hle
      rw [hs', List.length_cons]
      exact ⟨by omega, fun hge => by omega⟩

theorem length_smooth (path : List Location) :
    (smooth path).length - 1 = (stretches path).length := by
  rw [smooth_eq_stretches]
  cases path with
  | nil => rfl
  | cons a rest => simp

/-- **Smoothing keeps the route exactly when every stretch is direct:** cut
the path where the cross product of the steps around a location is not
zero; within each piece all steps are then parallel (no change of direction
hides behind a repeated location) and no coordinate leaves the range
between the two ends of the piece (the path does not turn back beyond
them). -/
theorem smooth_keepsRoute_iff (path : List Location) :
    KeepsRoute path ↔ ∀ s ∈ stretches path, s.Direct := by
  rw [keepsRoute_iff_straightens]
  constructor
  · intro h s hs
    exact s.flat_iff.mp ((stretches_flat_of_straightens h).2 (length_smooth path).le s hs)
  · intro h
    rw [smooth_eq_stretches]
    cases path with
    | nil => exact .empty
    | cons a rest => exact straightens_of_flat _ a rest rfl fun s hs => s.flat_iff.mpr (h s hs)

/-- A repeated location hides the turn at it, and the far end of a path
that turns back is lost. -/
theorem smooth_loses_turn :
    smooth [⟨0, 0⟩, ⟨1, 0⟩, ⟨1, 0⟩, ⟨1, 1⟩] = [⟨0, 0⟩, ⟨1, 1⟩] ∧
    ¬ KeepsRoute [⟨0, 0⟩, ⟨1, 0⟩, ⟨1, 0⟩, ⟨1, 1⟩] ∧
    smooth [⟨0, 0⟩, ⟨2, 0⟩, ⟨1, 0⟩] = [⟨0, 0⟩, ⟨1, 0⟩] ∧
    ¬ KeepsRoute [⟨0, 0⟩, ⟨2, 0⟩, ⟨1, 0⟩] := by
  refine ⟨by decide, fun h => ?_, by decide, fun h => ?_⟩
  · have hflat := (stretches_flat_of_straightens h.dropped).2 (by decide)
      ⟨⟨0, 0⟩, [⟨1, 0⟩, ⟨1, 0⟩], ⟨1, 1⟩⟩ (List.mem_singleton.mpr rfl)
    exact absurd (hflat.direct.parallel (1, 0) (by decide) (0, 1) (by decide)) (by decide)
  · have hflat := (stretches_flat_of_straightens h.dropped).2 (by decide)
      ⟨⟨0, 0⟩, [⟨2, 0⟩], ⟨1, 0⟩⟩ (List.mem_singleton.mpr rfl)
    have hx := (hflat.direct.within ⟨2, 0⟩ (by decide)).1
    rw [Set.mem_uIcc] at hx
    exact absurd hx (by decide)

end HighJump.Algo.AStar
