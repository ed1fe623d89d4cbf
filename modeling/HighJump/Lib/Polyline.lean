/-
HighJump.Lib.Polyline — polylines, and vertices that can be dropped.

`Straightens pos path kept` says that `kept` comes from `path` by
dropping, between each two neighbouring vertices that are kept, only
vertices whose position is on the segment between the two. Such a `kept` is a sublist with the same
ends and draws the same set of points (`Straightens.polyline_eq`): the
dropped vertices may go back and forth on their segment, but the polyline
through them never leaves it and, going from one end to the other, passes
over all of it.
-/
import Mathlib.Analysis.Convex.Basic
import Mathlib.Tactic.Linarith

namespace HighJump.Lib

universe u v w x

variable {𝕜 : Type u} [Field 𝕜] [LinearOrder 𝕜]
variable {V : Type v} [AddCommGroup V] [Module 𝕜 V] {W : Type w} [AddCommGroup W] [Module 𝕜 W]
variable {α : Type x} {pos : α → V}

variable (𝕜) in
/-- The points of the polyline through the vertices. -/
def polyline : List V → Set V
  | [] => ∅
  | [a] => {a}
  | a :: b :: rest => segment 𝕜 a b ∪ polyline (b :: rest)

variable (𝕜) in
/-- `Straightens pos path kept`: the vertices of `path` that are not in
`kept` lie on the segment between the nearest ones that are. -/
inductive Straightens (pos : α → V) : List α → List α → Prop
  | empty : Straightens pos [] []
  | last (a : α) : Straightens pos [a] [a]
  | stretch {a b : α} {mid rest kept : List α}
      (hmid : ∀ c ∈ mid, pos c ∈ segment 𝕜 (pos a) (pos b))
      (h : Straightens pos (b :: rest) (b :: kept)) :
      Straightens pos (a :: (mid ++ b :: rest)) (a :: b :: kept)

/-! ## What is kept -/

theorem Straightens.sublist {path kept : List α} (h : Straightens 𝕜 pos path kept) :
    kept.Sublist path := by
  induction h with
  | empty => exact .refl _
  | last a => exact .refl _
  | @stretch a b mid rest kept _ _ ih => exact .cons_cons a (ih.trans (List.sublist_append_right mid _))

theorem Straightens.head?_eq {path kept : List α} (h : Straightens 𝕜 pos path kept) :
    kept.head? = path.head? := by
  cases h <;> rfl

theorem Straightens.getLast?_eq {path kept : List α} (h : Straightens 𝕜 pos path kept) :
    kept.getLast? = path.getLast? := by
  induction h with
  | empty => rfl
  | last a => rfl
  | @stretch a b mid rest kept _ _ ih =>
    rw [List.getLast?_cons_cons, ih, ← List.cons_append, List.getLast?_append_cons]

/-! ## What is drawn -/

/-- A polyline whose vertices lie in a convex set lies in it. -/
theorem polyline_subset {s : Set V} (hs : Convex 𝕜 s) : ∀ {path : List V}, (∀ c ∈ path, c ∈ s) →
    polyline 𝕜 path ⊆ s
  | [], _ => Set.empty_subset s
  | [a], h => Set.singleton_subset_iff.mpr (h a List.mem_cons_self)
  | a :: b :: _, h => Set.union_subset
      (hs.segment_subset (h a List.mem_cons_self) (h b (List.mem_cons_of_mem a List.mem_cons_self)))
      (polyline_subset hs fun c hc => h c (List.mem_cons_of_mem a hc))

variable [IsStrictOrderedRing 𝕜]

theorem head_mem_polyline (a : V) (rest : List V) : a ∈ polyline 𝕜 (a :: rest) := by
  cases rest with
  | nil => exact rfl
  | cons b rest => exact .inl (left_mem_segment 𝕜 a b)

/-- A polyline can be cut at any of its vertices. -/
theorem polyline_append (l : List V) (b : V) (rest : List V) :
    polyline 𝕜 (l ++ b :: rest) = polyline 𝕜 (l ++ [b]) ∪ polyline 𝕜 (b :: rest) := by
  induction l with
  | nil => exact (Set.union_eq_self_of_subset_left
      (Set.singleton_subset_iff.mpr (head_mem_polyline b rest))).symm
  | cons a l ih =>
    cases l with
    | nil =>
      simp only [List.cons_append, List.nil_append, polyline, Set.union_assoc] at ih ⊢
      rw [← ih]
    | cons c l =>
      simp only [List.cons_append, polyline, Set.union_assoc] at ih ⊢
      rw [ih]

theorem image_polyline (f : V →ᵃ[𝕜] W) : ∀ path : List V,
    f '' polyline 𝕜 path = polyline 𝕜 (path.map f)
  | [] => Set.image_empty f
  | [a] => Set.image_singleton
  | a :: b :: rest => by
      simp only [polyline, List.map_cons, Set.image_union, image_segment]
      rw [image_polyline f (b :: rest), List.map_cons]

/-- On a line, a polyline passes over everything between its ends. -/
theorem mem_polyline_of_between {x t : 𝕜} (ht : x ≤ t) : ∀ (mid : List 𝕜) (s : 𝕜), s ≤ x →
    x ∈ polyline 𝕜 (s :: (mid ++ [t]))
  | [], s, hs => .inl (segment_eq_Icc (hs.trans ht) ▸ ⟨hs, ht⟩)
  | m :: mid, s, hs => by
      rcases le_total x m with hm | hm
      · exact .inl (segment_eq_Icc (hs.trans hm) ▸ ⟨hs, hm⟩)
      · exact .inr (mem_polyline_of_between ht mid m hm)

theorem segment_subset_polyline {a b : V} {mid : List V} (h : ∀ c ∈ mid, c ∈ segment 𝕜 a b) :
    segment 𝕜 a b ⊆ polyline 𝕜 (a :: (mid ++ [b])) := by
  obtain ⟨ts, rfl⟩ : mid ∈ Set.range (List.map (AffineMap.lineMap (k := 𝕜) a b)) := by
    rw [Set.range_list_map]
    intro c hc
    obtain ⟨t, -, ht⟩ := segment_eq_image_lineMap 𝕜 a b ▸ h c hc
    exact ⟨t, ht⟩
  have hpath : a :: (ts.map (AffineMap.lineMap a b) ++ [b]) =
      ((0 : 𝕜) :: (ts ++ [1])).map (AffineMap.lineMap a b) := by simp
  rw [hpath, ← image_polyline, segment_eq_image_lineMap]
  exact Set.image_mono fun x hx => mem_polyline_of_between hx.2 ts 0 hx.1

/-- **Dropping vertices on the segment between their kept neighbours
changes no point of the polyline.** -/
theorem Straightens.polyline_eq {path kept : List α} (h : Straightens 𝕜 pos path kept) :
    polyline 𝕜 (kept.map pos) = polyline 𝕜 (path.map pos) := by
  induction h with
  | empty => rfl
  | last a => rfl
  | @stretch a b mid rest kept hmid _ ih =>
    have hmap : ∀ c ∈ mid.map pos, c ∈ segment 𝕜 (pos a) (pos b) := by
      intro c hc
      obtain ⟨v, hv, rfl⟩ := List.mem_map.mp hc
      exact hmid v hv
    have hcover : polyline 𝕜 (pos a :: (mid.map pos ++ [pos b])) = segment 𝕜 (pos a) (pos b) := by
      refine (polyline_subset (convex_segment _ _) fun c hc => ?_).antisymm
        (segment_subset_polyline hmap)
      simp only [List.mem_cons, List.mem_append, List.not_mem_nil, or_false] at hc
      rcases hc with rfl | hc | rfl
      · exact left_mem_segment 𝕜 _ _
      · exact hmap c hc
      · exact right_mem_segment 𝕜 _ _
    have hcut := polyline_append (𝕜 := 𝕜) (pos a :: mid.map pos) (pos b) (rest.map pos)
    rw [List.cons_append, List.cons_append, hcover, ← List.map_cons, ← ih] at hcut
    rw [List.map_cons (l := mid ++ b :: rest), List.map_append, hcut]
    rfl

end HighJump.Lib
