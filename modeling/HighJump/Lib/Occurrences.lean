/-
HighJump.Lib.Occurrences — where one list occurs in another, and the
pieces its leftmost occurrences leave.

`find` is the search from a position on. `Cut d s ps` says that `ps` are
the pieces of `s` between its successive leftmost occurrences of `d` that
do not overlap: the first piece ends where `d` occurs first, and the
others are the pieces of what follows that occurrence. A nonempty `d`
cuts every list in exactly one way. `find_append` is what a scan needs:
behind a front that has been dealt with, the search is the search in the
rest.
-/
import Mathlib.Data.List.Basic

namespace HighJump.Lib.Occurrences

variable {α : Type}

/-- `d` occurs in `s` at position `i`. -/
def OccursAt (d s : List α) (i : Nat) : Prop := d <+: s.drop i

instance [DecidableEq α] (d s : List α) (i : Nat) : Decidable (OccursAt d s i) :=
  inferInstanceAs (Decidable (d <+: s.drop i))

/-- The first position from `pos` on, not past the end of `s`, at which
`d` occurs. -/
def find [DecidableEq α] (s d : List α) (pos : Nat) : Option Nat :=
  (List.range' pos (s.length + 1 - pos)).find? fun i => decide (OccursAt d s i)

section Occurs

variable {d s front : List α} {i : Nat}

theorem OccursAt.lt_length (hd : d ≠ []) (h : OccursAt d s i) : i < s.length := by
  by_contra hge
  rw [OccursAt, List.drop_eq_nil_of_le (Nat.le_of_not_lt hge)] at h
  exact hd (List.prefix_nil.mp h)

theorem OccursAt.infix (h : OccursAt d s i) : d <:+: s :=
  h.isInfix.trans (List.drop_suffix i s).isInfix

theorem infix_iff_occursAt : d <:+: s ↔ ∃ i, OccursAt d s i := by
  refine ⟨fun ⟨p, q, heq⟩ => ⟨p.length, ?_⟩, fun ⟨i, h⟩ => h.infix⟩
  rw [OccursAt, ← heq, List.append_assoc, List.drop_left]
  exact List.prefix_append d q

theorem occursAt_append_left : OccursAt d (front ++ s) (front.length + i) ↔ OccursAt d s i := by
  rw [OccursAt, OccursAt, List.drop_append, List.drop_eq_nil_of_le (Nat.le_add_right _ _),
    Nat.add_sub_cancel_left, List.nil_append]

/-- What occurs in a front occurs in the whole. -/
theorem OccursAt.append_right {rest : List α} (hd : d ≠ []) (h : OccursAt d s i) :
    OccursAt d (s ++ rest) i := by
  rw [OccursAt, List.drop_append_of_le_length (Nat.le_of_lt (h.lt_length hd))]
  exact h.trans (List.prefix_append _ _)

end Occurs

/-! ## Searching -/

section Find

variable [DecidableEq α] {s d front : List α} {pos i : Nat}

theorem find_eq_none_iff (hd : d ≠ []) :
    find s d pos = none ↔ ∀ i, pos ≤ i → ¬ OccursAt d s i := by
  rw [find, List.find?_range'_eq_none]
  refine ⟨fun h i hi hocc => ?_, fun h i hi _ => by simp [h i hi]⟩
  have hlt := hocc.lt_length hd
  have := h i hi (by omega)
  simp [hocc] at this

theorem find_eq_some_iff (hd : d ≠ []) : find s d pos = some i ↔
    pos ≤ i ∧ OccursAt d s i ∧ ∀ j, pos ≤ j → j < i → ¬ OccursAt d s j := by
  rw [find, List.find?_range'_eq_some]
  simp only [decide_eq_true_eq, List.mem_range'_1, Bool.not_eq_true', decide_eq_false_iff_not]
  constructor
  · rintro ⟨hocc, ⟨hle, -⟩, hfirst⟩
    exact ⟨hle, hocc, hfirst⟩
  · rintro ⟨hle, hocc, hfirst⟩
    have := hocc.lt_length hd
    exact ⟨hocc, ⟨hle, by omega⟩, hfirst⟩

/-- **Behind a front, the search is the search in the rest.** -/
theorem find_append (hd : d ≠ []) :
    find (front ++ s) d front.length = (find s d 0).map (front.length + ·) := by
  cases h : find s d 0 with
  | none =>
    rw [Option.map_none, find_eq_none_iff hd]
    intro i hi hocc
    obtain ⟨j, rfl⟩ := Nat.exists_eq_add_of_le hi
    exact (find_eq_none_iff hd).mp h j (Nat.zero_le j) (occursAt_append_left.mp hocc)
  | some i =>
    obtain ⟨-, hocc, hfirst⟩ := (find_eq_some_iff hd).mp h
    rw [Option.map_some, find_eq_some_iff hd]
    refine ⟨Nat.le_add_right _ _, occursAt_append_left.mpr hocc, fun j hj hlt hocc' => ?_⟩
    obtain ⟨k, rfl⟩ := Nat.exists_eq_add_of_le hj
    exact hfirst k (Nat.zero_le k) (by omega) (occursAt_append_left.mp hocc')

end Find

/-! ## Cutting -/

/-- `ps` are the pieces of `s` between its successive leftmost
occurrences of `d`. -/
inductive Cut (d : List α) : List α → List (List α) → Prop where
  | last {s : List α} (h : ¬ d <:+: s) : Cut d s [s]
  | next {p rest : List α} {ps : List (List α)}
      (first : ∀ i, i < p.length → ¬ OccursAt d (p ++ (d ++ rest)) i) (more : Cut d rest ps) :
      Cut d (p ++ (d ++ rest)) (p :: ps)

section Cut

variable {d s : List α} {ps qs : List (List α)}

theorem Cut.ne_nil (h : Cut d s ps) : ps ≠ [] := by
  cases h <;> exact List.cons_ne_nil _ _

/-- No piece holds an occurrence. -/
theorem Cut.free (hd : d ≠ []) (h : Cut d s ps) : ∀ p ∈ ps, ¬ d <:+: p := by
  induction h with
  | last h =>
    intro p hp
    rwa [List.mem_singleton.mp hp]
  | next first _ ih =>
    intro p hp hin
    rcases List.mem_cons.mp hp with rfl | hp
    · obtain ⟨i, hi⟩ := infix_iff_occursAt.mp hin
      exact first i (hi.lt_length hd) (hi.append_right hd)
    · exact ih p hp hin

/-- The first occurrence is where the first piece ends. -/
theorem find_of_first [DecidableEq α] (hd : d ≠ []) {p rest : List α}
    (first : ∀ i, i < p.length → ¬ OccursAt d (p ++ (d ++ rest)) i) :
    find (p ++ (d ++ rest)) d 0 = some p.length := by
  refine (find_eq_some_iff hd).mpr ⟨Nat.zero_le _, ?_, fun j _ hj => first j hj⟩
  exact occursAt_append_left (i := 0).mpr (List.prefix_append d rest)

theorem find_of_free [DecidableEq α] (hd : d ≠ []) (h : ¬ d <:+: s) : find s d 0 = none :=
  (find_eq_none_iff hd).mpr fun _ _ hocc => h hocc.infix

/-- **Every list is cut.** -/
theorem exists_cut [DecidableEq α] (hd : d ≠ []) (s : List α) : ∃ ps, Cut d s ps := by
  cases h : find s d 0 with
  | none =>
    refine ⟨[s], .last fun hin => ?_⟩
    obtain ⟨i, hi⟩ := infix_iff_occursAt.mp hin
    exact (find_eq_none_iff hd).mp h i (Nat.zero_le i) hi
  | some i =>
    obtain ⟨-, hocc, hfirst⟩ := (find_eq_some_iff hd).mp h
    have hlt := hocc.lt_length hd
    have hs : s.take i ++ (d ++ (s.drop i).drop d.length) = s := by
      rw [List.prefix_iff_eq_append.mp hocc, List.take_append_drop]
    have hpos := List.length_pos_iff.mpr hd
    have hshort : ((s.drop i).drop d.length).length < s.length := by
      rw [List.length_drop, List.length_drop]
      omega
    obtain ⟨ps, hps⟩ := exists_cut hd ((s.drop i).drop d.length)
    have hcut : Cut d (s.take i ++ (d ++ (s.drop i).drop d.length)) (s.take i :: ps) := by
      refine .next (fun j hj => ?_) hps
      rw [hs]
      rw [List.length_take] at hj
      exact hfirst j (Nat.zero_le j) (by omega)
    rw [hs] at hcut
    exact ⟨_, hcut⟩
termination_by s.length

/-- How a list can have been cut. -/
theorem Cut.cases_of (h : Cut d s ps) : (¬ d <:+: s ∧ ps = [s]) ∨
    ∃ p rest qs, s = p ++ (d ++ rest) ∧ ps = p :: qs ∧
      (∀ i, i < p.length → ¬ OccursAt d s i) ∧ Cut d rest qs := by
  cases h with
  | last hfree => exact .inl ⟨hfree, rfl⟩
  | next first more => exact .inr ⟨_, _, _, rfl, rfl, first, more⟩

/-- **And in one way only.** -/
theorem Cut.unique [DecidableEq α] (hd : d ≠ []) (h : Cut d s ps) (h' : Cut d s qs) : ps = qs := by
  induction h generalizing qs with
  | last hfree =>
    rcases h'.cases_of with ⟨-, rfl⟩ | ⟨p, rest, _, rfl, -, -, -⟩
    · rfl
    · exact absurd ⟨p, rest, List.append_assoc _ _ _⟩ hfree
  | @next p rest ps first more ih =>
    rcases h'.cases_of with ⟨hfree, -⟩ | ⟨p', rest', qs', heq, rfl, first', more'⟩
    · exact absurd ⟨p, rest, List.append_assoc _ _ _⟩ hfree
    · -- both first pieces end where `d` occurs first
      have hfind := find_of_first hd first
      rw [heq] at hfind first'
      have hlen := Option.some.inj (hfind.symm.trans (find_of_first hd first'))
      obtain ⟨rfl, hrest⟩ := List.append_inj heq hlen
      obtain rfl := List.append_cancel_left hrest
      rw [ih more']

end Cut

end HighJump.Lib.Occurrences
