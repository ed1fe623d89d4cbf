/-
HighJump.Util.StringUtil — `split`, `replace_all` and
`replace_all_inplace` of `hj/util/string_util.hpp`.

A string is a list, as long as memory lets it be, and `find` is
`std::string::find`. The loops have no bound of their own; each is run
with fuel, and `Returns` says that enough of it gives the result.

`replace_all` goes on searching in the string it has just changed, behind
what it put in; `split` searches the string it was given. Behind those
fronts both have the same rest before them (`find_append`), so both go
through the pieces of `Cut`, whatever the replacement holds.
-/
import HighJump.Lib.Loop
import HighJump.Lib.Occurrences

namespace HighJump.Util.StringUtil

open HighJump.Lib HighJump.Lib.Occurrences

variable {CharT : Type} [DecidableEq CharT]

/-- The variables of `split`. -/
structure Split (CharT : Type) where
  start : Nat
  found : Option Nat
  result : List (List CharT)

/-- The body of the `while`, and what follows it once nothing is found. -/
def splitTurn (str delimiter : List CharT) (v : Split CharT) :
    Turn (Split CharT) (List (List CharT)) :=
  match v.found with
  | some found =>
      let result := if found > v.start then
        v.result ++ [(str.drop v.start).take (found - v.start)] else v.result
      let start := found + delimiter.length
      .again ⟨start, find str delimiter start, result⟩
  | none =>
      .exit (if v.start < str.length then v.result ++ [str.drop v.start] else v.result)

/-- `split`. -/
def split (str delimiter : List CharT) (fuel : Nat) : Option (List (List CharT)) :=
  if str.isEmpty || delimiter.isEmpty then some [str]
  else repeatUntil (fun _ v => some (splitTurn str delimiter v)) fuel
    ⟨0, find str delimiter 0, []⟩

/-- `str.replace(pos, n, new)`. -/
def replace (str : List CharT) (pos n : Nat) (new : List CharT) : List CharT :=
  str.take pos ++ new ++ str.drop (pos + n)

/-- The loop of `replace_all`, over the string and the position. -/
def replaceTurn (old new : List CharT) : List CharT × Nat → Turn (List CharT × Nat) (List CharT)
  | (str, pos) =>
      match find str old pos with
      | some pos => .again (replace str pos old.length new, pos + new.length)
      | none => .exit str

/-- `replace_all`. -/
def replaceAll (str old new : List CharT) (fuel : Nat) : Option (List CharT) :=
  if old.isEmpty then some str
  else repeatUntil (fun _ v => some (replaceTurn old new v)) fuel (str, 0)

/-- `replace_all_inplace`: what it leaves in `str`, which it returns. -/
def replaceAllInplace (str old new : List CharT) (fuel : Nat) : Option (List CharT) :=
  replaceAll str old new fuel

/-! ## One turn -/

section Turns

variable {front p rest d r : List CharT}

theorem replaceTurn_last (hd : d ≠ []) (h : ¬ d <:+: rest) :
    replaceTurn d r (front ++ rest, front.length) = .exit (front ++ rest) := by
  rw [replaceTurn, find_append hd, find_of_free hd h]
  rfl

/-- Where the rest begins with a piece and the delimiter, the delimiter
is replaced, and the position is behind what was put in. -/
theorem replaceTurn_next (hd : d ≠ [])
    (first : ∀ i, i < p.length → ¬ OccursAt d (p ++ (d ++ rest)) i) :
    replaceTurn d r (front ++ (p ++ (d ++ rest)), front.length) =
      .again ((front ++ p ++ r) ++ rest, (front ++ p ++ r).length) := by
  rw [replaceTurn, find_append hd, find_of_first hd first]
  simp only [Option.map_some, replace]
  have hlen : front.length + p.length = (front ++ p).length := List.length_append.symm
  rw [hlen, ← List.append_assoc front p, List.take_left, List.drop_append,
    List.drop_eq_nil_of_le (Nat.le_add_right _ _), Nat.add_sub_cancel_left, List.drop_left,
    List.nil_append, @List.length_append _ (front ++ p) r]

theorem splitTurn_last (hd : d ≠ []) (h : ¬ d <:+: rest) (parts : List (List CharT)) :
    splitTurn (front ++ rest) d ⟨front.length, find (front ++ rest) d front.length, parts⟩ =
      .exit (parts ++ [rest].filter (· ≠ [])) := by
  rw [find_append hd, find_of_free hd h]
  simp only [splitTurn, Option.map_none, List.length_append, List.drop_left]
  by_cases hr : rest = []
  · simp [hr]
  · have := List.length_pos_iff.mpr hr
    rw [if_pos (by omega)]
    simp [hr]

theorem splitTurn_next (hd : d ≠ [])
    (first : ∀ i, i < p.length → ¬ OccursAt d (p ++ (d ++ rest)) i) (parts : List (List CharT)) :
    splitTurn (front ++ (p ++ (d ++ rest))) d
        ⟨front.length, find (front ++ (p ++ (d ++ rest))) d front.length, parts⟩ =
      .again ⟨(front ++ p ++ d).length,
        find ((front ++ p ++ d) ++ rest) d (front ++ p ++ d).length,
        parts ++ [p].filter (· ≠ [])⟩ := by
  have hwhole : front ++ (p ++ (d ++ rest)) = (front ++ p ++ d) ++ rest := by
    simp only [List.append_assoc]
  have hstart : front.length + p.length + d.length = (front ++ p ++ d).length := by
    simp only [List.length_append]
  rw [find_append hd, find_of_first hd first]
  simp only [splitTurn, Option.map_some, hstart, Nat.add_sub_cancel_left, List.drop_left,
    List.take_left]
  rw [hwhole]
  by_cases hp : p = []
  · simp [hp]
  · have := List.length_pos_iff.mpr hp
    rw [if_pos (by omega)]
    simp [hp]

end Turns

/-! ## The loops -/

section Loops

variable {s d : List CharT} {ps : List (List CharT)}

/-- **Replacing goes through the pieces**, behind whatever has been put
before them. -/
theorem replaceLoop_returns (hd : d ≠ []) (r : List CharT) (h : Cut d s ps) :
    ∀ front : List CharT, Returns (fun fuel =>
      repeatUntil (fun _ v => some (replaceTurn d r v)) fuel (front ++ s, front.length))
      (front ++ r.intercalate ps) := by
  induction h with
  | last hfree =>
    intro front
    rw [List.intercalate_singleton]
    exact Returns.repeat_exit ⟨0, fun _ _ => by rw [replaceTurn_last hd hfree]⟩
  | @next p rest ps first more ih =>
    intro front
    have hgo := ih (front ++ p ++ r)
    have hwhole : front ++ r.intercalate (p :: ps) = front ++ p ++ r ++ r.intercalate ps := by
      rw [List.intercalate_cons_of_ne_nil more.ne_nil]
      simp only [List.append_assoc]
    rw [hwhole]
    exact Returns.repeat_again ⟨0, fun _ _ => by rw [replaceTurn_next hd first]⟩ hgo

/-- **Splitting goes through the same pieces.** -/
theorem splitLoop_returns (hd : d ≠ []) (h : Cut d s ps) :
    ∀ (front : List CharT) (parts : List (List CharT)), Returns (fun fuel =>
      repeatUntil (fun _ v => some (splitTurn (front ++ s) d v)) fuel
        ⟨front.length, find (front ++ s) d front.length, parts⟩)
      (parts ++ ps.filter (· ≠ [])) := by
  induction h with
  | last hfree =>
    intro front parts
    exact Returns.repeat_exit ⟨0, fun _ _ => by rw [splitTurn_last hd hfree]⟩
  | @next p rest ps first more ih =>
    intro front parts
    have hwhole : front ++ (p ++ (d ++ rest)) = (front ++ p ++ d) ++ rest := by
      simp only [List.append_assoc]
    have hgo := ih (front ++ p ++ d) (parts ++ [p].filter (· ≠ []))
    rw [List.append_assoc parts, ← List.filter_append, List.singleton_append, ← hwhole] at hgo
    refine Returns.repeat_again ⟨0, fun _ _ => ?_⟩ hgo
    rw [splitTurn_next hd first, hwhole]

theorem replaceAll_returns (hd : d ≠ []) (r : List CharT) (h : Cut d s ps) :
    Returns (replaceAll s d r) (r.intercalate ps) := by
  obtain ⟨N, hN⟩ := replaceLoop_returns hd r h []
  refine ⟨N, fun fuel hle => ?_⟩
  rw [replaceAll, List.isEmpty_eq_false_iff.mpr hd]
  exact hN fuel hle

theorem split_returns (hd : d ≠ []) (hs : s ≠ []) (h : Cut d s ps) :
    Returns (split s d) (ps.filter (· ≠ [])) := by
  obtain ⟨N, hN⟩ := splitLoop_returns hd h [] []
  refine ⟨N, fun fuel hle => ?_⟩
  rw [split, List.isEmpty_eq_false_iff.mpr hd, List.isEmpty_eq_false_iff.mpr hs]
  exact hN fuel hle

omit [DecidableEq CharT] in
/-- With nothing between them, empty pieces leave no trace. -/
theorem flatten_filter_ne_nil (ps : List (List CharT)) [DecidablePred fun p : List CharT => p ≠ []] :
    (ps.filter (· ≠ [])).flatten = List.intercalate [] ps := by
  induction ps with
  | nil => rfl
  | cons p ps ih =>
    have hjoin : List.intercalate [] (p :: ps) = p ++ List.intercalate [] ps := by
      cases ps with
      | nil => simp
      | cons q qs => rw [List.intercalate_cons_cons, List.append_nil]
    rw [hjoin, ← ih]
    by_cases hp : p = []
    · simp [hp]
    · simp [hp]

end Loops

/-- **Splitting and replacing agree on the pieces.** -/
theorem split_replace_agree (s d r : List CharT) (hd : d ≠ []) :
    ∃ ps, Cut d s ps ∧ (∀ qs, Cut d s qs → qs = ps) ∧
      Returns (replaceAll s d r) (r.intercalate ps) ∧
      Returns (replaceAllInplace s d r) (r.intercalate ps) ∧
      (s ≠ [] → Returns (split s d) (ps.filter (· ≠ []))) ∧ (∀ p ∈ ps, ¬ d <:+: p) ∧
      ∃ parts, Returns (split s d) parts ∧ Returns (replaceAll s d []) parts.flatten := by
  obtain ⟨ps, hcut⟩ := exists_cut hd s
  refine ⟨ps, hcut, fun qs h => h.unique hd hcut, replaceAll_returns hd r hcut,
    replaceAll_returns hd r hcut, fun hs => split_returns hd hs hcut, hcut.free hd, ?_⟩
  have hnone := replaceAll_returns hd [] hcut
  by_cases hs : s = []
  · -- an empty string is its own only part, and nothing occurs in it
    have hps : ps = [[]] := by
      subst hs
      exact hcut.unique hd (.last fun h => hd (List.infix_nil.mp h))
    refine ⟨[s], ⟨0, fun _ _ => by rw [split, hs]; rfl⟩, ?_⟩
    rw [hps, List.intercalate_singleton] at hnone
    rw [List.flatten_singleton, hs]
    rwa [hs] at hnone
  · refine ⟨_, split_returns hd hs hcut, ?_⟩
    rwa [flatten_filter_ne_nil]

/-- The delimiter overlaps itself, and the replacement holds it. -/
theorem split_replace_agree_overlap :
    ∃ ps, Cut [1, 1] [0, 1, 1, 1, 1, 1] ps ∧ (∀ qs, Cut [1, 1] [0, 1, 1, 1, 1, 1] qs → qs = ps) ∧
      Returns (replaceAll [0, 1, 1, 1, 1, 1] [1, 1] [1, 1, 1]) (List.intercalate [1, 1, 1] ps) ∧
      Returns (replaceAllInplace [0, 1, 1, 1, 1, 1] [1, 1] [1, 1, 1])
        (List.intercalate [1, 1, 1] ps) ∧
      ([0, 1, 1, 1, 1, 1] ≠ [] → Returns (split [0, 1, 1, 1, 1, 1] [1, 1])
        (ps.filter (· ≠ []))) ∧ (∀ p ∈ ps, ¬ [1, 1] <:+: p) ∧
      ∃ parts, Returns (split [0, 1, 1, 1, 1, 1] [1, 1]) parts ∧
        Returns (replaceAll [0, 1, 1, 1, 1, 1] [1, 1] []) parts.flatten :=
  split_replace_agree [0, 1, 1, 1, 1, 1] [1, 1] [1, 1, 1] (List.cons_ne_nil _ _)

end HighJump.Util.StringUtil
