/-
HighJump.Io.Filepath — `filepath::list` of `hj/io/filepath.hpp`, in the
order of the directory and sorted by a comparison of the caller's.

A `directory_iterator` is the list of paths it delivers. It may also
throw, at the start or between two entries; the `catch(...)` then leaves
the loop as its end would, so a listing that breaks off is one of the
paths delivered until then.

The sorted listing is an insertion sort that never appends: an entry goes
before the first one that is not greater, and one that everything listed
so far is greater than finds no place. What was delivered first stays
last, so the entries lost are exactly those it is greater than
(`listSorted_perm`).
-/
import Mathlib.Data.List.Basic
import Mathlib.Order.Defs.Unbundled

namespace HighJump.Io.Filepath

variable {Path : Type}

/-- `list(path)`. -/
def list (entries : List Path) : List Path :=
  entries.foldl (fun li item => li ++ [item]) []

/-- The loop over `litr`: `item` is inserted before the first element
that is not greater. -/
def insertItem (greater : Path → Path → Bool) (item : Path) : List Path → List Path
  | [] => []
  | e :: li => if greater e item then e :: insertItem greater item li else item :: e :: li

/-- The body of the loop over the directory. -/
def addItem (greater : Path → Path → Bool) (li : List Path) (item : Path) : List Path :=
  if li.isEmpty then [item] else insertItem greater item li

/-- `list(path, greater)`. -/
def listSorted (greater : Path → Path → Bool) (entries : List Path) : List Path :=
  entries.foldl (addItem greater) []

theorem list_eq (entries : List Path) : list entries = entries := by
  suffices h : ∀ li : List Path, entries.foldl (fun li item => li ++ [item]) li = li ++ entries by
    exact (h []).trans (List.nil_append _)
  induction entries with
  | nil => simp
  | cons e entries ih => simp [ih]

/-! ## One entry -/

section Insert

variable (greater : Path → Path → Bool) {item : Path} {li : List Path}

/-- No entry is greater than one listed before it. -/
def Descending (li : List Path) : Prop := li.Pairwise fun a b => greater b a = false

variable {greater}

theorem insertItem_of_all (h : ∀ e ∈ li, greater e item = true) :
    insertItem greater item li = li := by
  induction li with
  | nil => rfl
  | cons e li ih =>
    rw [insertItem, if_pos (h e List.mem_cons_self),
      ih fun e' he' => h e' (List.mem_cons_of_mem _ he')]

theorem insertItem_perm (h : ∃ e ∈ li, greater e item = false) :
    (insertItem greater item li).Perm (item :: li) := by
  induction li with
  | nil =>
    obtain ⟨e, he, -⟩ := h
    cases he
  | cons e li ih =>
    rw [insertItem]
    split
    · rename_i hgt
      obtain ⟨e', he', hle⟩ := h
      have hin : e' ∈ li := by
        rcases List.mem_cons.mp he' with rfl | hin
        · rw [hgt] at hle
          cases hle
        · exact hin
      exact ((ih ⟨e', hin, hle⟩).cons e).trans (List.Perm.swap item e li)
    · exact List.Perm.refl _

/-- An entry is inserted before another one, so the last stays last. -/
theorem insertItem_getLast? : (insertItem greater item li).getLast? = li.getLast? := by
  induction li with
  | nil => rfl
  | cons e li ih =>
    rw [insertItem]
    split
    · rw [List.getLast?_cons, List.getLast?_cons, ih]
    · rw [List.getLast?_cons_cons]

variable [hw : IsStrictWeakOrder Path fun a b => greater a b = true]

include hw in
/-- In a strict weak order, not being greater is transitive. -/
theorem not_greater_trans {a b c : Path} (hab : greater a b = false) (hbc : greater b c = false) :
    greater a c = false := by
  by_contra hac
  rw [Bool.not_eq_false] at hac
  have hba : greater b a = false := by
    by_contra h
    rw [Bool.not_eq_false] at h
    have := hw.trans _ _ _ h hac
    simp [hbc] at this
  have hcb : greater c b = false := by
    by_contra h
    rw [Bool.not_eq_false] at h
    have := hw.trans _ _ _ hac h
    simp [hab] at this
  -- so neither pair is comparable, and then `a` and `c` are not either
  have := hw.incomp_trans a b c (by simp [hab, hba]) (by simp [hbc, hcb])
  exact this.1 hac

include hw in
theorem insertItem_descending (h : Descending greater li) :
    Descending greater (insertItem greater item li) := by
  induction li with
  | nil => exact List.Pairwise.nil
  | cons e li ih =>
    obtain ⟨he, hli⟩ := List.pairwise_cons.mp h
    rw [insertItem]
    split
    · rename_i hgt
      refine List.pairwise_cons.mpr ⟨fun e' he' => ?_, ih hli⟩
      have hsub : e' = item ∨ e' ∈ li := by
        by_cases hall : ∀ x ∈ li, greater x item = true
        · rw [insertItem_of_all hall] at he'
          exact .inr he'
        · push Not at hall
          obtain ⟨x, hx, hle⟩ := hall
          exact List.mem_cons.mp
            ((insertItem_perm ⟨x, hx, eq_false_of_ne_true hle⟩).mem_iff.mp he')
      rcases hsub with rfl | hin
      · by_contra hback
        rw [Bool.not_eq_false] at hback
        exact hw.irrefl _ (hw.trans _ _ _ hgt hback)
      · exact he e' hin
    · rename_i hle
      rw [Bool.not_eq_true] at hle
      refine List.pairwise_cons.mpr ⟨fun e' he' => ?_, h⟩
      rcases List.mem_cons.mp he' with rfl | hin
      · exact hle
      · exact not_greater_trans (he e' hin) hle

end Insert

/-! ## The whole directory -/

section Sorted

variable {greater : Path → Path → Bool} [hw : IsStrictWeakOrder Path fun a b => greater a b = true]

/-- What the loop keeps: the list is in order, it is the entries so far
that `first` is not greater than, and `first` stands last in it. -/
structure Listed (greater : Path → Path → Bool) (first : Path) (entries li : List Path) :
    Prop where
  descending : Descending greater li
  kept : li.Perm (entries.filter fun e => !greater first e)
  last : li.getLast? = some first

include hw in
/-- **One entry of the directory.** -/
theorem Listed.addItem {first item : Path} {entries li : List Path}
    (h : Listed greater first entries li) :
    Listed greater first (entries ++ [item]) (addItem greater li item) := by
  have hmem : first ∈ li := List.mem_of_getLast? h.last
  have hadd : Filepath.addItem greater li item = insertItem greater item li := by
    rw [Filepath.addItem, List.isEmpty_eq_false_iff.mpr (List.ne_nil_of_mem hmem)]
    rfl
  rw [hadd]
  refine ⟨insertItem_descending h.descending, ?_, insertItem_getLast?.trans h.last⟩
  rw [List.filter_append]
  by_cases hgt : greater first item = true
  · -- everything listed is at least as great as the last of it
    have hall : ∀ e ∈ li, greater e item = true := by
      intro e he
      by_contra hle
      rw [Bool.not_eq_true] at hle
      have hfe : greater first e = false := by
        obtain ⟨front, rfl⟩ := List.getLast?_eq_some_iff.mp h.last
        rcases List.mem_append.mp he with hin | hin
        · exact (List.pairwise_append.mp h.descending).2.2 e hin first List.mem_cons_self
        · rw [List.mem_singleton.mp hin]
          exact eq_false_of_ne_true (hw.irrefl first)
      simp [not_greater_trans hfe hle] at hgt
    rw [insertItem_of_all hall]
    simpa [hgt] using h.kept
  · rw [Bool.not_eq_true] at hgt
    have hperm := (insertItem_perm ⟨first, hmem, hgt⟩).trans (h.kept.cons item)
    simpa [hgt] using hperm.trans (List.perm_append_singleton item _).symm

include hw in
/-- **What a sorted listing keeps.** -/
theorem listSorted_listed (first : Path) (rest : List Path) :
    Listed greater first (first :: rest) (listSorted greater (first :: rest)) := by
  suffices h : ∀ entries li, Listed greater first entries li →
      Listed greater first (entries ++ rest) (rest.foldl (addItem greater) li) by
    refine h [first] [first] ⟨List.pairwise_singleton _ _, ?_, rfl⟩
    have hirr : greater first first = false := eq_false_of_ne_true (hw.irrefl first)
    simp [hirr]
  induction rest with
  | nil =>
    intro entries li h
    rwa [List.append_nil]
  | cons item rest ih =>
    intro entries li h
    rw [List.foldl_cons, ← List.singleton_append, ← List.append_assoc]
    exact ih _ _ h.addItem

end Sorted

/-- **A sorted listing is in order, and it is complete exactly if the
entry delivered first is not greater than any other.** The two listings
may find the directory in different orders. -/
theorem listSorted_perm (greater : Path → Path → Bool)
    [IsStrictWeakOrder Path fun a b => greater a b = true] {entries entries' : List Path}
    (h : entries.Perm entries') :
    ((listSorted greater entries).Pairwise fun a b => greater b a = false) ∧
      ((listSorted greater entries).Perm (list entries') ↔
        ∀ first, entries.head? = some first → ∀ e ∈ entries, greater first e = false) := by
  rw [list_eq]
  cases entries with
  | nil => simp [listSorted, List.nil_perm.mp h]
  | cons first rest =>
    have hl : Listed greater first (first :: rest) (listSorted greater (first :: rest)) :=
      listSorted_listed first rest
    refine ⟨hl.descending, ?_⟩
    have hiff : (listSorted greater (first :: rest)).Perm entries' ↔
        (first :: rest).filter (fun e => !greater first e) = first :: rest := by
      refine ⟨fun hp => ?_, fun heq => ?_⟩
      · exact List.filter_sublist.eq_of_length (hl.kept.symm.trans (hp.trans h.symm)).length_eq
      · have hkept := hl.kept
        rw [heq] at hkept
        exact hkept.trans h
    rw [hiff, List.filter_eq_self]
    simp

/-- The longer name is the greater. -/
def longer (a b : List Char) : Bool := decide (b.length < a.length)

instance longer_weak : IsStrictWeakOrder (List Char) fun a b => longer a b = true where
  irrefl a h := Nat.lt_irrefl _ (of_decide_eq_true h)
  trans a b c hab hbc :=
    decide_eq_true (Nat.lt_trans (of_decide_eq_true hbc) (of_decide_eq_true hab))
  incomp_trans a b c hab hbc := by
    simp only [longer, decide_eq_true_eq] at hab hbc ⊢
    omega

theorem listSorted_perm_short :
    ((listSorted longer [['d', '/', 'a'], ['d', '/', 'b', 'c']]).Pairwise
        fun a b => longer b a = false) ∧
      ((listSorted longer [['d', '/', 'a'], ['d', '/', 'b', 'c']]).Perm
          (list [['d', '/', 'b', 'c'], ['d', '/', 'a']]) ↔
        ∀ first, [['d', '/', 'a'], ['d', '/', 'b', 'c']].head? = some first →
          ∀ e ∈ [['d', '/', 'a'], ['d', '/', 'b', 'c']], longer first e = false) :=
  listSorted_perm longer (List.Perm.swap _ _ _)

/-- Delivered after a longer name, a shorter one is not listed. -/
theorem listSorted_loses :
    ¬ (listSorted longer [['d', '/', 'b', 'c'], ['d', '/', 'a']]).Perm
      (list [['d', '/', 'b', 'c'], ['d', '/', 'a']]) := by
  intro h
  exact absurd h.length_eq (by decide)

end HighJump.Io.Filepath
