/-
HighJump.Algo.SkiplistQueryTheorems — what the queries of a skiplist by
rank and by score answer after any run.

Every search is the descent of `SkiplistRep` with its slots forgotten
(`seek_spec`), so each query is a choice of cut. The loops of the range
queries are by induction on the number of nodes still to come; their
results only grow at the end (`RangeResult.append`). The main results are
over every run from the constructor, for any towers.
-/
import HighJump.Algo.SkiplistQueries
import HighJump.Algo.SkiplistRuns

namespace HighJump.Algo.Skip

open HighJump.Lib HighJump.Lib.Towers

variable {S T : Type} {sl : Skiplist S T} {A B ns : List (Entry S T)}

/-! ## The descent -/

theorem seek_eq_descend {α : Type} (h : Heap S T) (go : Nat → α → Ptr → Ptr → Option Bool)
    (count : Nat → α → Ptr → Option α) (fuel : Nat) {l : Nat} (hl : l ≤ maxLevel) (x : Ptr × α)
    (s : Slots α) : seek h go count fuel l x = (descend h go count fuel l x s).map Prod.fst := by
  induction l generalizing x s with
  | zero => rfl
  | succ l ih =>
    rw [seek, descend]
    cases walk h go count l fuel x with
    | none => rfl
    | some y =>
      have hlt : l < maxLevel := hl
      simp only [Option.bind_eq_bind, Option.bind_some, Slots.store, hlt, if_true]
      exact ih (Nat.le_of_lt hlt) y _

/-- A search ends at its cut. -/
theorem seek_spec {α : Type} {go : Nat → α → Ptr → Ptr → Option Bool}
    {count : Nat → α → Ptr → Option α} {c : Nat} {I : Nat → α → Prop} (hr : Rep sl ns)
    (hc : c ≤ ns.length) (hsep : Separates sl ns go count c I) {acc : α} (hacc : I 0 acc) :
    ∃ acc', I c acc' ∧ ∀ fuel, c < fuel →
      seek sl.heap go count fuel sl.level (sl.header, acc) = some (ptrAt sl.header ns c, acc') := by
  obtain ⟨acc', slots, hacc', -, hrun⟩ := descend_spec hr hc hsep hacc
  refine ⟨acc', hacc', fun fuel hfuel => ?_⟩
  rw [seek_eq_descend _ _ _ _ hr.level_le _ fun _ => none, hrun fuel hfuel]
  rfl

/-- A search by a test on the next node. -/
theorem seek_test (hr : Rep sl (A ++ B)) (go : Nat → Unit → Ptr → Ptr → Option Bool)
    (hgo : ∀ i acc x j, 0 < j → j ≤ (A ++ B).length →
      go i acc x (ptrAt sl.header (A ++ B) j) = some (decide (j ≤ A.length)))
    {fuel : Nat} (hfuel : A.length < fuel) :
    seek sl.heap go countNone fuel sl.level (sl.header, ()) =
      some (ptrAt sl.header (A ++ B) A.length, ()) := by
  obtain ⟨slots, -, hrun⟩ := descend_test hr go hgo
  rw [seek_eq_descend _ _ _ _ hr.level_le _ fun _ => none, hrun fuel hfuel]
  rfl

/-! ## Range results -/

/-- Some more nodes, all of them counted. -/
def RangeResult.append (r : RangeResult) (l : List Ptr) : RangeResult :=
  ⟨r.nodes ++ l, r.totalInRange + UInt64.ofNat l.length⟩

theorem RangeResult.append_nil (r : RangeResult) : r.append [] = r := by
  rw [append, List.append_nil]
  exact congrArg _ (UInt64.add_zero _)

theorem RangeResult.push_append (r : RangeResult) (x : Ptr) (l : List Ptr) :
    (r.push x).append l = r.append (x :: l) := by
  rw [push, append, append, List.append_assoc, ofNat_succ_add]
  rfl

/-! ## Ranks -/

/-- The descent to the node before a rank. -/
theorem seek_rank (hr : Rep sl ns) {rank : UInt64} (hrank : rank.toNat ≤ ns.length) :
    ∃ acc, ∀ fuel, rank.toNat < fuel →
      seek sl.heap (goBelow sl.heap rank) (countSpan sl.heap) fuel sl.level (sl.header, 0) =
        some (ptrAt sl.header ns rank.toNat, acc) := by
  have hlt := hr.length_lt
  have hsep : Separates sl ns (goBelow sl.heap rank) (countSpan sl.heap) rank.toNat IsRank := by
    refine ⟨fun i k j acc hi _ ht hj hjn hacc => ?_, fun i k j acc hi _ ht hj hjc hacc => ?_⟩
    · have hpos := hj.lt
      have hcount := count_rank hr hi ht hj hjn hacc
      unfold countSpan at hcount
      obtain ⟨s, hs, hsum⟩ := Option.bind_eq_some_iff.mp hcount
      have hone : (1 : UInt64) ≤ UInt64.ofNat j := by
        rw [UInt64.le_iff_toNat_le, toNat_ofNat_of_lt (by omega)]
        exact Nat.succ_le_of_lt (by omega)
      have hpred : (UInt64.ofNat j - 1).toNat = j - 1 := by
        rw [UInt64.toNat_sub_of_le _ _ hone, toNat_ofNat_of_lt (by omega)]
        rfl
      simp only [goBelow, hs, Option.bind_eq_bind, Option.bind_some, Option.some.inj hsum,
        UInt64.lt_iff_toNat_lt, hpred, Option.some.injEq, decide_eq_decide]
      omega
    · exact ⟨_, count_rank hr hi ht hj (hjc.trans hrank) hacc, rfl⟩
  obtain ⟨acc, -, hrun⟩ := seek_spec hr hrank hsep (show IsRank 0 0 from rfl)
  exact ⟨acc, hrun⟩

theorem getElementByRank_spec (hr : Rep sl ns) (rank : UInt64) {fuel : Nat}
    (hfuel : ns.length < fuel) :
    getElementByRank rank sl fuel = some (((ns.map Entry.ptr)[rank.toNat]?).getD null) := by
  have hguard : sl.length ≤ rank ↔ ns.length ≤ rank.toNat := by
    rw [UInt64.le_iff_toNat_le, hr.length_toNat]
  by_cases hout : ns.length ≤ rank.toNat
  · rw [getElementByRank, if_pos (hguard.mpr hout), List.getElem?_eq_none (by simpa using hout)]
    rfl
  · have hlt : rank.toNat < ns.length := Nat.lt_of_not_le hout
    have hget : ns[rank.toNat]? = some ns[rank.toNat] := List.getElem?_eq_getElem hlt
    obtain ⟨acc, hrun⟩ := seek_rank hr (Nat.le_of_lt hlt)
    rw [getElementByRank, if_neg (hguard.not.mpr hout), hrun fuel (by omega)]
    simp only [Option.bind_eq_bind, Option.bind_some]
    rw [hr.forward_zero (Nat.le_of_lt hlt), ptrAt_of_get sl.header hget, List.getElem?_map, hget]
    rfl

/-- A rank in use is pushed. -/
theorem pushRank_spec (hr : Rep sl ns) {rank : UInt64} {p : Ptr}
    (hp : (ns.map Entry.ptr)[rank.toNat]? = some p) (r : RangeResult) {fuel : Nat}
    (hfuel : ns.length < fuel) : pushRank sl rank fuel r = some (r.push p) := by
  have hne : p ≠ null := by
    rw [List.getElem?_map, Option.map_eq_some_iff] at hp
    obtain ⟨e, he, rfl⟩ := hp
    exact ne_null_of_info (hr.node _ e he)
  rw [pushRank, getElementByRank_spec hr rank hfuel, hp]
  simp [hne]

/-- The forward loop collects the ranks still to come, in order. -/
theorem rankUp_spec (hr : Rep sl ns) {last : UInt64} (hlast : last.toNat < ns.length) :
    ∀ (d : Nat) (i : UInt64) (r : RangeResult), i.toNat + d = last.toNat + 1 →
      ∀ fuel, ns.length + d < fuel →
        rankUp sl last fuel (i, r) = some (r.append (((ns.map Entry.ptr).drop i.toNat).take d)) := by
  intro d
  induction d with
  | zero =>
    intro i r hi fuel hfuel
    obtain ⟨fuel, rfl⟩ : ∃ m, fuel = m + 1 := ⟨fuel - 1, by omega⟩
    rw [List.take_zero, RangeResult.append_nil]
    refine repeatUntil_exit (if_neg ?_)
    rw [UInt64.le_iff_toNat_le]
    omega
  | succ d ih =>
    intro i r hi fuel hfuel
    obtain ⟨fuel, rfl⟩ : ∃ m, fuel = m + 1 := ⟨fuel - 1, by omega⟩
    have hlt := hr.length_lt
    have hget : i.toNat < (ns.map Entry.ptr).length := by rw [List.length_map]; omega
    have hnext : (i + 1).toNat = i.toNat + 1 := by
      rw [UInt64.toNat_add]
      exact Nat.mod_eq_of_lt (by rw [show (1 : UInt64).toNat = 1 from rfl]; omega)
    have hpush := pushRank_spec hr (List.getElem?_eq_getElem hget) r (show ns.length < fuel by omega)
    rw [List.drop_eq_getElem_cons hget, List.take_succ_cons, ← RangeResult.push_append, ← hnext,
      ← ih (i + 1) _ (by omega) fuel (by omega)]
    refine repeatUntil_again ?_
    have hle : i ≤ last := by rw [UInt64.le_iff_toNat_le]; omega
    simp only [hle, if_true, hpush, Option.bind_eq_bind, Option.bind_some]

/-- The reverse loop collects the ranks still to come, from the last. -/
theorem rankDown_spec (hr : Rep sl ns) (start : UInt64) :
    ∀ (d : Nat) (i : UInt64) (r : RangeResult), i.toNat = start.toNat + d → i.toNat ≤ ns.length →
      ∀ fuel, ns.length + d < fuel → rankDown sl start fuel (i, r) =
        some (r.append (((ns.map Entry.ptr).drop start.toNat).take d).reverse) := by
  intro d
  induction d with
  | zero =>
    intro i r hi _ fuel hfuel
    obtain ⟨fuel, rfl⟩ : ∃ m, fuel = m + 1 := ⟨fuel - 1, by omega⟩
    rw [List.take_zero, List.reverse_nil, RangeResult.append_nil]
    refine repeatUntil_exit (if_neg ?_)
    rw [UInt64.lt_iff_toNat_lt]
    omega
  | succ d ih =>
    intro i r hi hin fuel hfuel
    obtain ⟨fuel, rfl⟩ : ∃ m, fuel = m + 1 := ⟨fuel - 1, by omega⟩
    have hone : (1 : UInt64) ≤ i := by
      rw [UInt64.le_iff_toNat_le]
      exact Nat.succ_le_of_lt (by omega)
    have hprev : (i - 1).toNat = start.toNat + d := by
      rw [UInt64.toNat_sub_of_le _ _ hone, hi]
      rfl
    have hget : start.toNat + d < (ns.map Entry.ptr).length := by rw [List.length_map]; omega
    have hat : (ns.map Entry.ptr)[(i - 1).toNat]? = some (ns.map Entry.ptr)[start.toNat + d] := by
      rw [hprev, List.getElem?_eq_getElem hget]
    have hpush := pushRank_spec hr hat r (show ns.length < fuel by omega)
    rw [List.take_add_one, List.getElem?_drop, List.getElem?_eq_getElem hget, List.reverse_append,
      Option.toList_some, List.reverse_singleton, List.singleton_append, ← RangeResult.push_append,
      ← ih (i - 1) _ hprev (by omega) fuel (by omega)]
    refine repeatUntil_again ?_
    have hlt : start < i := by rw [UInt64.lt_iff_toNat_lt]; omega
    simp only [hlt, if_true, hpush, Option.bind_eq_bind, Option.bind_some]

/-- The positions `a..min(b, length - 1)` of a list. -/
def rankSlice {α : Type} (a b : Nat) (l : List α) : List α :=
  if b < a ∨ l.length ≤ a then [] else (l.drop a).take (min b (l.length - 1) + 1 - a)

theorem rangeByRank_spec (hr : Rep sl ns) (start end_ : UInt64) (reverse : Bool) {fuel : Nat}
    (hfuel : ns.length + ns.length < fuel) :
    rangeByRank start end_ reverse sl fuel = some (RangeResult.empty.append
      (if reverse then (rankSlice start.toNat end_.toNat (ns.map Entry.ptr)).reverse
        else rankSlice start.toNat end_.toNat (ns.map Entry.ptr))) := by
  have hlt := hr.length_lt
  have hlen := hr.length_toNat
  have hguard : (end_ < start ∨ sl.length ≤ start) ↔
      (end_.toNat < start.toNat ∨ ns.length ≤ start.toNat) := by
    rw [UInt64.lt_iff_toNat_lt, UInt64.le_iff_toNat_le, hlen]
  rw [rangeByRank, rankSlice, List.length_map]
  by_cases hout : end_.toNat < start.toNat ∨ ns.length ≤ start.toNat
  · rw [if_pos (hguard.mpr hout), if_pos hout]
    cases reverse <;> rfl
  rw [if_neg (hguard.not.mpr hout), if_neg hout]
  obtain ⟨hab, han⟩ := not_or.mp hout
  have hlast : (if sl.length ≤ end_ then sl.length - 1 else end_).toNat =
      min end_.toNat (ns.length - 1) := hr.last_toNat end_ (by omega)
  cases reverse with
  | false => exact rankUp_spec hr (by omega) _ start .empty (by omega) fuel (by omega)
  | true =>
    refine rankDown_spec hr start _ _ .empty ?_ ?_ fuel (by omega) <;>
      rw [UInt64.toNat_add, hlast, show (1 : UInt64).toNat = 1 from rfl, Nat.mod_eq_of_lt (by omega)]
    · omega
    · omega

/-! ## Scores -/

section Scores

variable [LinearOrder S] {cmp : Comparable T} {D : List (Entry S T)}

/-- `_is_in_range` looks at the two ends only: it may say yes where there
is a gap, but never no where there is a node. -/
theorem isInRange_spec {lo up : S} (hr : Rep sl (A ++ (D ++ B))) (hcut : ScoreCut lo up A D B) :
    (isInRange lo up sl = some false ∧ D = []) ∨
      (isInRange lo up sl = some true ∧ lo ≤ up ∧ A ++ D ≠ [] ∧ D ++ B ≠ []) := by
  by_cases hlu : up < lo
  · refine .inl ⟨if_pos hlu, List.eq_nil_iff_forall_not_mem.mpr fun e he => ?_⟩
    exact not_le.mpr hlu ((hcut.within e he).1.trans (hcut.within e he).2)
  by_cases hnil : A ++ (D ++ B) = []
  · have htail : sl.tail = null := by rw [hr.tail, if_pos hnil]
    refine .inl ⟨by rw [isInRange, if_neg hlu, if_pos htail], ?_⟩
    simp only [List.append_eq_nil_iff] at hnil
    exact hnil.2.1
  -- otherwise there are a last node `e` and a first one `f`
  obtain ⟨e, hlast⟩ : ∃ e, (A ++ (D ++ B)).getLast? = some e :=
    ⟨_, List.getLast?_eq_some_getLast hnil⟩
  obtain ⟨f, hfirst⟩ : ∃ f, (A ++ (D ++ B)).head? = some f := ⟨_, List.head?_eq_some_head hnil⟩
  have hget := hlast
  rw [List.getLast?_eq_getElem?] at hget
  have hget0 := hfirst
  rw [List.head?_eq_getElem?] at hget0
  have hpos : 0 < (A ++ (D ++ B)).length := List.length_pos_iff.mpr hnil
  have htail : sl.tail = e.ptr := by
    rw [hr.tail, if_neg hnil, ← ptrAt_of_get sl.header hget, Nat.sub_add_cancel hpos]
  obtain ⟨t, ht, hts, -⟩ := hr.deref_node hget
  obtain ⟨n, hn, hns, -⟩ := hr.deref_node hget0
  have hforward := hr.forward_zero (Nat.zero_le _)
  rw [ptrAt_of_get sl.header hget0] at hforward
  have hcode : isInRange lo up sl = some (!decide (e.score < lo) && !decide (up < f.score)) := by
    rw [isInRange, if_neg hlu, htail, if_neg (ne_null_of_info (hr.node _ e hget)), ht]
    simp only [Option.bind_eq_bind, Option.bind_some, hts]
    by_cases hlow : e.score < lo
    · simp [hlow]
    · rw [if_neg hlow, show sl.header = ptrAt sl.header (A ++ (D ++ B)) 0 from rfl, hforward,
        Option.bind_some, if_neg (ne_null_of_info (hr.node _ f hget0)), hn]
      by_cases hhigh : up < f.score <;> simp [hlow, hhigh, hns]
  rw [List.getLast?_append] at hlast
  rw [← List.append_assoc, List.head?_append] at hfirst
  have hend : e.score < lo ↔ D ++ B = [] := by
    constructor
    · intro hlow
      by_contra hne
      rw [List.getLast?_eq_some_getLast hne, Option.some_or, Option.some.injEq] at hlast
      exact not_lt.mpr (hcut.le_of_mem _ (hlast ▸ List.getLast_mem hne)) hlow
    · intro hempty
      rw [hempty, List.getLast?_nil, Option.none_or] at hlast
      exact hcut.below e (List.mem_of_getLast? hlast)
  have hstart : up < f.score ↔ A ++ D = [] := by
    constructor
    · intro hhigh
      by_contra hne
      rw [List.head?_eq_some_head hne, Option.some_or, Option.some.injEq] at hfirst
      rcases List.mem_append.mp (hfirst ▸ List.head_mem hne) with hf | hf
      · exact hlu (hhigh.trans (hcut.below f hf))
      · exact not_lt.mpr (hcut.within f hf).2 hhigh
    · intro hempty
      rw [hempty, List.head?_nil, Option.none_or] at hfirst
      exact (hcut.above f (List.mem_of_mem_head? hfirst)).2
  rw [hcode]
  by_cases hlow : e.score < lo
  · exact .inl ⟨by simp [hlow], (List.append_eq_nil_iff.mp (hend.mp hlow)).1⟩
  · by_cases hhigh : up < f.score
    · exact .inl ⟨by simp [hhigh], (List.append_eq_nil_iff.mp (hstart.mp hhigh)).2⟩
    · exact .inr ⟨by simp [hlow, hhigh], not_lt.mp hlu, hstart.not.mp hhigh, hend.not.mp hlow⟩

theorem firstInRange_spec {lo up : S} (hr : Rep sl (A ++ (D ++ B))) (hcut : ScoreCut lo up A D B)
    {fuel : Nat} (hfuel : A.length < fuel) :
    firstInRange lo up sl fuel = some (((D.map Entry.ptr).head?).getD null) := by
  rcases isInRange_spec hr hcut with ⟨hin, rfl⟩ | ⟨hin, -, -, hne⟩
  · rw [firstInRange, hin]
    rfl
  have hseek := seek_test hr (goScore sl.heap lo)
    (fun i acc x j h0 hj => go_of_test hr (fun e => decide (e.1 < lo))
      (fun e he => decide_eq_true (hcut.below e he))
      (fun e he => decide_eq_false (not_lt.mpr (hcut.le_of_mem e he))) h0 hj) hfuel
  rw [firstInRange, hin]
  simp only [Option.bind_eq_bind, Option.bind_some, if_true, hseek,
    hr.forward_zero (cut_le A (D ++ B))]
  cases D with
  | nil =>
    -- the gap: the next node lies above the range
    cases B with
    | nil => exact absurd rfl hne
    | cons b B =>
      have hget := row_getElem_mid A B b
      obtain ⟨n, hn, hns, -⟩ := hr.deref_node hget
      rw [List.nil_append, ptrAt_mid, if_neg (ne_null_of_info (hr.node _ b hget)), hn]
      simp [hns, (hcut.above b List.mem_cons_self).2]
  | cons d D =>
    have hget := row_getElem_mid A (D ++ B) d
    obtain ⟨n, hn, hns, -⟩ := hr.deref_node hget
    rw [List.cons_append, ptrAt_mid, if_neg (ne_null_of_info (hr.node _ d hget)), hn]
    simp [hns, not_lt.mpr (hcut.within d List.mem_cons_self).2]

/-- The search of `last_in_range` never stops on the header: a node that
does not score more than `up` is there. -/
theorem lastInRange_spec {lo up : S} (hr : Rep sl (A ++ (D ++ B))) (hcut : ScoreCut lo up A D B)
    {fuel : Nat} (hfuel : (A ++ D).length < fuel) :
    lastInRange lo up sl fuel = some (((D.map Entry.ptr).getLast?).getD null) := by
  rcases isInRange_spec hr hcut with ⟨hin, rfl⟩ | ⟨hin, hlu, hne, -⟩
  · rw [lastInRange, hin]
    rfl
  rw [← List.append_assoc] at hr
  have hle : ∀ e ∈ A ++ D, e.score ≤ up := by
    intro e he
    rcases List.mem_append.mp he with he | he
    · exact (hcut.below e he).le.trans hlu
    · exact (hcut.within e he).2
  have hseek := seek_test hr (goUpTo sl.heap up)
    (fun i acc x j h0 hj => go_of_test hr (fun e => decide (e.1 ≤ up))
      (fun e he => decide_eq_true (hle e he))
      (fun e he => decide_eq_false (not_le.mpr (hcut.above e he).2)) h0 hj) hfuel
  have hpos : 0 < (A ++ D).length := List.length_pos_iff.mpr hne
  obtain ⟨e, hlast⟩ : ∃ e, (A ++ D).getLast? = some e := ⟨_, List.getLast?_eq_some_getLast hne⟩
  have hget : (A ++ D ++ B)[(A ++ D).length - 1]? = some e := by
    rw [List.getElem?_append_left (by omega), ← List.getLast?_eq_getElem?, hlast]
  have hptr := ptrAt_of_get sl.header hget
  rw [Nat.sub_add_cancel hpos] at hptr
  obtain ⟨n, hn, hns, -⟩ := hr.deref_node hget
  rw [lastInRange, hin]
  simp only [Option.bind_eq_bind, Option.bind_some, if_true, hseek, hptr,
    ne_null_of_info (hr.node _ e hget), if_false, hn, hns]
  rw [List.getLast?_append] at hlast
  cases hD : D.getLast? with
  | none =>
    obtain rfl := List.getLast?_eq_none_iff.mp hD
    rw [hD, Option.none_or] at hlast
    rw [if_pos (hcut.below e (List.mem_of_getLast? hlast))]
    rfl
  | some d =>
    rw [hD, Option.some_or, Option.some.injEq] at hlast
    subst hlast
    rw [if_neg (not_lt.mpr (hcut.within d (List.mem_of_getLast? hD)).1), List.getLast?_map, hD]
    rfl

/-! The loops of `range_by_score`. -/

/-- From `x` on, the nodes in range are `ds`. -/
def Ahead (h : Heap S T) (up : S) : Ptr → List Ptr → Prop
  | x, [] => within h up x = some false
  | x, d :: ds => x = d ∧ within h up x = some true ∧
      ∃ y, forward h x 0 = some y ∧ Ahead h up y ds

theorem within_of_get (hr : Rep sl ns) (up : S) {k : Nat} {e : Entry S T} (hk : ns[k]? = some e) :
    within sl.heap up e.ptr = some (decide (e.score ≤ up)) := by
  obtain ⟨n, hn, hns, -⟩ := hr.deref_node hk
  rw [within, if_neg (ne_null_of_info (hr.node k e hk)), hn]
  simp [hns]

theorem Rep.ahead {up : S} (hr : Rep sl (A ++ (D ++ B))) (hD : ∀ e ∈ D, e.score ≤ up)
    (hB : ∀ e ∈ B, up < e.score) :
    Ahead sl.heap up (ptrAt sl.header (A ++ (D ++ B)) (A.length + 1)) (D.map Entry.ptr) := by
  induction D generalizing A with
  | nil =>
    cases B with
    | nil =>
      rw [List.map_nil, Ahead, ptrAt_past sl.header (by simp)]
      rfl
    | cons b B =>
      rw [List.map_nil, Ahead, List.nil_append, ptrAt_mid]
      exact (within_of_get hr up (row_getElem_mid A B b)).trans
        (congrArg some (decide_eq_false (not_le.mpr (hB b List.mem_cons_self))))
  | cons d D ih =>
    rw [List.cons_append] at hr ⊢
    have hnext := hr.forward_zero (show A.length + 1 ≤ (A ++ d :: (D ++ B)).length by simp)
    rw [ptrAt_mid] at hnext ⊢
    refine ⟨rfl, ?_, _, hnext, ?_⟩
    · exact (within_of_get hr up (row_getElem_mid A (D ++ B) d)).trans
        (congrArg some (decide_eq_true (hD d List.mem_cons_self)))
    · rw [List.append_cons] at hr ⊢
      have h := ih hr fun e he => hD e (List.mem_cons_of_mem d he)
      rwa [List.length_append, List.length_singleton] at h

/-- `n` nodes counted and not listed. -/
def RangeResult.count (r : RangeResult) (n : Nat) : RangeResult :=
  { r with totalInRange := r.totalInRange + UInt64.ofNat n }

theorem RangeResult.count_zero (r : RangeResult) : r.count 0 = r :=
  congrArg (RangeResult.mk r.nodes) (UInt64.add_zero _)

theorem RangeResult.count_succ (r : RangeResult) (n : Nat) :
    RangeResult.count { r with totalInRange := r.totalInRange + 1 } n = r.count (n + 1) :=
  congrArg (RangeResult.mk r.nodes) (ofNat_succ_add _ n)

/-- Skipping goes on to the end of the range or of the offset. -/
theorem skipLoop_spec {h : Heap S T} {up : S} {offset : UInt64} {ds : List Ptr} :
    ∀ {x : Ptr} (i : UInt64) (r : RangeResult) (n : Nat), Ahead h up x ds →
      i.toNat + n = offset.toNat →
      ∃ y, Ahead h up y (ds.drop n) ∧ ∀ fuel, ds.length < fuel →
        skipLoop h up offset fuel (i, x, r) = some (y, r.count (min n ds.length)) := by
  induction ds with
  | nil =>
    intro x i r n hx hn
    refine ⟨x, by rwa [List.drop_nil], fun fuel hfuel => ?_⟩
    obtain ⟨fuel, rfl⟩ : ∃ m, fuel = m + 1 := ⟨fuel - 1, by omega⟩
    rw [List.length_nil, Nat.min_zero, RangeResult.count_zero]
    refine repeatUntil_exit ?_
    rw [Ahead] at hx
    by_cases hgo : i < offset <;> simp [hgo, hx]
  | cons d ds ih =>
    intro x i r n hx hn
    cases n with
    | zero =>
      refine ⟨x, hx, fun fuel hfuel => ?_⟩
      obtain ⟨fuel, rfl⟩ : ∃ m, fuel = m + 1 := ⟨fuel - 1, by omega⟩
      rw [Nat.zero_min, RangeResult.count_zero]
      refine repeatUntil_exit (if_neg ?_)
      rw [UInt64.lt_iff_toNat_lt]
      omega
    | succ n =>
      obtain ⟨-, hin, y, hy, hrest⟩ := hx
      have hlt := offset.toNat_lt
      have hnext : (i + 1).toNat = i.toNat + 1 := by
        rw [UInt64.toNat_add]
        exact Nat.mod_eq_of_lt (by rw [show (1 : UInt64).toNat = 1 from rfl]; omega)
      obtain ⟨z, hz, hrun⟩ := ih (i + 1) { r with totalInRange := r.totalInRange + 1 } n hrest
        (by omega)
      refine ⟨z, hz, fun fuel hfuel => ?_⟩
      rw [List.length_cons] at hfuel
      obtain ⟨fuel, rfl⟩ : ∃ m, fuel = m + 1 := ⟨fuel - 1, by omega⟩
      rw [List.length_cons, Nat.succ_min_succ, ← RangeResult.count_succ, ← hrun fuel (by omega)]
      refine repeatUntil_again ?_
      have hgo : i < offset := by rw [UInt64.lt_iff_toNat_lt]; omega
      simp only [hgo, if_true, hin, hy, Option.bind_eq_bind, Option.bind_some]

/-- `n` more of the nodes `ds` may be collected. -/
def Room (limit collected : Int64) (n : Nat) (ds : List Ptr) : Prop :=
  (limit = -1 ∧ ds.length ≤ n) ∨ (0 ≤ collected.toInt ∧ collected.toInt + n = limit.toInt)

theorem Room.zero {limit collected : Int64} {d : Ptr} {ds : List Ptr}
    (h : Room limit collected 0 (d :: ds)) : ¬ (limit = -1 ∨ collected < limit) := by
  rcases h with ⟨-, hlen⟩ | ⟨hpos, heq⟩
  · simp at hlen
  · rintro (rfl | hlt)
    · rw [show ((-1 : Int64)).toInt = -1 from rfl] at heq
      omega
    · rw [Int64.lt_iff_toInt_lt] at hlt
      omega

theorem Room.succ {limit collected : Int64} {n : Nat} {d : Ptr} {ds : List Ptr}
    (h : Room limit collected (n + 1) (d :: ds)) :
    (limit = -1 ∨ collected < limit) ∧ Room limit (collected + 1) n ds := by
  rcases h with ⟨rfl, hlen⟩ | ⟨hpos, heq⟩
  · exact ⟨.inl rfl, .inl ⟨rfl, by simpa using hlen⟩⟩
  · have hmax := limit.toInt_lt
    have hnext : (collected + 1).toInt = collected.toInt + 1 := by
      rw [Int64.toInt_add, show (1 : Int64).toInt = 1 from rfl]
      exact Int.bmod_eq_of_le (by omega) (by omega)
    refine ⟨.inr ?_, .inr ⟨by omega, by omega⟩⟩
    rw [Int64.lt_iff_toInt_lt]
    omega

/-- Collecting goes on to the end of the range or of the limit. -/
theorem collectLoop_spec {h : Heap S T} {up : S} {limit : Int64} {ds : List Ptr} :
    ∀ {x : Ptr} (collected : Int64) (r : RangeResult) (n : Nat), Ahead h up x ds →
      Room limit collected n ds →
      ∃ y, Ahead h up y (ds.drop n) ∧ ∀ fuel, ds.length < fuel →
        collectLoop h up limit fuel (collected, x, r) = some (y, r.append (ds.take n)) := by
  induction ds with
  | nil =>
    intro x collected r n hx _
    refine ⟨x, by rwa [List.drop_nil], fun fuel hfuel => ?_⟩
    obtain ⟨fuel, rfl⟩ : ∃ m, fuel = m + 1 := ⟨fuel - 1, by omega⟩
    rw [List.take_nil, RangeResult.append_nil]
    refine repeatUntil_exit ?_
    rw [Ahead] at hx
    simp [hx]
  | cons d ds ih =>
    intro x collected r n hx hroom
    cases n with
    | zero =>
      refine ⟨x, hx, fun fuel hfuel => ?_⟩
      obtain ⟨fuel, rfl⟩ : ∃ m, fuel = m + 1 := ⟨fuel - 1, by omega⟩
      rw [List.take_zero, RangeResult.append_nil]
      refine repeatUntil_exit ?_
      simp only [hx.2.1, Option.bind_eq_bind, Option.bind_some, if_true, if_neg hroom.zero]
    | succ n =>
      obtain ⟨rfl, hin, y, hy, hrest⟩ := hx
      obtain ⟨hgo, hroom'⟩ := hroom.succ
      obtain ⟨z, hz, hrun⟩ := ih (collected + 1) (r.push x) n hrest hroom'
      refine ⟨z, hz, fun fuel hfuel => ?_⟩
      rw [List.length_cons] at hfuel
      obtain ⟨fuel, rfl⟩ : ∃ m, fuel = m + 1 := ⟨fuel - 1, by omega⟩
      rw [List.take_succ_cons, ← RangeResult.push_append, ← hrun fuel (by omega)]
      refine repeatUntil_again ?_
      simp only [hin, if_true, hgo, hy, Option.bind_eq_bind, Option.bind_some]

theorem countLoop_spec {h : Heap S T} {up : S} {ds : List Ptr} :
    ∀ {x : Ptr} (r : RangeResult), Ahead h up x ds → ∀ fuel, ds.length < fuel →
      countLoop h up fuel (x, r) = some (r.count ds.length) := by
  induction ds with
  | nil =>
    intro x r hx fuel hfuel
    obtain ⟨fuel, rfl⟩ : ∃ m, fuel = m + 1 := ⟨fuel - 1, by omega⟩
    rw [List.length_nil, RangeResult.count_zero]
    refine repeatUntil_exit ?_
    rw [Ahead] at hx
    simp [hx]
  | cons d ds ih =>
    intro x r hx fuel hfuel
    obtain ⟨-, hin, y, hy, hrest⟩ := hx
    rw [List.length_cons] at hfuel
    obtain ⟨fuel, rfl⟩ : ∃ m, fuel = m + 1 := ⟨fuel - 1, by omega⟩
    rw [List.length_cons, ← RangeResult.count_succ, ← ih _ hrest fuel (by omega)]
    refine repeatUntil_again ?_
    simp only [hin, if_true, hy, Option.bind_eq_bind, Option.bind_some]

/-- What `limit` lets through. -/
def limited (limit : Int64) (l : List Ptr) : List Ptr :=
  if limit = -1 then l else l.take limit.toInt.toNat

theorem rangeByScore_spec {lo up : S} (hr : Rep sl (A ++ (D ++ B))) (hcut : ScoreCut lo up A D B)
    (offset : UInt64) {limit : Int64} (hlimit : limit = -1 ∨ 0 ≤ limit) {fuel : Nat}
    (hfuel : (A ++ D).length < fuel) :
    rangeByScore lo up offset limit sl fuel = some
      ⟨limited limit ((D.map Entry.ptr).drop offset.toNat), UInt64.ofNat D.length⟩ := by
  rw [List.length_append] at hfuel
  rw [rangeByScore, firstInRange_spec hr hcut (by omega)]
  simp only [Option.bind_eq_bind, Option.bind_some]
  cases D with
  | nil => simp [limited, RangeResult.empty]
  | cons d D =>
    have hahead := hr.ahead (fun e he => (hcut.within e he).2) fun e he => (hcut.above e he).2
    rw [List.cons_append, ptrAt_mid] at hahead
    have hne := ne_null_of_info (hr.node _ d (row_getElem_mid A (D ++ B) d))
    set ds := (d :: D).map Entry.ptr with hds
    have hlen : ds.length = (d :: D).length := List.length_map _
    have hhead : (ds.head?).getD null = d.ptr := rfl
    rw [hhead, if_neg hne]
    obtain ⟨y, hy, hskip⟩ := skipLoop_spec 0 .empty offset.toNat hahead
      (show (0 : UInt64).toNat + offset.toNat = offset.toNat from Nat.zero_add _)
    obtain ⟨n, hroom, htake⟩ : ∃ n, Room limit 0 n (ds.drop offset.toNat) ∧
        (ds.drop offset.toNat).take n = limited limit (ds.drop offset.toNat) := by
      by_cases hall : limit = -1
      · exact ⟨_, .inl ⟨hall, le_rfl⟩, by rw [limited, if_pos hall, List.take_length]⟩
      · have hpos := hlimit.resolve_left hall
        rw [Int64.le_iff_toInt_le, show (0 : Int64).toInt = 0 from rfl] at hpos
        refine ⟨limit.toInt.toNat, .inr ⟨le_rfl, ?_⟩, by rw [limited, if_neg hall]⟩
        rw [show (0 : Int64).toInt = 0 from rfl]
        omega
    obtain ⟨z, hz, hcollect⟩ := collectLoop_spec 0 (RangeResult.empty.count (min offset.toNat ds.length))
      n hy hroom
    have hdrop : (ds.drop offset.toNat).length ≤ ds.length := by rw [List.length_drop]; omega
    have hdrop' : ((ds.drop offset.toNat).drop n).length ≤ ds.length := by
      rw [List.length_drop]
      omega
    simp only [hskip fuel (by omega), hcollect fuel (by omega), Option.bind_some]
    rw [countLoop_spec _ hz fuel (by omega), ← htake]
    simp only [RangeResult.count, RangeResult.append, RangeResult.empty, List.nil_append,
      UInt64.zero_add, ← UInt64.ofNat_add, List.length_take, List.length_drop]
    refine congrArg (fun k => some (RangeResult.mk _ (UInt64.ofNat k))) ?_
    omega

end Scores

/-! ## After any run -/

section Runs

/-- The nodes of a level-0 list whose entries pass a test. -/
def nodesWhere (test : S × T → Bool) (ps : List Ptr) (l : List (S × T)) : List Ptr :=
  ((ps.zip l).filter fun e => test e.2).map Prod.fst

theorem nodesWhere_row (test : S × T → Bool) (ns : List (Entry S T)) :
    nodesWhere test (ns.map Entry.ptr) (keys ns) =
      (ns.filter fun e => test e.key).map Entry.ptr := by
  rw [nodesWhere, keys, List.zip_map', List.filter_map, List.map_map]
  rfl

theorem nodesWhere_cut {test : S × T → Bool} {D : List (Entry S T)}
    (h : (∀ e ∈ A, test e.key = false) ∧ (∀ e ∈ D, test e.key = true) ∧
      ∀ e ∈ B, test e.key = false) :
    nodesWhere test ((A ++ (D ++ B)).map Entry.ptr) (keys (A ++ (D ++ B))) = D.map Entry.ptr := by
  obtain ⟨hA, hD, hB⟩ := h
  rw [nodesWhere_row, List.filter_append, List.filter_append, List.filter_eq_self.mpr hD,
    List.filter_eq_nil_iff.mpr fun e he => by simp [hA e he],
    List.filter_eq_nil_iff.mpr fun e he => by simp [hB e he], List.append_nil]
  rfl

variable [LinearOrder S] [Zero S] [Inhabited T]

/-- **Rank queries.** After any run, `get_element_by_rank` finds the node
at a position of the level-0 list and `range_by_rank` a slice of it, in
either direction. -/
theorem run_rank_queries (cmp : Comparable T) {addr : Ptr} (haddr : addr ≠ null) :
    ∃ sl₀ : Skiplist S T, new addr = some sl₀ ∧ ∀ steps sl, Run cmp sl₀ steps sl →
      ∃ ps l, Contents sl ps l ∧
        (∀ r, Returns (getElementByRank r sl) ((ps[r.toNat]?).getD null)) ∧
        ∀ start end_ reverse, ∃ res, Returns (rangeByRank start end_ reverse sl) res ∧
          res.nodes = (if reverse then (rankSlice start.toNat end_.toNat ps).reverse
            else rankSlice start.toNat end_.toNat ps) ∧
          res.totalInRange.toNat = (rankSlice start.toNat end_.toNat ps).length := by
  obtain ⟨sl₀, hnew, hi₀⟩ := new_spec (S := S) cmp haddr
  refine ⟨sl₀, hnew, fun steps sl hrun => ?_⟩
  obtain ⟨ns, hi⟩ := run_inv hrun hi₀
  have hr := hi.rep
  refine ⟨_, _, hr.contents, fun r => ⟨ns.length + 1, fun fuel hfuel => ?_⟩,
    fun start end_ reverse => ⟨_, ⟨ns.length + ns.length + 1, fun fuel hfuel =>
      rangeByRank_spec hr start end_ reverse hfuel⟩, ?_, ?_⟩⟩
  · exact getElementByRank_spec hr r hfuel
  · rw [RangeResult.append, RangeResult.empty, List.nil_append]
  · have hlt := hr.length_lt
    have hle : (rankSlice start.toNat end_.toNat (ns.map Entry.ptr)).length ≤ ns.length := by
      rw [rankSlice]
      split
      · exact Nat.zero_le _
      · rw [List.length_take, List.length_drop, List.length_map]
        omega
    simp only [RangeResult.append, RangeResult.empty, UInt64.zero_add]
    cases reverse with
    | false => exact toNat_ofNat_of_lt (Nat.lt_of_le_of_lt hle hlt)
    | true =>
      rw [if_pos rfl, List.length_reverse]
      exact toNat_ofNat_of_lt (Nat.lt_of_le_of_lt hle hlt)

theorem run_rank_queries_int_nat :
    ∃ sl₀ : Skiplist ℤ ℕ, new 1 = some sl₀ ∧ ∀ steps sl, Run natLess sl₀ steps sl →
      ∃ ps l, Contents sl ps l ∧
        (∀ r, Returns (getElementByRank r sl) ((ps[r.toNat]?).getD null)) ∧
        ∀ start end_ reverse, ∃ res, Returns (rangeByRank start end_ reverse sl) res ∧
          res.nodes = (if reverse then (rankSlice start.toNat end_.toNat ps).reverse
            else rankSlice start.toNat end_.toNat ps) ∧
          res.totalInRange.toNat = (rankSlice start.toNat end_.toNat ps).length :=
  run_rank_queries natLess (by decide)

/-- **Score queries.** After any run, with `R` the nodes whose scores lie
in the range, `first_in_range` and `last_in_range` are its ends and
`range_by_score` lists `R` behind the offset and up to the limit and
counts all of it. Scores and bounds are in one order, so a NaN is none. -/
theorem run_score_queries (cmp : Comparable T) {addr : Ptr} (haddr : addr ≠ null) :
    ∃ sl₀ : Skiplist S T, new addr = some sl₀ ∧ ∀ steps sl, Run cmp sl₀ steps sl →
      ∃ ps l, Contents sl ps l ∧ ∀ lo up,
        Returns (firstInRange lo up sl) (((nodesWhere (inScores lo up) ps l).head?).getD null) ∧
        Returns (lastInRange lo up sl) (((nodesWhere (inScores lo up) ps l).getLast?).getD null) ∧
        ∀ offset limit, limit = -1 ∨ 0 ≤ limit →
          ∃ res, Returns (rangeByScore lo up offset limit sl) res ∧
            res.nodes = limited limit ((nodesWhere (inScores lo up) ps l).drop offset.toNat) ∧
            res.totalInRange.toNat = (nodesWhere (inScores lo up) ps l).length := by
  obtain ⟨sl₀, hnew, hi₀⟩ := new_spec (S := S) cmp haddr
  refine ⟨sl₀, hnew, fun steps sl hrun => ?_⟩
  obtain ⟨ns, hi⟩ := run_inv hrun hi₀
  refine ⟨_, _, hi.rep.contents, fun lo up => ?_⟩
  obtain ⟨A, D, B, rfl, hcut⟩ := hi.exists_scoreCut lo up
  have hr := hi.rep
  have hlt := hr.length_lt
  rw [List.length_append, List.length_append] at hlt
  rw [nodesWhere_cut hcut.inScores]
  refine ⟨⟨A.length + 1, fun fuel hfuel => firstInRange_spec hr hcut hfuel⟩,
    ⟨(A ++ D).length + 1, fun fuel hfuel => lastInRange_spec hr hcut hfuel⟩,
    fun offset limit hlimit => ⟨_, ⟨(A ++ D).length + 1, fun fuel hfuel =>
      rangeByScore_spec hr hcut offset hlimit hfuel⟩, rfl, ?_⟩⟩
  rw [List.length_map]
  exact toNat_ofNat_of_lt (by omega)

theorem run_score_queries_int_nat :
    ∃ sl₀ : Skiplist ℤ ℕ, new 1 = some sl₀ ∧ ∀ steps sl, Run natLess sl₀ steps sl →
      ∃ ps l, Contents sl ps l ∧ ∀ lo up,
        Returns (firstInRange lo up sl) (((nodesWhere (inScores lo up) ps l).head?).getD null) ∧
        Returns (lastInRange lo up sl) (((nodesWhere (inScores lo up) ps l).getLast?).getD null) ∧
        ∀ offset limit, limit = -1 ∨ 0 ≤ limit →
          ∃ res, Returns (rangeByScore lo up offset limit sl) res ∧
            res.nodes = limited limit ((nodesWhere (inScores lo up) ps l).drop offset.toNat) ∧
            res.totalInRange.toNat = (nodesWhere (inScores lo up) ps l).length :=
  run_score_queries natLess (by decide)

end Runs

end HighJump.Algo.Skip
