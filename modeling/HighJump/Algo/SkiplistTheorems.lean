/-
HighJump.Algo.SkiplistTheorems — every operation keeps the representation
and does to the row of nodes what the sorted list prescribes.

Each search is an instance of `descend_spec`: its test separates the
nodes before the place from the rest, by order for a sorted row and by
counting for a rank, whatever the towers look like. `exec_spec` is the
step lemma, for any draw; runs follow by induction.
-/
import HighJump.Algo.SkiplistDelete
import HighJump.Algo.SkiplistSpec
import Mathlib.Data.List.Perm.Subperm

namespace HighJump.Algo.Skip

open HighJump.Lib HighJump.Lib.Towers

variable {S T : Type} {sl : Skiplist S T} {A B ns : List (Entry S T)}

def Entry.key (e : Entry S T) : S × T := (e.score, e.obj)

/-! ## The searches -/

theorem Rep.deref_node (hr : Rep sl ns) {k : Nat} {e : Entry S T} (hk : ns[k]? = some e) :
    ∃ n, deref sl.heap e.ptr = some n ∧ n.score = e.score ∧ n.obj = e.obj := by
  obtain ⟨n, hn, heq⟩ := deref_of_info (hr.node k e hk)
  rw [Info.mk.injEq] at heq
  exact ⟨n, hn, heq.1.symm, heq.2.1.symm⟩

/-- The test of a search by order, at a node of the row. -/
theorem go_of_test (hr : Rep sl (A ++ B)) (test : S × T → Bool) (hA : ∀ e ∈ A, test e.key = true)
    (hB : ∀ e ∈ B, test e.key = false) {j : Nat} (h0 : 0 < j) (hj : j ≤ (A ++ B).length) :
    (do let n ← deref sl.heap (ptrAt sl.header (A ++ B) j)
        some (test (n.score, n.obj))) = some (decide (j ≤ A.length)) := by
  obtain ⟨j, rfl⟩ : ∃ m, j = m + 1 := ⟨j - 1, by omega⟩
  have hget : (A ++ B)[j]? = some (A ++ B)[j] := List.getElem?_eq_getElem hj
  obtain ⟨n, hn, hs, ho⟩ := hr.deref_node hget
  rw [ptrAt_of_get sl.header hget, hn]
  simp only [Option.bind_eq_bind, Option.bind_some, Option.some.injEq, hs, ho]
  by_cases hjA : j < A.length
  · have hmem : (A ++ B)[j] ∈ A := by
      rw [List.getElem_append_left hjA]
      exact List.getElem_mem hjA
    rw [decide_eq_true (by omega : j + 1 ≤ A.length)]
    exact hA _ hmem
  · have hmem : (A ++ B)[j] ∈ B := by
      rw [List.getElem_append_right (by omega)]
      exact List.getElem_mem _
    rw [decide_eq_false (by omega : ¬ j + 1 ≤ A.length)]
    exact hB _ hmem

/-- Counting the spans on the way counts positions. -/
theorem count_rank (hr : Rep sl ns) {i k j : Nat} {acc : UInt64} (hi : i < sl.level)
    (ht : i < heightAt ns k) (hj : Next (heightAt ns) ns.length i k j) (hjn : j ≤ ns.length)
    (hA : IsRank k acc) :
    countSpan sl.heap i acc (ptrAt sl.header ns k) = some (UInt64.ofNat j) := by
  have hlt := hj.lt
  obtain rfl : acc = UInt64.ofNat k := hA
  rw [countSpan, hr.span i hi k j (by omega) ht hj, Nat.min_eq_left hjn]
  simp only [Option.bind_eq_bind, Option.bind_some]
  rw [← UInt64.ofNat_add, show k + (j - k) = j by omega]

theorem toNat_ofNat_of_lt {n : Nat} (h : n < 2 ^ 64) : (UInt64.ofNat n).toNat = n := by
  rw [UInt64.toNat_ofNat']
  exact Nat.mod_eq_of_lt h

/-- A row has fewer nodes than there are addresses. -/
theorem Rep.length_lt (hr : Rep sl ns) : ns.length < 2 ^ 64 := by
  have hnd : ((sl.header :: ns.map Entry.ptr).map UInt64.toNat).Nodup :=
    hr.nodup.map fun a b h => UInt64.toNat_inj.mp h
  have hsub : (sl.header :: ns.map Entry.ptr).map UInt64.toNat ⊆ List.range (2 ^ 64) := by
    intro x hx
    obtain ⟨p, -, rfl⟩ := List.mem_map.mp hx
    exact List.mem_range.mpr p.toNat_lt
  have hlen := (hnd.subperm hsub).length_le
  rw [List.length_range, List.length_map, List.length_cons, List.length_map] at hlen
  omega

theorem Rep.length_toNat (hr : Rep sl ns) : sl.length.toNat = ns.length := by
  rw [hr.length, toNat_ofNat_of_lt hr.length_lt]

/-- `end >= size() ? size() - 1 : end`. -/
theorem Rep.last_toNat (hr : Rep sl ns) (end_ : UInt64) (hpos : 0 < ns.length) :
    (if sl.length ≤ end_ then sl.length - 1 else end_).toNat = min end_.toNat (ns.length - 1) := by
  have hlen := hr.length_toNat
  have hone : (1 : UInt64) ≤ sl.length := by
    rw [UInt64.le_iff_toNat_le, hlen]
    exact Nat.succ_le_of_lt hpos
  split <;> rename_i hle <;> rw [UInt64.le_iff_toNat_le, hlen] at hle
  · rw [UInt64.toNat_sub_of_le _ _ hone, hlen, show (1 : UInt64).toNat = 1 from rfl]
    omega
  · omega

theorem ofNat_succ_add (n : UInt64) (k : Nat) :
    n + 1 + UInt64.ofNat k = n + UInt64.ofNat (k + 1) := by
  rw [UInt64.ofNat_add, UInt64.add_assoc, UInt64.add_comm 1]
  rfl

/-! ## The operations -/

variable [LinearOrder S] {cmp : Comparable T}

/-- The entries a row holds. -/
def keys (ns : List (Entry S T)) : List (S × T) := ns.map Entry.key

/-- The skiplist represents a sorted row. -/
structure Inv (cmp : Comparable T) (sl : Skiplist S T) (ns : List (Entry S T)) : Prop where
  rep : Rep sl ns
  sorted : Sorted cmp (keys ns)

omit [LinearOrder S] in
/-- A row cut where a test on its keys changes. -/
theorem exists_cut (test : S × T → Bool) (ns : List (Entry S T))
    (h : (keys ns).Pairwise fun a b => test b = true → test a = true) :
    ∃ A B, ns = A ++ B ∧ keys A = (keys ns).takeWhile test ∧ keys B = (keys ns).dropWhile test ∧
      (∀ e ∈ A, test e.key = true) ∧ ∀ e ∈ B, test e.key = false := by
  have hA : keys (ns.takeWhile (test ∘ Entry.key)) = (keys ns).takeWhile test :=
    List.takeWhile_map.symm
  have hB : keys (ns.dropWhile (test ∘ Entry.key)) = (keys ns).dropWhile test :=
    List.dropWhile_map.symm
  refine ⟨_, _, List.takeWhile_append_dropWhile.symm, hA, hB, fun e he => ?_, fun e he => ?_⟩
  · have h := List.mem_takeWhile_imp he
    exact h
  · refine false_of_mem_dropWhile h e.key ?_
    rw [← hB]
    exact List.mem_map_of_mem he

theorem insert_spec (hi : Inv cmp sl ns) {draw : Draw} (hd : draw.Allowed sl) (score : S) (obj : T) :
    ∃ sl' A B, ns = A ++ B ∧ keys A = (keys ns).takeWhile (before cmp · (score, obj)) ∧
      Inv cmp sl' (A ++ ⟨draw.addr, score, obj, draw.height⟩ :: B) ∧
      keys (A ++ ⟨draw.addr, score, obj, draw.height⟩ :: B) = listInsert cmp (score, obj) (keys ns) ∧
      Returns (insert cmp score obj draw sl) (sl', draw.addr) := by
  obtain ⟨A, B, rfl, hkA, hkB, hA, hB⟩ := exists_cut (before cmp · (score, obj)) ns (hi.sorted.before_mono _)
  have hr := hi.rep
  have hsep : Separates sl (A ++ B) (goEntry sl.heap cmp score obj) (countSpan sl.heap) A.length
      IsRank := by
    refine ⟨fun i k j acc _ _ _ hj hjn _ => ?_, fun i k j acc hi _ ht hj hjc hacc => ?_⟩
    · exact go_of_test hr (before cmp · (score, obj)) hA hB (Nat.zero_lt_of_lt hj.lt) hjn
    · exact ⟨_, count_rank hr hi ht hj (hjc.trans (cut_le A B)) hacc, rfl⟩
  obtain ⟨acc, slots, -, hslots, hrun⟩ := descend_spec hr (cut_le A B) hsep (show IsRank 0 0 from rfl)
  obtain ⟨sl', hins, hrep⟩ := insertAt_spec hr hd hslots score obj
  have hkeys : keys (A ++ ⟨draw.addr, score, obj, draw.height⟩ :: B) =
      listInsert cmp (score, obj) (keys (A ++ B)) := by
    rw [listInsert, ← hkA, ← hkB]
    simp [keys, Entry.key]
  refine ⟨sl', A, B, rfl, hkA, ⟨hrep, ?_⟩, hkeys, A.length + 1, fun fuel hfuel => ?_⟩
  · rw [hkeys]
    exact sorted_listInsert hi.sorted _
  · rw [insert, hrun fuel hfuel]
    exact hins

omit [LinearOrder S] in
/-- A descent that only looks for a place. -/
theorem descend_test (hr : Rep sl (A ++ B)) (go : Nat → Unit → Ptr → Ptr → Option Bool)
    (hgo : ∀ i acc x j, 0 < j → j ≤ (A ++ B).length →
      go i acc x (ptrAt sl.header (A ++ B) j) = some (decide (j ≤ A.length))) :
    ∃ slots, UpdateOk sl.header A sl.level (Slots.update slots) ∧ ∀ fuel, A.length < fuel →
      descend sl.heap go countNone fuel sl.level (sl.header, ()) (fun _ => none) =
        some ((ptrAt sl.header (A ++ B) A.length, ()), slots) := by
  have hsep : Separates sl (A ++ B) go countNone A.length fun _ _ => True :=
    ⟨fun i k j acc _ _ _ hj hjn _ => hgo i acc _ j (Nat.zero_lt_of_lt hj.lt) hjn,
      fun _ _ _ _ _ _ _ _ _ _ => ⟨(), rfl, trivial⟩⟩
  obtain ⟨acc, slots, -, hslots, hrun⟩ := descend_spec hr (cut_le A B) hsep trivial
  exact ⟨slots, hslots.update, hrun⟩

omit [LinearOrder S] in
theorem keys_append (A B : List (Entry S T)) : keys (A ++ B) = keys A ++ keys B := by
  simp [keys]

theorem deleteNode_spec (hi : Inv cmp sl ns) (score : S) (obj : T) :
    ∃ sl' ns', Inv cmp sl' ns' ∧ keys ns' = listDelete cmp (score, obj) (keys ns) ∧
      ((keys ns).any (equivalent cmp · (score, obj)) = false → sl' = sl) ∧
      Returns (deleteNode cmp score obj sl)
        (sl', (keys ns).any (equivalent cmp · (score, obj))) := by
  obtain ⟨A, B, rfl, hkA, hkB, hA, hB⟩ := exists_cut (before cmp · (score, obj)) ns (hi.sorted.before_mono _)
  have hr := hi.rep
  obtain ⟨slots, hup, hrun⟩ := descend_test hr (goEntry sl.heap cmp score obj)
    fun i acc x j h0 hj => go_of_test hr (before cmp · (score, obj)) hA hB h0 hj
  have hnext := hr.forward_zero (cut_le A B)
  have hkeysA : ∀ a ∈ keys A, before cmp a (score, obj) = true := by
    intro a ha
    obtain ⟨e, he, rfl⟩ := List.mem_map.mp ha
    exact hA e he
  by_cases hhead : ∃ b B', B = b :: B' ∧ equivalent cmp b.key (score, obj) = true
  · -- the first entry not less is equivalent: it goes
    obtain ⟨b, B, rfl, hb⟩ := hhead
    obtain ⟨sl', hdel, hrep, -⟩ := deleteNodeInternal_spec hr hup
    have hget := row_getElem_mid A B b
    obtain ⟨n, hn, hs, ho⟩ := hr.deref_node hget
    obtain ⟨h1, h2, h3⟩ := equivalent_iff.mp hb
    have hkeys : keys (A ++ B) = listDelete cmp (score, obj) (keys (A ++ b :: B)) := by
      rw [keys_append, keys_append]
      exact (listDelete_of_equivalent hkeysA hb).symm
    have hany : (keys (A ++ b :: B)).any (equivalent cmp · (score, obj)) = true := by
      rw [List.any_eq_true]
      exact ⟨b.key, List.mem_map_of_mem (by simp), hb⟩
    refine ⟨sl', A ++ B, ⟨hrep, ?_⟩, hkeys, fun h => ?_, A.length + 1, fun fuel hfuel => ?_⟩
    · rw [hkeys]
      exact hi.sorted.sublist List.eraseP_sublist
    · rw [hany] at h
      cases h
    · rw [hany, deleteNode, hrun fuel hfuel]
      simp only [Option.bind_eq_bind, Option.bind_some, hnext, ptrAt_mid,
        (ne_null_of_info (hr.node _ b hget)), if_false, hn, hs, ho]
      rw [if_pos ⟨h1, h2, h3⟩, hdel]
      rfl
  · -- otherwise there is none
    have hnone : ∀ e ∈ keys A ++ keys B, equivalent cmp e (score, obj) = false := by
      refine not_equivalent_of_cut (keys_append A B ▸ hi.sorted) hkeysA (fun b hb => ?_)
        fun b hb => ?_
      · obtain ⟨e, he, rfl⟩ := List.mem_map.mp hb
        exact hB e he
      · cases B with
        | nil => cases hb
        | cons b' B =>
          obtain rfl := Option.some.inj hb
          by_contra hne
          exact hhead ⟨b', B, rfl, by simpa using hne⟩
    rw [← keys_append] at hnone
    have hany : (keys (A ++ B)).any (equivalent cmp · (score, obj)) = false := by
      rw [List.any_eq_false]
      exact fun e he => by simp [hnone e he]
    refine ⟨sl, A ++ B, hi, ?_, fun _ => rfl, A.length + 1, fun fuel hfuel => ?_⟩
    · exact (List.eraseP_of_forall_not fun e he => by simp [hnone e he]).symm
    · rw [hany, deleteNode, hrun fuel hfuel]
      simp only [Option.bind_eq_bind, Option.bind_some, hnext]
      cases B with
      | nil =>
        rw [ptrAt_past sl.header (by simp), if_pos rfl]
      | cons b B =>
        have hget := row_getElem_mid A B b
        obtain ⟨n, hn, hs, ho⟩ := hr.deref_node hget
        simp only [ptrAt_mid, (ne_null_of_info (hr.node _ b hget)), if_false, hn, hs, ho,
          Option.bind_some]
        rw [if_neg]
        exact fun h => hhead ⟨b, B, rfl, equivalent_iff.mpr h⟩

omit [LinearOrder S] in
/-- **The deleting loop** takes out, after `A`, the nodes `D` it is told
to go on with and stops before `B`. The induction is on `D`: the slots of
the cut after `A` serve for every one of its nodes. -/
theorem deleteWhile_spec {update : Nat → Option Ptr}
    (more : Heap S T → Ptr → UInt64 → Option Bool) (test : Entry S T → UInt64 → Bool)
    (hmore : ∀ (sl : Skiplist S T) e rest r, Rep sl (A ++ e :: rest) →
      more sl.heap e.ptr r = some (test e r)) :
    ∀ (D : List (Entry S T)) (sl : Skiplist S T) (r : UInt64), Rep sl (A ++ (D ++ B)) →
      UpdateOk sl.header A sl.level update →
      (∀ k e, D[k]? = some e → test e (r + UInt64.ofNat k) = true) →
      (∀ e ∈ B.head?, test e (r + UInt64.ofNat D.length) = false) →
      ∃ sl', Rep sl' (A ++ B) ∧ ∀ fuel, D.length < fuel →
        deleteWhile update more fuel (ptrAt sl.header (A ++ (D ++ B)) (A.length + 1), sl, r) =
          some (sl', r + UInt64.ofNat D.length) := by
  intro D
  induction D with
  | nil =>
    intro sl r hr _ _ hstop
    refine ⟨sl, hr, fun fuel hfuel => ?_⟩
    obtain ⟨fuel, rfl⟩ : ∃ m, fuel = m + 1 := ⟨fuel - 1, by omega⟩
    refine repeatUntil_exit ?_
    cases B with
    | nil => simp [ptrAt]
    | cons b B =>
      have hm := hmore sl b B r hr
      have hne := ne_null_of_info (hr.node _ b (row_getElem_mid A B b))
      have hfalse := hstop b rfl
      rw [List.length_nil] at hfalse ⊢
      simp only [List.nil_append, ptrAt_mid, hne, if_false, hm, Option.bind_eq_bind, Option.bind_some]
      rw [show r + UInt64.ofNat 0 = r from UInt64.add_zero r] at hfalse ⊢
      rw [hfalse]
      rfl
  | cons e D ih =>
    intro sl r hr hup hgo hstop
    rw [List.cons_append] at hr ⊢
    have htrue := hgo 0 e rfl
    rw [show r + UInt64.ofNat 0 = r from UInt64.add_zero r] at htrue
    have hm := hmore sl e (D ++ B) r hr
    have hne := ne_null_of_info (hr.node _ e (row_getElem_mid A (D ++ B) e))
    have hnext := hr.forward_zero (show A.length + 1 ≤ (A ++ e :: (D ++ B)).length by
      rw [length_row]
      have := cut_le A (D ++ B)
      omega)
    rw [ptrAt_mid, ptrAt_high sl.header A (D ++ B) e (by omega)] at hnext
    obtain ⟨sl1, hdel, hr1, hh1, hl1⟩ := deleteNodeInternal_spec hr hup
    obtain ⟨sl', hr', hrun⟩ := ih sl1 (r + 1) hr1
      (fun i hi => by rw [hh1]; exact hup i (Nat.lt_of_lt_of_le hi hl1))
      (fun k e' hk => by rw [ofNat_succ_add]; exact hgo (k + 1) e' hk)
      (fun b hb => by rw [ofNat_succ_add]; exact hstop b hb)
    refine ⟨sl', hr', fun fuel hfuel => ?_⟩
    obtain ⟨fuel, rfl⟩ : ∃ m, fuel = m + 1 := ⟨fuel - 1, by omega⟩
    rw [List.length_cons, ← ofNat_succ_add, ← hrun fuel (by rw [List.length_cons] at hfuel; omega), hh1]
    refine repeatUntil_again ?_
    simp only [ptrAt_mid, hne, if_false, hm, htrue, if_true, hnext, hdel,
      Option.bind_eq_bind, Option.bind_some]

theorem Inv.sublist (hi : Inv cmp sl ns) {sl' : Skiplist S T} {ns' : List (Entry S T)}
    (hr : Rep sl' ns') (hs : ns'.Sublist ns) : Inv cmp sl' ns' :=
  ⟨hr, hi.sorted.sublist (hs.map Entry.key)⟩

omit [LinearOrder S] in
theorem forall_keys {p : S × T → Bool} {b : Bool} (h : ∀ e ∈ ns, p e.key = b) :
    ∀ x ∈ keys ns, p x = b := by
  intro x hx
  obtain ⟨e, he, rfl⟩ := List.mem_map.mp hx
  exact h e he

/-- Below the range, in it, above it. -/
structure ScoreCut (lo up : S) (A D B : List (Entry S T)) : Prop where
  below : ∀ e ∈ A, e.score < lo
  within : ∀ e ∈ D, lo ≤ e.score ∧ e.score ≤ up
  above : ∀ e ∈ B, lo ≤ e.score ∧ up < e.score

theorem ScoreCut.le_of_mem {lo up : S} {A D B : List (Entry S T)} (h : ScoreCut lo up A D B) :
    ∀ e ∈ D ++ B, lo ≤ e.score := by
  intro e he
  rcases List.mem_append.mp he with he | he
  · exact (h.within e he).1
  · exact (h.above e he).1

theorem ScoreCut.inScores {lo up : S} {A D B : List (Entry S T)} (h : ScoreCut lo up A D B) :
    (∀ e ∈ A, inScores lo up e.key = false) ∧ (∀ e ∈ D, inScores lo up e.key = true) ∧
      ∀ e ∈ B, inScores lo up e.key = false := by
  refine ⟨fun e he => ?_, fun e he => ?_, fun e he => ?_⟩
  · simp [Skip.inScores, Entry.key, not_le.mpr (h.below e he)]
  · simp [Skip.inScores, Entry.key, (h.within e he).1, (h.within e he).2]
  · simp [Skip.inScores, Entry.key, not_le.mpr (h.above e he).2]

theorem Inv.exists_scoreCut (hi : Inv cmp sl ns) (lo up : S) :
    ∃ A D B, ns = A ++ (D ++ B) ∧ ScoreCut lo up A D B := by
  have hle := hi.sorted.score_le
  obtain ⟨A, C, rfl, -, -, hA, hC⟩ := exists_cut (fun e => decide (e.1 < lo)) ns
    (hle.imp fun {a b} hab hb => by simpa using lt_of_le_of_lt hab (of_decide_eq_true hb))
  rw [keys_append] at hle
  obtain ⟨D, B, rfl, -, -, hD, hB⟩ := exists_cut (fun e => decide (e.1 ≤ up)) C
    ((List.pairwise_append.mp hle).2.1.imp fun {a b} hab hb => by
      simpa using le_trans hab (of_decide_eq_true hb))
  refine ⟨A, D, B, rfl, fun e he => of_decide_eq_true (hA e he), fun e he => ⟨?_, ?_⟩,
    fun e he => ⟨?_, ?_⟩⟩
  · exact not_lt.mp (of_decide_eq_false (hC e (List.mem_append.mpr (.inl he))))
  · exact of_decide_eq_true (hD e he)
  · exact not_lt.mp (of_decide_eq_false (hC e (List.mem_append.mpr (.inr he))))
  · exact not_le.mp (of_decide_eq_false (hB e he))

theorem deleteRangeByScore_spec (hi : Inv cmp sl ns) (lo up : S) :
    ∃ sl' ns' n, Inv cmp sl' ns' ∧ keys ns' = listDeleteByScore lo up (keys ns) ∧
      n.toNat = (keys ns).countP (inScores lo up) ∧
      Returns (deleteRangeByScore lo up sl) (sl', n) := by
  obtain ⟨A, D, B, rfl, hcut⟩ := hi.exists_scoreCut lo up
  have hr := hi.rep
  obtain ⟨slots, hup, hrun⟩ := descend_test hr (goScore sl.heap lo)
    fun i acc x j h0 hj => go_of_test hr (fun e => decide (e.1 < lo))
      (fun e he => decide_eq_true (hcut.below e he))
      (fun e he => decide_eq_false (not_lt.mpr (hcut.le_of_mem e he))) h0 hj
  obtain ⟨sl', hr', hdel⟩ := deleteWhile_spec (moreScore up) (fun e _ => decide (e.score ≤ up))
    (fun sl e rest r hr => by
      obtain ⟨n, hn, hs, -⟩ := hr.deref_node (row_getElem_mid A rest e)
      simp [moreScore, hn, hs])
    D sl 0 hr hup
    (fun k e hk => decide_eq_true (hcut.within e (List.mem_of_getElem? hk)).2)
    (fun e he => decide_eq_false (not_le.mpr (hcut.above e (List.mem_of_mem_head? he)).2))
  obtain ⟨hA, hD, hB⟩ := hcut.inScores
  obtain ⟨hfilter, hcount⟩ := listDeleteByScore_of_cut lo up (forall_keys hA) (forall_keys hD)
    (forall_keys hB)
  rw [← keys_append, ← keys_append] at hfilter hcount
  have hsub : (A ++ B).Sublist (A ++ (D ++ B)) :=
    List.Sublist.append_left (List.sublist_append_right D B) A
  have hlt := hr.length_lt
  rw [List.length_append, List.length_append] at hlt
  refine ⟨sl', A ++ B, UInt64.ofNat D.length, hi.sublist hr' hsub, ?_, ?_, D.length + A.length + 1,
    fun fuel hfuel => ?_⟩
  · rw [hfilter, keys_append]
  · rw [hcount, toNat_ofNat_of_lt (by omega), keys, List.length_map]
  · rw [deleteRangeByScore, hrun fuel (by omega)]
    simp only [Option.bind_eq_bind, Option.bind_some, hr.forward_zero (cut_le A (D ++ B))]
    rw [hdel fuel (by omega), UInt64.zero_add]

omit [LinearOrder S] in
/-- A descent by rank. -/
theorem descend_rank (hr : Rep sl (A ++ B)) {start : UInt64} (hstart : start.toNat = A.length) :
    ∃ acc slots, UpdateOk sl.header A sl.level (Slots.update slots) ∧ ∀ fuel, A.length < fuel →
      descend sl.heap (goRank sl.heap start) (countSpan sl.heap) fuel sl.level (sl.header, 0)
        (fun _ => none) = some ((ptrAt sl.header (A ++ B) A.length, acc), slots) := by
  have hlt := hr.length_lt
  have hsep : Separates sl (A ++ B) (goRank sl.heap start) (countSpan sl.heap) A.length IsRank := by
    refine ⟨fun i k j acc hi _ ht hj hjn hacc => ?_, fun i k j acc hi _ ht hj hjc hacc => ?_⟩
    · have hcount := count_rank hr hi ht hj hjn hacc
      unfold countSpan at hcount
      obtain ⟨s, hs, hsum⟩ := Option.bind_eq_some_iff.mp hcount
      simp only [goRank, hs, Option.bind_eq_bind, Option.bind_some, Option.some.inj hsum,
        UInt64.le_iff_toNat_le, toNat_ofNat_of_lt (show j < 2 ^ 64 by omega), hstart]
    · exact ⟨_, count_rank hr hi ht hj (hjc.trans (cut_le A B)) hacc, rfl⟩
  obtain ⟨acc, slots, -, hslots, hrun⟩ := descend_spec hr (cut_le A B) hsep (show IsRank 0 0 from rfl)
  exact ⟨acc, slots, hslots.update, hrun⟩

theorem deleteRangeByRank_spec (hi : Inv cmp sl ns) (start end_ : UInt64) :
    ∃ sl' ns' n, Inv cmp sl' ns' ∧
      keys ns' = listDeleteByRank start.toNat end_.toNat (keys ns) ∧
      n.toNat = rankCount start.toNat end_.toNat (keys ns).length ∧
      Returns (deleteRangeByRank start end_ sl) (sl', n) := by
  have hr := hi.rep
  have hlt := hr.length_lt
  have hlenk : (keys ns).length = ns.length := List.length_map _
  have hlen := hr.length_toNat
  have hguard : (end_ < start ∨ sl.length ≤ start) ↔
      (end_.toNat < start.toNat ∨ ns.length ≤ start.toNat) := by
    rw [UInt64.lt_iff_toNat_lt, UInt64.le_iff_toNat_le, hlen]
  by_cases hout : end_.toNat < start.toNat ∨ ns.length ≤ start.toNat
  · refine ⟨sl, ns, 0, hi, ?_, ?_, 0, fun fuel _ => ?_⟩
    · rw [listDeleteByRank, hlenk, if_pos hout]
    · rw [rankCount, hlenk, if_pos hout]
      rfl
    · rw [deleteRangeByRank, if_pos (hguard.mpr hout)]
  -- the nodes before `start`, up to the last rank, and after it
  set a := start.toNat with ha
  set m := min end_.toNat (ns.length - 1) with hm
  obtain ⟨hab, han⟩ := not_or.mp hout
  have hlast : (if sl.length ≤ end_ then sl.length - 1 else end_).toNat = m :=
    hr.last_toNat end_ (by omega)
  obtain ⟨A, D, B, rfl, hAl, hDl, hkeys⟩ : ∃ A D B, ns = A ++ (D ++ B) ∧ A.length = a ∧
      D.length = m + 1 - a ∧ keys (A ++ B) = (keys ns).take a ++ (keys ns).drop (m + 1) := by
    refine ⟨ns.take a, (ns.drop a).take (m + 1 - a), (ns.drop a).drop (m + 1 - a), ?_, ?_, ?_, ?_⟩
    · rw [List.take_append_drop, List.take_append_drop]
    · rw [List.length_take]
      omega
    · rw [List.length_take, List.length_drop]
      omega
    · rw [keys_append, List.drop_drop, show a + (m + 1 - a) = m + 1 by omega, keys, keys, keys,
        List.map_take, List.map_drop]
  have hlenA : (A ++ (D ++ B)).length = A.length + (D.length + B.length) := by
    rw [List.length_append, List.length_append]
  obtain ⟨acc, slots, hup, hrun⟩ := descend_rank hr hAl.symm
  have hsum : ∀ k, k ≤ m + 1 - a → (start + (0 + UInt64.ofNat k)).toNat = a + k := by
    intro k hk
    rw [UInt64.zero_add, UInt64.toNat_add, toNat_ofNat_of_lt (by omega), ← ha]
    exact Nat.mod_eq_of_lt (by omega)
  obtain ⟨sl', hr', hdel⟩ := deleteWhile_spec
    (moreRank start (if sl.length ≤ end_ then sl.length - 1 else end_))
    (fun _ r => decide (start + r ≤ if sl.length ≤ end_ then sl.length - 1 else end_))
    (fun _ _ _ _ _ => rfl) D sl 0 hr hup
    (fun k e hk => by
      have hkD := (List.getElem?_eq_some_iff.mp hk).1
      rw [decide_eq_true_iff, UInt64.le_iff_toNat_le, hlast, hsum k (by omega)]
      omega)
    (fun e he => by
      rw [decide_eq_false_iff_not, UInt64.le_iff_toNat_le, hlast, hsum _ (by omega)]
      omega)
  refine ⟨sl', A ++ B, UInt64.ofNat D.length, hi.sublist hr' ?_, ?_, ?_, D.length + A.length + 1,
    fun fuel hfuel => ?_⟩
  · exact List.Sublist.append_left (List.sublist_append_right D B) A
  · rw [listDeleteByRank, hlenk, if_neg hout, hkeys]
  · rw [rankCount, hlenk, if_neg hout, toNat_ofNat_of_lt (by omega), hDl]
  · rw [deleteRangeByRank, if_neg (hguard.not.mpr hout), hrun fuel (by omega)]
    simp only [Option.bind_eq_bind, Option.bind_some, hr.forward_zero (cut_le A (D ++ B))]
    rw [hdel fuel (by omega), UInt64.zero_add]

end HighJump.Algo.Skip
