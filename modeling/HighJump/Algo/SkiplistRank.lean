/-
HighJump.Algo.SkiplistRank — `get_rank` of a skiplist after any run.

The search looks for an equivalent entry at every level and leaves at the
first it meets, so it finds the first of the tallest equivalent entries
(`rankLevels_spec`). `delete_node` looks at level 0 only. With duplicates
the answer depends on what `_random_level` drew, and `run_getRank_iff`
says exactly when it is the rank of the entry.
-/
import HighJump.Algo.SkiplistQueryTheorems

namespace HighJump.Algo.Skip

open HighJump.Lib HighJump.Lib.Towers

variable {S T : Type} {sl : Skiplist S T} {A ns : List (Entry S T)}

/-! ## The rank of an entry -/

section Rank

variable [LinearOrder S] {cmp : Comparable T} {x : S × T} {E F : List (Entry S T)}

/-- Before the entry, equivalent to it, after it. -/
structure EntryCut (cmp : Comparable T) (x : S × T) (A E F : List (Entry S T)) : Prop where
  less : ∀ e ∈ A, before cmp e.key x = true
  equal : ∀ e ∈ E, equivalent cmp e.key x = true
  more : ∀ e ∈ F, before cmp e.key x = false ∧ equivalent cmp e.key x = false

theorem EntryCut.not_less (h : EntryCut cmp x A E F) : ∀ e ∈ E ++ F, before cmp e.key x = false := by
  intro e he
  rcases List.mem_append.mp he with he | he
  · have heq := h.equal e he
    simp only [equivalent, Bool.and_eq_true, Bool.not_eq_true'] at heq
    exact heq.1
  · exact (h.more e he).1

theorem EntryCut.equivalent (h : EntryCut cmp x A E F) :
    (∀ e ∈ A, equivalent cmp e.key x = false) ∧ (∀ e ∈ E, equivalent cmp e.key x = true) ∧
      ∀ e ∈ F, equivalent cmp e.key x = false :=
  ⟨fun e he => by simp [Skip.equivalent, h.less e he], h.equal, fun e he => (h.more e he).2⟩

/-- Among entries not before `x`, the equivalent ones come first. -/
theorem Sorted.equivalent_mono {l : List (S × T)} (hs : Sorted cmp l)
    (hnot : ∀ e ∈ l, before cmp e x = false) :
    l.Pairwise fun a b => equivalent cmp b x = true → equivalent cmp a x = true := by
  refine (List.Pairwise.and_mem.mp hs).imp fun {a b} ⟨ha, _, hab⟩ hb => ?_
  simp only [equivalent, Bool.and_eq_true, Bool.not_eq_true'] at hb ⊢
  refine ⟨hnot a ha, ?_⟩
  by_contra hxa
  rcases before_or (show before cmp x a = true by simpa using hxa) b with h | h
  · rw [hb.2] at h
    cases h
  · rw [hab] at h
    cases h

theorem Inv.exists_entryCut (hi : Inv cmp sl ns) (x : S × T) :
    ∃ A E F, ns = A ++ (E ++ F) ∧ EntryCut cmp x A E F := by
  obtain ⟨A, C, rfl, -, -, hA, hC⟩ := exists_cut (before cmp · x) ns (hi.sorted.before_mono x)
  have hsC : Sorted cmp (keys C) := hi.sorted.sublist ((List.sublist_append_right A C).map _)
  obtain ⟨E, F, rfl, -, -, hE, hF⟩ := exists_cut (equivalent cmp · x) C
    (hsC.equivalent_mono (forall_keys hC))
  exact ⟨A, E, F, rfl, hA, hE, fun e he => ⟨hC e (List.mem_append.mpr (.inr he)), hF e he⟩⟩

/-- `j` is the first position of the largest height among `c + 1..c + m`. -/
structure FirstTallest (ht : Nat → Nat) (c m j : Nat) : Prop where
  gt : c < j
  le : j ≤ c + m
  tallest : ∀ p, c < p → p ≤ c + m → ht p ≤ ht j
  first : ∀ p, c < p → p < j → ht p < ht j

/-- Whether the node at a position past the entries before is an
equivalent one, as the code tests it. -/
theorem deref_equivalent (hr : Rep sl ns) (hns : ns = A ++ (E ++ F)) (hcut : EntryCut cmp x A E F)
    {j : Nat} (hAj : A.length < j) (hj : j ≤ ns.length) :
    ∃ n, deref sl.heap (ptrAt sl.header ns j) = some n ∧
      ((n.score = x.1 ∧ cmp.compare n.obj x.2 = false ∧ cmp.compare x.2 n.obj = false) ↔
        j ≤ A.length + E.length) := by
  subst hns
  obtain ⟨j, rfl⟩ : ∃ m, j = m + 1 := ⟨j - 1, by omega⟩
  have hget : (A ++ (E ++ F))[j]? = some (A ++ (E ++ F))[j] := List.getElem?_eq_getElem hj
  obtain ⟨n, hn, hs, ho⟩ := hr.deref_node hget
  refine ⟨n, by rw [ptrAt_of_get sl.header hget, hn], ?_⟩
  rw [hs, ho]
  refine (equivalent_iff (a := (A ++ (E ++ F))[j].key)).symm.trans ?_
  obtain ⟨-, hE, hF⟩ := hcut.equivalent
  by_cases hjE : j < A.length + E.length
  · have hmem : (A ++ (E ++ F))[j] ∈ E := by
      rw [List.getElem_append_right (by omega), List.getElem_append_left (by omega)]
      exact List.getElem_mem _
    rw [hE _ hmem]
    exact iff_of_true rfl hjE
  · have hmem : (A ++ (E ++ F))[j] ∈ F := by
      rw [List.getElem_append_right (by omega), List.getElem_append_right (by omega)]
      exact List.getElem_mem _
    rw [hF _ hmem]
    exact iff_of_false (by simp) (by omega)

/-- **The levels of `get_rank`.** It leaves from the highest level an
equivalent entry reaches, at the first one there. The induction is on the
level: none of the equivalent entries is taller than the levels still to
come. -/
theorem rankLevels_spec (hr : Rep sl ns) (hns : ns = A ++ (E ++ F)) (hcut : EntryCut cmp x A E F) :
    ∀ (l k : Nat) (acc : UInt64), l ≤ sl.level → k ≤ A.length → l ≤ heightAt ns k → IsRank k acc →
      (∀ p, A.length < p → p ≤ A.length + E.length → heightAt ns p ≤ l) →
      ∃ r, (∀ fuel, A.length < fuel →
          rankLevels cmp x.1 x.2 sl fuel l (ptrAt sl.header ns k, acc) = some r) ∧
        ((E = [] ∧ r = sl.length) ∨ ∃ j, r = UInt64.ofNat j - 1 ∧
          FirstTallest (heightAt ns) A.length E.length j) := by
  have hlen : ns.length = A.length + (E.length + F.length) := by simp [hns]
  have hsep : Separates sl ns (goEntry sl.heap cmp x.1 x.2) (countSpan sl.heap) A.length IsRank := by
    refine ⟨fun i k j acc _ _ _ hj hjn _ => ?_, fun i k j acc hi _ ht hj hjc hacc => ?_⟩
    · subst hns
      exact go_of_test hr (before cmp · x) hcut.less hcut.not_less (Nat.zero_lt_of_lt hj.lt) hjn
    · exact ⟨_, count_rank hr hi ht hj (by omega) hacc, rfl⟩
  intro l
  induction l with
  | zero =>
    intro k acc _ _ _ _ hheights
    refine ⟨sl.length, fun fuel _ => rfl, .inl ⟨?_, rfl⟩⟩
    by_contra hne
    have hpos : 0 < E.length := List.length_pos_iff.mpr hne
    have h1 := hheights (A.length + 1) (by omega) (by omega)
    have h2 := hr.heightAt_pos (show A.length + 1 ≤ ns.length by omega)
    omega
  | succ l ih =>
    intro k acc hl hk htall hacc hheights
    obtain ⟨u, acc1, hu, hacc1, hwalk⟩ := walk_spec hr (show A.length ≤ ns.length by omega) hsep
      (show l < sl.level by omega) (A.length - k) k acc (by omega) (by omega) hacc
    have hule := hu.le
    have hutall := hu.tall
    obtain ⟨j, hj⟩ := exists_next (heightAt ns) l (show u ≤ ns.length by omega)
    have hAj := hu.lt_next (by omega) hj
    have hf := hr.forward l u j (by omega) hutall hj
    by_cases hjE : j ≤ A.length + E.length
    · -- the next node is equivalent: the search leaves here
      obtain ⟨n, hn, heq⟩ := deref_equivalent hr hns hcut hAj (by omega)
      have hcount := count_rank hr (show l < sl.level by omega) hutall hj (by omega) hacc1
      unfold countSpan at hcount
      obtain ⟨s, hs, hsum⟩ := Option.bind_eq_some_iff.mp hcount
      refine ⟨UInt64.ofNat j - 1, fun fuel hfuel => ?_, .inr ⟨j, rfl, hAj, hjE, ?_, ?_⟩⟩
      · rw [rankLevels, hwalk fuel (by omega)]
        simp only [Option.bind_eq_bind, Option.bind_some, hf,
          hr.ptrAt_ne_null (show j ≤ ns.length by omega), if_false, hn]
        rw [if_pos (heq.mpr hjE), hs, Option.bind_some, Option.some.inj hsum]
      · intro p hp hpE
        have h1 := hheights p hp hpE
        have h2 := hj.tall (by omega)
        omega
      · intro p hp hpj
        have h1 := hj.gap p (by omega) hpj
        have h2 := hj.tall (by omega)
        omega
    · -- no equivalent entry reaches this level
      obtain ⟨r, hrun, hr'⟩ := ih u acc1 (by omega) hu.le (by omega) hacc1
        fun p hp hpE => hj.gap p (by omega) (by omega)
      refine ⟨r, fun fuel hfuel => ?_, hr'⟩
      rw [rankLevels, hwalk fuel (by omega)]
      simp only [Option.bind_eq_bind, Option.bind_some, hf]
      by_cases hjn : j ≤ ns.length
      · obtain ⟨n, hn, heq⟩ := deref_equivalent hr hns hcut hAj hjn
        simp only [hr.ptrAt_ne_null hjn, if_false, hn, Option.bind_some]
        rw [if_neg (heq.not.mpr hjE)]
        exact hrun fuel hfuel
      · rw [if_pos (ptrAt_past sl.header (by omega))]
        exact hrun fuel hfuel

theorem getRank_spec (hi : Inv cmp sl ns) (x : S × T) :
    ∃ A E F r, ns = A ++ (E ++ F) ∧ EntryCut cmp x A E F ∧ Returns (getRank cmp x.1 x.2 sl) r ∧
      ((E = [] ∧ r = sl.length) ∨ ∃ j, r.toNat + 1 = j ∧
        FirstTallest (heightAt ns) A.length E.length j) := by
  obtain ⟨A, E, F, hns, hcut⟩ := hi.exists_entryCut x
  have hr := hi.rep
  have hlt := hr.length_lt
  have hlen : ns.length = A.length + (E.length + F.length) := by simp [hns]
  obtain ⟨r, hrun, hres⟩ := rankLevels_spec hr hns hcut sl.level 0 0 le_rfl (Nat.zero_le _)
    hr.level_le rfl fun p hp _ => hr.heightAt_le (by omega)
  refine ⟨A, E, F, r, hns, hcut, ⟨A.length + 1, fun fuel hfuel => hrun fuel hfuel⟩, ?_⟩
  rcases hres with h | ⟨j, rfl, hj⟩
  · exact .inl h
  · have hgt := hj.gt
    have hle := hj.le
    have hone : (1 : UInt64) ≤ UInt64.ofNat j := by
      rw [UInt64.le_iff_toNat_le, toNat_ofNat_of_lt (by omega)]
      exact Nat.succ_le_of_lt (by omega)
    refine .inr ⟨j, ?_, hj⟩
    rw [UInt64.toNat_sub_of_le _ _ hone, toNat_ofNat_of_lt (by omega)]
    exact Nat.sub_add_cancel (show 1 ≤ j by omega)

end Rank

/-! ## After any run -/

section Runs

variable [LinearOrder S] [Zero S] [Inhabited T]

/-- What `get_rank` is for: the position of the first equivalent entry,
where `get_element_by_rank` finds an equivalent one, or the size. -/
def IsRankOf (cmp : Comparable T) (sl : Skiplist S T) (l : List (S × T)) (x : S × T) (r : UInt64) :
    Prop :=
  if l.any (equivalent cmp · x) then
    r.toNat = l.countP (before cmp · x) ∧
      ∃ p e, Returns (getElementByRank r sl) p ∧ entryOf sl.heap p = some e ∧
        equivalent cmp e x = true
  else r = sl.length

/-- No node of `ps` is taller than the first. -/
def FirstIsTallest (h : Heap S T) (ps : List Ptr) : Prop :=
  ∀ p ∈ ps.head?, ∀ q ∈ ps, heightOf h q ≤ heightOf h p

omit [Zero S] [Inhabited T] in
theorem EntryCut.countP {cmp : Comparable T} {x : S × T} {E F : List (Entry S T)}
    (h : EntryCut cmp x A E F) : (keys (A ++ (E ++ F))).countP (before cmp · x) = A.length := by
  have hnot := forall_keys (p := (before cmp · x)) h.not_less
  rw [keys_append, List.countP_append, List.countP_eq_length.mpr (forall_keys h.less),
    List.countP_eq_zero.mpr fun e he => by simp [hnot e he], keys, List.length_map]
  rfl

omit [Zero S] [Inhabited T] in
theorem EntryCut.any {cmp : Comparable T} {x : S × T} {E F : List (Entry S T)}
    (h : EntryCut cmp x A E F) :
    (keys (A ++ (E ++ F))).any (Skip.equivalent cmp · x) = !E.isEmpty := by
  obtain ⟨hA, hE, hF⟩ := h.equivalent
  cases E with
  | nil =>
    have hnone : ∀ e ∈ A ++ ([] ++ F), Skip.equivalent cmp e.key x = false := by
      intro e he
      rcases List.mem_append.mp he with he | he
      · exact hA e he
      · exact hF e he
    have hkeys := forall_keys (p := (Skip.equivalent cmp · x)) hnone
    exact List.any_eq_false.mpr fun e he => by simp [hkeys e he]
  | cons e E =>
    exact List.any_eq_true.mpr ⟨e.key, List.mem_map_of_mem (by simp), hE e List.mem_cons_self⟩

omit [LinearOrder S] [Zero S] [Inhabited T] in
/-- Heights of the equivalent nodes, by position. -/
theorem heightOf_equal (hr : Rep sl ns) {E F : List (Entry S T)} (hns : ns = A ++ (E ++ F)) {k : Nat}
    {e : Entry S T} (hk : E[k]? = some e) :
    heightOf sl.heap e.ptr = heightAt ns (A.length + k + 1) := by
  have hlt := (List.getElem?_eq_some_iff.mp hk).1
  have hget : ns[A.length + k]? = some e := by
    rw [hns, List.getElem?_append_right (by omega), Nat.add_sub_cancel_left,
      List.getElem?_append_left hlt, hk]
  rw [heightOf_of_info (hr.node _ e hget), heightAt, hget]

omit [Zero S] [Inhabited T] in
theorem isRankOf_iff {cmp : Comparable T} {x : S × T} {E F : List (Entry S T)} {r : UInt64}
    (hr : Rep sl ns) (hns : ns = A ++ (E ++ F)) (hcut : EntryCut cmp x A E F)
    (hres : (E = [] ∧ r = sl.length) ∨ ∃ j, r.toNat + 1 = j ∧
      FirstTallest (heightAt ns) A.length E.length j) :
    IsRankOf cmp sl (keys ns) x r ↔
      FirstIsTallest sl.heap (nodesWhere (equivalent cmp · x) (ns.map Entry.ptr) (keys ns)) := by
  have hheight := fun {k e} => @heightOf_equal S T sl A ns hr E F hns k e
  have hnodes : nodesWhere (equivalent cmp · x) (ns.map Entry.ptr) (keys ns) = E.map Entry.ptr := by
    rw [hns]
    exact nodesWhere_cut hcut.equivalent
  have hany : (keys ns).any (equivalent cmp · x) = !E.isEmpty := by rw [hns, hcut.any]
  have hcount : (keys ns).countP (before cmp · x) = A.length := by rw [hns, hcut.countP]
  rw [hnodes, IsRankOf, hany, hcount]
  cases E with
  | nil =>
    rcases hres with ⟨-, rfl⟩ | ⟨j, -, hj⟩
    · simp [FirstIsTallest]
    · have hgt := hj.gt
      have hle := hj.le
      simp at hle
      omega
  | cons d E =>
    obtain ⟨j, hrj, hj⟩ := hres.resolve_left (by simp)
    have hgt := hj.gt
    have hle := hj.le
    simp only [List.isEmpty_cons, Bool.not_false, if_true]
    have hfirst : heightOf sl.heap d.ptr = heightAt ns (A.length + 1) := hheight (k := 0) rfl
    constructor
    · rintro ⟨hrA, -⟩ p hp q hq
      obtain rfl := Option.some.inj hp
      obtain ⟨e, he, rfl⟩ := List.mem_map.mp hq
      obtain ⟨k, hk⟩ := List.mem_iff_getElem?.mp he
      have hlt := (List.getElem?_eq_some_iff.mp hk).1
      rw [hheight hk, hfirst, show A.length + 1 = j by omega]
      exact hj.tallest _ (by omega) (by omega)
    · intro hall
      have hjA : j = A.length + 1 := by
        by_contra hne
        have hlow := hj.first (A.length + 1) (by omega) (by omega)
        have hget : (d :: E)[j - A.length - 1]? = some (d :: E)[j - A.length - 1] :=
          List.getElem?_eq_getElem (by omega)
        have htop := hall d.ptr rfl _ (List.mem_map_of_mem (List.mem_of_getElem? hget))
        rw [hheight hget, hfirst, show A.length + (j - A.length - 1) + 1 = j by omega] at htop
        omega
      have hrA : r.toNat = A.length := by omega
      have hget : ns[A.length]? = some d := by rw [hns]; exact row_getElem_mid A (E ++ F) d
      obtain ⟨n, hn, hs, ho⟩ := hr.deref_node hget
      refine ⟨hrA, d.ptr, d.key, ⟨ns.length + 1, fun fuel hfuel => ?_⟩, ?_,
        hcut.equal d List.mem_cons_self⟩
      · rw [getElementByRank_spec hr r hfuel, hrA, List.getElem?_map, hget]
        rfl
      · rw [entryOf, hn, Option.map_some, hs, ho]
        rfl

/-- **`get_rank` is right exactly where the first equivalent entry has
the tallest tower.** After any run it returns the position of the first
of the tallest equivalent entries. -/
theorem run_getRank_iff (cmp : Comparable T) {addr : Ptr} (haddr : addr ≠ null) :
    ∃ sl₀ : Skiplist S T, new addr = some sl₀ ∧ ∀ steps sl, Run cmp sl₀ steps sl →
      ∃ ps l, Contents sl ps l ∧ ∀ score obj, ∃ r, Returns (getRank cmp score obj sl) r ∧
        (IsRankOf cmp sl l (score, obj) r ↔
          FirstIsTallest sl.heap (nodesWhere (equivalent cmp · (score, obj)) ps l)) := by
  obtain ⟨sl₀, hnew, hi₀⟩ := new_spec (S := S) cmp haddr
  refine ⟨sl₀, hnew, fun steps sl hrun => ?_⟩
  obtain ⟨ns, hi⟩ := run_inv hrun hi₀
  refine ⟨_, _, hi.rep.contents, fun score obj => ?_⟩
  obtain ⟨A, E, F, r, hns, hcut, hret, hres⟩ := getRank_spec hi (score, obj)
  refine ⟨r, hret, ?_⟩
  exact isRankOf_iff hi.rep hns hcut hres

theorem run_getRank_iff_int_nat :
    ∃ sl₀ : Skiplist ℤ ℕ, new 1 = some sl₀ ∧ ∀ steps sl, Run natLess sl₀ steps sl →
      ∃ ps l, Contents sl ps l ∧ ∀ score obj, ∃ r, Returns (getRank natLess score obj sl) r ∧
        (IsRankOf natLess sl l (score, obj) r ↔
          FirstIsTallest sl.heap (nodesWhere (equivalent natLess · (score, obj)) ps l)) :=
  run_getRank_iff natLess (by decide)

/-- The second of two equal entries is drawn lower than the first and
comes to stand before it: `get_rank` meets the other one, a level higher
up. -/
theorem getRank_of_taller_duplicate :
    ∃ (sl₀ sl : Skiplist ℤ ℕ) (steps : List (Step ℤ ℕ)) (ps : List Ptr),
      new 1 = some sl₀ ∧ Run natLess sl₀ steps sl ∧ Contents sl ps [(0, 0), (0, 0)] ∧
        Returns (getRank natLess 0 0 sl) 1 ∧ ¬ IsRankOf natLess sl [(0, 0), (0, 0)] (0, 0) 1 := by
  obtain ⟨sl₀, hnew, hi₀⟩ := new_spec (S := ℤ) natLess (show (1 : Ptr) ≠ null by decide)
  have hfree₀ : (new 1).map (fun sl : Skiplist ℤ ℕ => (sl.heap 2).isNone) = some true := by decide
  have hfree₁ : ∀ fuel, ((new 1).bind fun sl : Skiplist ℤ ℕ =>
      (insert natLess 0 0 ⟨2, 2⟩ sl (fuel + 1)).map fun r => (r.1.heap 3).isNone) = some true :=
    fun _ => rfl
  have hrank : ∀ fuel, ((new 1).bind fun sl : Skiplist ℤ ℕ =>
      (insert natLess 0 0 ⟨2, 2⟩ sl (fuel + 1)).bind fun r =>
        (insert natLess 0 0 ⟨1, 3⟩ r.1 (fuel + 1)).bind fun r =>
          getRank natLess 0 0 r.1 (fuel + 1)) = some 1 := fun _ => rfl
  rw [hnew] at hfree₀ hfree₁ hrank
  -- the first entry, two levels high
  have hd₁ : Draw.Allowed ⟨2, 2⟩ sl₀ :=
    ⟨by decide, by decide, by decide, by simpa using hfree₀⟩
  obtain ⟨sl₁, A₁, B₁, hrow₁, -, hi₁, -, N₁, hret₁⟩ := insert_spec hi₀ hd₁ 0 0
  obtain ⟨rfl, rfl⟩ := List.append_eq_nil_iff.mp hrow₁.symm
  -- the second, one level high, before it
  have hd₂ : Draw.Allowed ⟨1, 3⟩ sl₁ := by
    refine ⟨by decide, by decide, by decide, ?_⟩
    have hfree := hfree₁ N₁
    rw [Option.bind_some, hret₁ (N₁ + 1) (Nat.le_succ N₁)] at hfree
    simpa using hfree
  obtain ⟨sl₂, A₂, B₂, hrow₂, hkA, hi₂, -, N₂, hret₂⟩ := insert_spec hi₁ hd₂ 0 0
  obtain rfl : A₂ = [] := List.map_eq_nil_iff.mp hkA
  rw [List.nil_append, List.nil_append] at hrow₂
  subst hrow₂
  obtain ⟨-, -, -, r, -, -, ⟨N₃, hret₃⟩, -⟩ := getRank_spec hi₂ (0, 0)
  obtain rfl : r = 1 := by
    have h := hrank (N₁ + N₂ + N₃)
    rw [Option.bind_some, hret₁ _ (by omega), Option.bind_some, hret₂ _ (by omega),
      Option.bind_some, hret₃ _ (by omega)] at h
    exact Option.some.inj h
  refine ⟨sl₀, sl₂, [⟨.insert 0 0, .node 2, sl₁⟩, ⟨.insert 0 0, .node 3, sl₂⟩], _, hnew,
    .cons _ hd₁ ⟨N₁, fun fuel hf => ?_⟩ (.cons _ hd₂ ⟨N₂, fun fuel hf => ?_⟩ (.nil _)),
    hi₂.rep.contents, ⟨N₃, hret₃⟩, fun h => ?_⟩
  · exact congrArg (Option.map _) (hret₁ fuel hf)
  · exact congrArg (Option.map _) (hret₂ fuel hf)
  · exact absurd h.1 (by decide)

end Runs

end HighJump.Algo.Skip
