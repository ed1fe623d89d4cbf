/-
HighJump.Algo.SkiplistRuns — what holds of a skiplist after any run of
its operations.

`Shape` is the representation invariant in terms of memory alone: chains
of pointers, spans, backward pointers, tail and length, with no row
beside them. `Rep.shape` reads it off the representation. The two main
results are by induction over a run, with `exec_spec` as the step: every
state reached has a `Shape` and every operation returns from it
(`run_shape`), and every operation does what the sorted list prescribes,
so that runs of the same operations look alike whatever is drawn
(`run_refines`).
-/
import HighJump.Algo.SkiplistTheorems
import Mathlib.Algebra.Order.Group.Int
import Mathlib.Algebra.Ring.Int.Defs

namespace HighJump.Algo.Skip

open HighJump.Lib HighJump.Lib.Towers

variable {S T : Type} {sl : Skiplist S T} {ns : List (Entry S T)}

/-! ## Memory alone -/

/-- Following the pointers of level `i` from `p` visits `l` and ends. -/
def Chain (h : Heap S T) (i : Nat) : Ptr → List Ptr → Prop
  | p, [] => forward h p i = some null
  | p, q :: l => forward h p i = some q ∧ q ≠ null ∧ Chain h i q l

/-- The height of the tower at an address. -/
def heightOf (h : Heap S T) (p : Ptr) : Nat := ((deref h p).map Node.height).getD 0

/-- The entry stored at an address. -/
def entryOf (h : Heap S T) (p : Ptr) : Option (S × T) := (deref h p).map fun n => (n.score, n.obj)

/-- The level-0 list: its addresses and its entries. -/
structure Contents (sl : Skiplist S T) (ps : List Ptr) (l : List (S × T)) : Prop where
  chain : Chain sl.heap 0 sl.header ps
  entries : ps.map (entryOf sl.heap) = l.map some

/-- The representation invariant; positions count from 0 at the header. -/
structure Shape [LinearOrder S] (cmp : Comparable T) (sl : Skiplist S T) (ps : List Ptr)
    (l : List (S × T)) : Prop extends Contents sl ps l where
  sorted : Sorted cmp l
  nodup : (sl.header :: ps).Nodup
  levels : ∀ i, i < sl.level →
    Chain sl.heap i sl.header (ps.filter fun p => decide (i < heightOf sl.heap p))
  above : ∀ i, sl.level ≤ i → i < maxLevel → forward sl.heap sl.header i = some null
  span : ∀ k p i q, (sl.header :: ps)[k]? = some p → i < min (heightOf sl.heap p) sl.level →
    forward sl.heap p i = some q →
    ∃ s, span sl.heap p i = some s ∧
      (∀ j, (sl.header :: ps)[j]? = some q → k + s.toNat = j) ∧
      (q = null → k + s.toNat = ps.length)
  backward : ∀ k p, ps[k]? = some p → backward sl.heap p =
    some (if k = 0 then null else (ps[k - 1]?).getD null)
  tail : sl.tail = (ps.getLast?).getD null
  length : sl.length.toNat = ps.length

/-- From a tall position, the chain of a level goes through the tall
nodes that follow. -/
theorem Rep.chain_from (hr : Rep sl ns) {i : Nat} :
    ∀ d k u, k + d = ns.length → u ≤ k → i < heightAt ns u →
      (∀ m, u < m → m ≤ k → heightAt ns m ≤ i) →
      Chain sl.heap i (ptrAt sl.header ns u)
        (((ns.drop k).filter fun e => decide (i < e.height)).map Entry.ptr) := by
  intro d
  induction d with
  | zero =>
    intro k u hk hu ht hgap
    obtain rfl : k = ns.length := by omega
    have hnext : Next (heightAt ns) ns.length i u (ns.length + 1) :=
      ⟨by omega, le_rfl, by omega, fun m h1 h2 => hgap m h1 (by omega)⟩
    rw [List.drop_length, List.filter_nil, List.map_nil]
    exact (hr.forward i u _ hu ht hnext).trans
      (congrArg some (ptrAt_past sl.header (Nat.lt_succ_self _)))
  | succ d ih =>
    intro k u hk hu ht hgap
    have hlt : k < ns.length := by omega
    have hget : ns[k]? = some ns[k] := List.getElem?_eq_getElem hlt
    have hheight : heightAt ns (k + 1) = ns[k].height := by simp only [heightAt, hget]
    rw [List.drop_eq_getElem_cons hlt]
    by_cases htall : i < ns[k].height
    · -- the next node is tall: one step of the chain
      have hnext : Next (heightAt ns) ns.length i u (k + 1) :=
        ⟨by omega, by omega, fun _ => by omega, fun m h1 h2 => hgap m h1 (by omega)⟩
      rw [List.filter_cons_of_pos (by simpa using htall), List.map_cons,
        ← ptrAt_of_get sl.header hget]
      exact ⟨hr.forward i u _ (by omega) ht hnext, hr.ptrAt_ne_null hlt,
        ih (k + 1) (k + 1) (by omega) le_rfl (by omega) fun m h1 h2 => by omega⟩
    · rw [List.filter_cons_of_neg (by simpa using htall)]
      refine ih (k + 1) u (by omega) (by omega) ht fun m h1 h2 => ?_
      by_cases hm : m = k + 1
      · subst hm
        omega
      · exact hgap m h1 (by omega)

theorem Rep.chain (hr : Rep sl ns) {i : Nat} (hi : i < maxLevel) :
    Chain sl.heap i sl.header ((ns.filter fun e => decide (i < e.height)).map Entry.ptr) :=
  hr.chain_from ns.length 0 0 (by omega) le_rfl hi fun m h1 h2 => by omega

theorem heightOf_of_info {h : Heap S T} {p : Ptr} {n : Info S T} (hn : info h p = some n) :
    heightOf h p = n.height := by
  obtain ⟨m, hm, rfl⟩ := deref_of_info hn
  simp [heightOf, hm]

theorem Rep.filter_heights (hr : Rep sl ns) (i : Nat) :
    (ns.map Entry.ptr).filter (fun p => decide (i < heightOf sl.heap p)) =
      (ns.filter fun e => decide (i < e.height)).map Entry.ptr := by
  rw [List.filter_map]
  congr 1
  refine List.filter_congr fun e he => ?_
  obtain ⟨k, hk⟩ := List.mem_iff_getElem?.mp he
  simp [heightOf_of_info (hr.node k e hk)]

theorem Rep.filter_zero (hr : Rep sl ns) : ns.filter (fun e => decide (0 < e.height)) = ns :=
  List.filter_eq_self.mpr fun e he => decide_eq_true (hr.height e he).1

theorem Rep.contents (hr : Rep sl ns) : Contents sl (ns.map Entry.ptr) (keys ns) := by
  refine ⟨?_, ?_⟩
  · have h0 := hr.chain (show 0 < maxLevel by decide)
    rwa [hr.filter_zero] at h0
  · rw [keys, List.map_map, List.map_map]
    refine List.map_congr_left fun e he => ?_
    obtain ⟨k, hk⟩ := List.mem_iff_getElem?.mp he
    obtain ⟨n, hn, hs, ho⟩ := hr.deref_node hk
    simp [entryOf, hn, hs, ho, Entry.key]

/-- Positions in the list of addresses are positions of the row. -/
theorem ptrAt_of_getElem? {header p : Ptr} {k : Nat}
    (h : (header :: ns.map Entry.ptr)[k]? = some p) : k ≤ ns.length ∧ p = ptrAt header ns k := by
  obtain ⟨hlt, heq⟩ := List.getElem?_eq_some_iff.mp h
  rw [← ptrAt_eq_getElem header hlt] at heq
  exact ⟨by simpa [Nat.lt_succ_iff] using hlt, heq.symm⟩

theorem Rep.span_position (hr : Rep sl ns) {k i : Nat} {p q : Ptr}
    (hk : (sl.header :: ns.map Entry.ptr)[k]? = some p)
    (hi : i < min (heightOf sl.heap p) sl.level) (hq : Skip.forward sl.heap p i = some q) :
    ∃ s, Skip.span sl.heap p i = some s ∧
      (∀ j, (sl.header :: ns.map Entry.ptr)[j]? = some q → k + s.toNat = j) ∧
      (q = null → k + s.toNat = ns.length) := by
  obtain ⟨hkn, rfl⟩ := ptrAt_of_getElem? hk
  have hlt := hr.length_lt
  obtain ⟨n, hn, hnh⟩ := hr.info_at hkn
  rw [heightOf_of_info hn, hnh] at hi
  have htall : i < heightAt ns k := by omega
  obtain ⟨m, hm⟩ := exists_next (heightAt ns) i hkn
  have hmk := hm.lt
  have hml := hm.le
  rw [hr.forward i k m hkn htall hm] at hq
  obtain rfl := Option.some.inj hq
  refine ⟨_, hr.span i (by omega) k m hkn htall hm, fun j hj => ?_, fun hnull => ?_⟩
  · obtain ⟨hjn, hjm⟩ := ptrAt_of_getElem? hj
    have hmn : m ≤ ns.length := by
      by_contra hgt
      rw [ptrAt_past sl.header (by omega)] at hjm
      exact hr.ptrAt_ne_null hjn hjm.symm
    have hmj := hr.ptrAt_inj hmn hjn hjm
    rw [toNat_ofNat_of_lt (by omega)]
    omega
  · have hmn : ¬ m ≤ ns.length := fun hle => hr.ptrAt_ne_null hle hnull
    rw [toNat_ofNat_of_lt (by omega)]
    omega

section Ordered

variable [LinearOrder S] {cmp : Comparable T}

/-- **The representation gives the shape.** -/
theorem Inv.shape (hi : Inv cmp sl ns) : Shape cmp sl (ns.map Entry.ptr) (keys ns) := by
  have hr := hi.rep
  have hlen : (ns.map Entry.ptr).length = ns.length := List.length_map _
  refine ⟨hr.contents, hi.sorted, hr.nodup, fun i hl => ?_, fun i hl him => ?_,
    fun k p i q hk hil hq => ?_, fun k p hk => ?_, ?_, ?_⟩
  · rw [hr.filter_heights]
    exact hr.chain (Nat.lt_of_lt_of_le hl hr.level_le)
  · exact (forwardOk_above fun k hk => (hr.heightAt_le hk).trans hl).mp (hr.forward i) him
  · rw [hlen]
    exact hr.span_position hk hil hq
  · rw [List.getElem?_map, Option.map_eq_some_iff] at hk
    obtain ⟨e, he, rfl⟩ := hk
    rw [backward_of_info (hr.node k e he)]
    by_cases hk0 : k = 0
    · rw [if_pos hk0, if_pos hk0]
    · obtain ⟨k, rfl⟩ : ∃ m, k = m + 1 := ⟨k - 1, by omega⟩
      have hlt := (List.getElem?_eq_some_iff.mp he).1
      have hget : ns[k]? = some ns[k] := List.getElem?_eq_getElem (by omega)
      simp [ptrAt_of_get sl.header hget, hget]
  · rw [hr.tail, List.getLast?_eq_getElem?, hlen]
    cases ns with
    | nil => rfl
    | cons e ns =>
      have hget : (e :: ns)[ns.length]? = some (e :: ns)[ns.length] :=
        List.getElem?_eq_getElem (by simp)
      rw [if_neg (by simp), List.length_cons, ptrAt_of_get sl.header hget, List.getElem?_map,
        Nat.add_sub_cancel, hget]
      rfl
  · rw [hr.length, toNat_ofNat_of_lt hr.length_lt, hlen]

/-! ## The empty list -/

omit [LinearOrder S] in
theorem initLevel_spec {h : Heap S T} {p : Ptr} {n : Info S T} {j : Nat} (hn : info h p = some n)
    (hj : j < n.height) :
    ∃ h', initLevel p j h = some h' ∧ Frame j h h' ∧ forward h' p j = some null ∧
      span h' p j = some 0 := by
  obtain ⟨h1, hw1, hfr1, hf1, hs1⟩ := setForward_spec hn hj null
  obtain ⟨h2, hw2, hfr2, hf2, hs2⟩ := setSpan_spec ((hfr1.info _).trans hn) hj 0
  refine ⟨h2, ?_, hfr1.trans hfr2, ?_, ?_⟩
  · simp only [initLevel, hw1, Option.bind_eq_bind, Option.bind_some, hw2]
  · rw [hf2, hf1, if_pos rfl]
  · rw [hs2, if_pos rfl]

/-- **A new skiplist** represents the empty row. -/
theorem new_spec [Zero S] [Inhabited T] (cmp : Comparable T) {addr : Ptr} (haddr : addr ≠ null) :
    ∃ sl : Skiplist S T, new addr = some sl ∧ Inv cmp sl [] := by
  obtain ⟨h1, hrun1, hinfo1, -, -⟩ :=
    createNode_spec (h := (fun _ => none : Heap S T)) haddr rfl maxLevel 0 default
  have hinfo1' := hinfo1 addr
  rw [if_pos rfl] at hinfo1'
  obtain ⟨h2, hrun2, hinfo2, hdone2, -⟩ := forUp_levels 0 maxLevel
    (fun h j => forward h addr j = some null ∧ span h addr j = some 0)
    (fun h h' j ⟨hf, hs⟩ hf' hs' => ⟨(hf' _).trans hf, (hs' _).trans hs⟩)
    (fun j h _ hj hinfo _ _ => initLevel_spec ((hinfo addr).trans hinfo1') (show j < maxLevel by omega))
  obtain ⟨h3, hrun3, hinfo3, hf3, hs3⟩ := setBackward_spec ((hinfo2 addr).trans hinfo1') null
  have hheights : ∀ k, 0 < k → heightAt ([] : List (Entry S T)) k = 0 := by
    intro k hk
    obtain ⟨k, rfl⟩ : ∃ m, k = m + 1 := ⟨k - 1, by omega⟩
    rfl
  refine ⟨⟨h3, addr, null, 0, 1⟩, ?_, ⟨⟨?_, ?_, List.nodup_singleton _, le_rfl,
    show 1 ≤ maxLevel by decide, ?_, fun i => ?_, fun i hi k j hk ht hj => ?_, rfl, rfl⟩,
    List.Pairwise.nil⟩⟩
  · simp only [new, hrun1, Option.bind_eq_bind, Option.bind_some, hrun2, hrun3]
  · exact ⟨_, by rw [hinfo3, if_pos rfl], rfl⟩
  · intro k e hk
    simp at hk
  · intro e he
    cases he
  · refine (forwardOk_above fun k hk => by rw [hheights k hk]; omega).mpr fun him => ?_
    rw [hf3]
    exact (hdone2 i (Nat.zero_le i) (by omega)).1
  · obtain rfl : k = 0 := by simpa using hk
    have him : i < 0 + maxLevel := by simpa [heightAt] using ht
    rw [List.length_nil, Nat.min_zero]
    exact (hs3 _ i).trans (hdone2 i (Nat.zero_le i) him).2

/-! ## One operation -/

/-- A return value shows what the list prescribes; `ps` are the addresses
of the list after the operation. -/
def Shows (ps : List Ptr) : Ret → AbsRet → Prop
  | .node p, .inserted k => ps[k]? = some p
  | .deleted b, .deleted b' => b = b'
  | .removed n, .removed m => n.toNat = m
  | _, _ => False

/-- **One operation**, for any draw: it returns, keeps the invariant and
does what the list prescribes; a `delete_node` that finds nothing changes
nothing at all. -/
theorem exec_spec (hi : Inv cmp sl ns) {op : Op S T} {draw : Draw} (hd : op.Allowed draw sl) :
    ∃ sl' ret ns', Returns (exec cmp op draw sl) (sl', ret) ∧ Inv cmp sl' ns' ∧
      keys ns' = (absStep cmp op (keys ns)).1 ∧
      Shows (ns'.map Entry.ptr) ret (absStep cmp op (keys ns)).2 ∧
      (ret = .deleted false → sl' = sl) := by
  cases op with
  | insert score obj =>
    obtain ⟨sl', A, B, rfl, hkA, hi', hkeys, N, hN⟩ := insert_spec hi hd score obj
    refine ⟨sl', .node draw.addr, _, ⟨N, fun fuel hf => ?_⟩, hi', hkeys, ?_, fun h => by cases h⟩
    · simp only [exec, hN fuel hf, Option.map_some]
    · have hlen : ((keys (A ++ B)).takeWhile (before cmp · (score, obj))).length = A.length := by
        rw [← hkA, keys, List.length_map]
      simp only [absStep, Shows, hlen, List.getElem?_map, row_getElem_mid, Option.map_some]
  | deleteNode score obj =>
    obtain ⟨sl', ns', hi', hkeys, hsame, N, hN⟩ := deleteNode_spec hi score obj
    refine ⟨sl', .deleted _, ns', ⟨N, fun fuel hf => ?_⟩, hi', hkeys, rfl, fun h => ?_⟩
    · simp only [exec, hN fuel hf, Option.map_some]
    · exact hsame (Ret.deleted.inj h)
  | deleteRangeByScore a b =>
    obtain ⟨sl', ns', n, hi', hkeys, hn, N, hN⟩ := deleteRangeByScore_spec hi a b
    refine ⟨sl', .removed n, ns', ⟨N, fun fuel hf => ?_⟩, hi', hkeys, hn, fun h => by cases h⟩
    simp only [exec, hN fuel hf, Option.map_some]
  | deleteRangeByRank a b =>
    obtain ⟨sl', ns', n, hi', hkeys, hn, N, hN⟩ := deleteRangeByRank_spec hi a b
    refine ⟨sl', .removed n, ns', ⟨N, fun fuel hf => ?_⟩, hi', hkeys, hn, fun h => by cases h⟩
    simp only [exec, hN fuel hf, Option.map_some]

/-! ## Runs -/

/-- What every step keeps, every run keeps. -/
theorem run_inv {steps : List (Step S T)} {sl' : Skiplist S T} (hrun : Run cmp sl steps sl') :
    ∀ {ns}, Inv cmp sl ns → ∃ ns', Inv cmp sl' ns' := by
  induction hrun with
  | nil sl => exact fun hi => ⟨_, hi⟩
  | cons draw hd hret _ ih =>
    intro ns hi
    obtain ⟨sl1, ret, ns1, hret1, hi1, -⟩ := exec_spec hi hd
    obtain ⟨rfl, rfl⟩ := Prod.mk.inj (hret.unique hret1)
    exact ih hi1

/-- **The representation invariant.** Every state a run reaches from a
new skiplist, whatever heights and addresses are drawn, has the shape of
a skiplist, and from it every operation with every argument returns: no
step reads a null, freed or unwritten field, a level a tower does not
have, or an entry of `update[]` never assigned. -/
theorem run_shape [Zero S] [Inhabited T] (cmp : Comparable T) {addr : Ptr} (haddr : addr ≠ null) :
    ∃ sl₀ : Skiplist S T, new addr = some sl₀ ∧
      ∀ steps sl, Run cmp sl₀ steps sl →
        (∃ ps l, Shape cmp sl ps l) ∧
        ∀ op draw, op.Allowed draw sl → ∃ r, Returns (exec cmp op draw sl) r := by
  obtain ⟨sl₀, hnew, hi₀⟩ := new_spec (S := S) cmp haddr
  refine ⟨sl₀, hnew, fun steps sl hrun => ?_⟩
  obtain ⟨ns, hi⟩ := run_inv hrun hi₀
  refine ⟨⟨_, _, hi.shape⟩, fun op draw hd => ?_⟩
  obtain ⟨sl', ret, -, hret, -⟩ := exec_spec hi hd
  exact ⟨(sl', ret), hret⟩

/-- `std::less<unsigned>`. -/
def natLess : Comparable ℕ where
  compare a b := decide (a < b)
  strict_weak :=
    { irrefl := fun a h => Nat.lt_irrefl a (of_decide_eq_true h)
      trans := fun _ _ _ h h' =>
        decide_eq_true (Nat.lt_trans (of_decide_eq_true h) (of_decide_eq_true h'))
      incomp_trans := fun _ _ _ h h' => by
        simp only [decide_eq_true_eq] at h h' ⊢
        omega }

theorem run_shape_int_nat :
    ∃ sl₀ : Skiplist ℤ ℕ, new 1 = some sl₀ ∧
      ∀ steps sl, Run natLess sl₀ steps sl →
        (∃ ps l, Shape natLess sl ps l) ∧
        ∀ op draw, op.Allowed draw sl → ∃ r, Returns (exec natLess op draw sl) r :=
  run_shape natLess (by decide)

-- two towers in, the first one out again: the level shrinks with it
example : ((new 1 : Option (Skiplist ℤ ℕ)).bind fun sl =>
    (insert natLess 5 7 ⟨2, 8⟩ sl 9).bind fun r =>
    (insert natLess 5 6 ⟨1, 9⟩ r.1 9).bind fun r =>
    (deleteRangeByRank 1 1 r.1 9).map fun r =>
      (r.1.level, r.1.length, r.2, forward r.1.heap 1 0)) = some (1, 1, 1, some 9) := by
  decide +kernel

/-- Two return values are the same to an observer: equal, or two nodes at
the same position. -/
def SameRet (ps ps' : List Ptr) : Ret → Ret → Prop
  | .node p, .node p' => ∃ k : Nat, ps[k]? = some p ∧ ps'[k]? = some p'
  | .deleted b, .deleted b' => b = b'
  | .removed n, .removed n' => n = n'
  | _, _ => False

/-- Two steps are the same to an observer: the same operation, the same
return value and the same list after it. -/
def Step.Alike (a b : Step S T) : Prop :=
  a.op = b.op ∧ ∃ ps ps' l, Contents a.after ps l ∧ Contents b.after ps' l ∧
    SameRet ps ps' a.ret b.ret

omit [LinearOrder S] in
theorem sameRet_of_shows {ps ps' : List Ptr} {r r' : Ret} {a : AbsRet} (h : Shows ps r a)
    (h' : Shows ps' r' a) : SameRet ps ps' r r' := by
  cases a <;> cases r <;> cases r' <;> simp only [Shows] at h h'
  · exact ⟨_, h, h'⟩
  · exact h.trans h'.symm
  · exact UInt64.toNat_inj.mp (h.trans h'.symm)

/-- Runs of the same operations look alike. -/
theorem runs_alike {steps : List (Step S T)} {sl₁ : Skiplist S T} (hrun : Run cmp sl steps sl₁) :
    ∀ {sl' sl₁' : Skiplist S T} {steps' : List (Step S T)} {ns ns'}, Run cmp sl' steps' sl₁' →
      Inv cmp sl ns → Inv cmp sl' ns' → keys ns = keys ns' →
      steps.map Step.op = steps'.map Step.op →
      List.Forall₂ Step.Alike steps steps' ∧
        ∃ ps ps' l, Contents sl₁ ps l ∧ Contents sl₁' ps' l := by
  induction hrun with
  | nil sl =>
    intro sl' sl₁' steps' ns ns' hrun' hi hi' hk hops
    cases hrun' with
    | nil => exact ⟨.nil, _, _, keys ns, hi.rep.contents, hk ▸ hi'.rep.contents⟩
    | cons _ _ _ _ => cases hops
  | cons draw hd hret _ ih =>
    intro sl' sl₁' steps' ns ns' hrun' hi hi' hk hops
    cases hrun' with
    | nil => cases hops
    | cons draw' hd' hret' hrest' =>
      rw [List.map_cons, List.map_cons, List.cons.injEq] at hops
      obtain ⟨rfl, hrest⟩ := hops
      obtain ⟨sl2, ret2, ns2, hret2, hi2, hk2, hshow2, -⟩ := exec_spec hi hd
      obtain ⟨rfl, rfl⟩ := Prod.mk.inj (hret.unique hret2)
      obtain ⟨sl3, ret3, ns3, hret3, hi3, hk3, hshow3, -⟩ := exec_spec hi' hd'
      obtain ⟨rfl, rfl⟩ := Prod.mk.inj (hret'.unique hret3)
      rw [← hk] at hk3 hshow3
      have hk23 := hk2.trans hk3.symm
      obtain ⟨hsteps, hend⟩ := ih hrest' hi2 hi3 hk23 hrest
      refine ⟨.cons ⟨rfl, _, _, keys ns2, hi2.rep.contents, ?_, sameRet_of_shows hshow2 hshow3⟩ hsteps,
        hend⟩
      rw [hk23]
      exact hi3.rep.contents

/-- **A skiplist refines a sorted list.** In every reachable state there
is a level-0 list, and every operation turns it into the list prescribed
and returns what is prescribed, a `delete_node` that finds nothing
changing nothing; and two runs of the same operations, whatever is drawn
in each, are alike step by step. Scores are in one order, so a NaN is
none. -/
theorem run_refines [Zero S] [Inhabited T] (cmp : Comparable T) {addr addr' : Ptr}
    (haddr : addr ≠ null) (haddr' : addr' ≠ null) :
    ∃ sl₀ sl₀' : Skiplist S T, new addr = some sl₀ ∧ new addr' = some sl₀' ∧
      (∀ steps sl, Run cmp sl₀ steps sl → ∃ ps l, Contents sl ps l ∧
        ∀ op draw, op.Allowed draw sl → ∃ sl' ret ps', Returns (exec cmp op draw sl) (sl', ret) ∧
          Contents sl' ps' (absStep cmp op l).1 ∧ Shows ps' ret (absStep cmp op l).2 ∧
          (ret = .deleted false → sl' = sl)) ∧
      ∀ steps steps' sl sl', Run cmp sl₀ steps sl → Run cmp sl₀' steps' sl' →
        steps.map Step.op = steps'.map Step.op →
        List.Forall₂ Step.Alike steps steps' ∧ ∃ ps ps' l, Contents sl ps l ∧ Contents sl' ps' l := by
  obtain ⟨sl₀, hnew, hi₀⟩ := new_spec (S := S) cmp haddr
  obtain ⟨sl₀', hnew', hi₀'⟩ := new_spec (S := S) cmp haddr'
  refine ⟨sl₀, sl₀', hnew, hnew', fun steps sl hrun => ?_,
    fun steps steps' sl sl' hrun hrun' hops => runs_alike hrun hrun' hi₀ hi₀' rfl hops⟩
  obtain ⟨ns, hi⟩ := run_inv hrun hi₀
  refine ⟨_, keys ns, hi.rep.contents, fun op draw hd => ?_⟩
  obtain ⟨sl', ret, ns', hret, hi', hk, hshow, hsame⟩ := exec_spec hi hd
  exact ⟨sl', ret, _, hret, hk ▸ hi'.rep.contents, hshow, hsame⟩

theorem run_refines_int_nat :
    ∃ sl₀ sl₀' : Skiplist ℤ ℕ, new 1 = some sl₀ ∧ new 2 = some sl₀' ∧
      (∀ steps sl, Run natLess sl₀ steps sl → ∃ ps l, Contents sl ps l ∧
        ∀ op draw, op.Allowed draw sl → ∃ sl' ret ps', Returns (exec natLess op draw sl) (sl', ret) ∧
          Contents sl' ps' (absStep natLess op l).1 ∧ Shows ps' ret (absStep natLess op l).2 ∧
          (ret = .deleted false → sl' = sl)) ∧
      ∀ steps steps' sl sl', Run natLess sl₀ steps sl → Run natLess sl₀' steps' sl' →
        steps.map Step.op = steps'.map Step.op →
        List.Forall₂ Step.Alike steps steps' ∧ ∃ ps ps' l, Contents sl ps l ∧ Contents sl' ps' l :=
  run_refines natLess (by decide) (by decide)

end Ordered

end HighJump.Algo.Skip
