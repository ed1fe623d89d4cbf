/-
HighJump.Algo.SkiplistLifecycle — the iterators of a skiplist, `validate`
and the destructor.

An iterator is a node pointer; a loop from `begin()` follows the forward
pointers of level 0, a loop with `--` from `last()` the backward pointers.
`release()` frees what the forward pointers of level 0 reach and then the
header. That this is all there is to free is not part of the shape of a
skiplist but a matter of how it came about: `Census` lists the live nodes
and counts them against `size()`, every operation keeps it
(`exec_census`), and where both hold the live nodes are the header and
the nodes of the list (`Census.live_iff`).
-/
import HighJump.Algo.SkiplistRuns
import Mathlib.Data.List.Induction

namespace HighJump.Algo.Skip

open HighJump.Lib

variable {S T : Type}

/-! ## The functions -/

/-- `first()` -/
def first (sl : Skiplist S T) : Option Ptr := forward sl.heap sl.header 0

/-- `last()` -/
def last (sl : Skiplist S T) : Ptr := sl.tail

/-- `iterator::operator++`, on the node it stands at. -/
def Iterator.next (h : Heap S T) (current : Ptr) : Option Ptr :=
  if current ≠ null then forward h current 0 else some current

/-- `iterator::operator--` -/
def Iterator.prev (h : Heap S T) (current : Ptr) : Option Ptr :=
  if current ≠ null then backward h current else some current

/-- A loop up to `end()` that advances with `step`: the nodes it visits. -/
def visit (step : Ptr → Option Ptr) : Nat → Ptr × List Ptr → Option (List Ptr) :=
  repeatUntil fun _ (current, seen) =>
    if current = null then some (.exit seen)
    else do
      let next ← step current
      some (.again (next, seen ++ [current]))

/-- `for(auto it = begin(); it != end(); ++it)` -/
def iterate (sl : Skiplist S T) (fuel : Nat) : Option (List Ptr) := do
  let x ← first sl
  visit (Iterator.next sl.heap) fuel (x, [])

/-- The same with `--`, from `last()`. -/
def iterateBack (sl : Skiplist S T) (fuel : Nat) : Option (List Ptr) :=
  visit (Iterator.prev sl.heap) fuel (last sl, [])

/-- `x->_level[0].forward && x->score > x->_level[0].forward->score` -/
def outOfOrder [LinearOrder S] (h : Heap S T) (x : Ptr) : Option Bool := do
  let f ← forward h x 0
  if f = null then some false
  else do
    let n ← deref h x
    let m ← deref h f
    some (decide (n.score > m.score))

/-- The loop of `validate`, which counts the nodes. -/
def validateLoop [LinearOrder S] (h : Heap S T) (length : UInt64) :
    Nat → Ptr × UInt64 → Option Bool :=
  repeatUntil fun _ (x, count) =>
    if x = null then some (.exit (count == length))
    else do
      if ← outOfOrder h x then some (.exit false)
      else do
        let x ← forward h x 0
        some (.again (x, count + 1))

/-- `validate` -/
def validate [LinearOrder S] (sl : Skiplist S T) (fuel : Nat) : Option Bool := do
  let x ← first sl
  validateLoop sl.heap sl.length fuel (x, 0)

/-- The loop of `release`. -/
def releaseLoop : Nat → Ptr × Heap S T → Option (Heap S T) :=
  repeatUntil fun _ (x, h) =>
    if x = null then some (.exit h)
    else do
      let next ← forward h x 0
      let h ← freeNode h x
      some (.again (next, h))

/-- `release`, the body of the destructor: the memory after it. -/
def release (sl : Skiplist S T) (fuel : Nat) : Option (Heap S T) := do
  let x ← first sl
  let h ← releaseLoop fuel (x, sl.heap)
  freeNode h sl.header

/-! ## What is allocated -/

/-- The addresses of the live nodes. -/
structure Census (h : Heap S T) (ps : List Ptr) : Prop where
  nodup : ps.Nodup
  live : ∀ p, p ∈ ps ↔ (h p).isSome = true
  null : Skip.null ∉ ps

theorem Census.congr {h h' : Heap S T} {ps : List Ptr} (hc : Census h ps)
    (hsame : ∀ p, (h' p).isSome = (h p).isSome) : Census h' ps :=
  ⟨hc.nodup, fun p => by rw [hsame]; exact hc.live p, hc.null⟩

/-- A write through a live pointer. -/
theorem isSome_write {h : Heap S T} {p : Ptr} {n : Node S T} (hn : deref h p = some n)
    (m : Node S T) (p' : Ptr) : (Function.update h p (some m) p').isSome = (h p').isSome := by
  by_cases hp : p' = p
  · subst hp
    have hsome : h p' = some n := by
      unfold deref at hn
      split at hn
      · simp at hn
      · exact hn
    simp [hsome]
  · simp [hp]

section Writes

variable {h h' : Heap S T} {p q : Ptr} {i : Nat} {s : UInt64} {ps : List Ptr}

theorem setForward_census (hc : Census h ps) (hw : setForward h p i q = some h') :
    Census h' ps := by
  simp only [setForward, Option.bind_eq_bind, Option.bind_eq_some_iff] at hw
  obtain ⟨n, hn, hw⟩ := hw
  split at hw
  · obtain rfl := Option.some.inj hw
    exact hc.congr (isSome_write hn _)
  · simp at hw

theorem setSpan_census (hc : Census h ps) (hw : setSpan h p i s = some h') : Census h' ps := by
  simp only [setSpan, Option.bind_eq_bind, Option.bind_eq_some_iff] at hw
  obtain ⟨n, hn, hw⟩ := hw
  split at hw
  · obtain rfl := Option.some.inj hw
    exact hc.congr (isSome_write hn _)
  · simp at hw

theorem setBackward_census (hc : Census h ps) (hw : setBackward h p q = some h') :
    Census h' ps := by
  simp only [setBackward, Option.bind_eq_bind, Option.bind_eq_some_iff] at hw
  obtain ⟨n, hn, hw⟩ := hw
  obtain rfl := Option.some.inj hw
  exact hc.congr (isSome_write hn _)

theorem setBackwardOf_census (hc : Census h ps) (hw : setBackwardOf h p q = some h') :
    Census h' ps := by
  unfold setBackwardOf at hw
  split at hw
  · obtain rfl := Option.some.inj hw
    exact hc
  · exact setBackward_census hc hw

/-- `_create_node` adds its address. -/
theorem createNode_census {height : Nat} {score : S} {obj : T} (hc : Census h ps)
    (hw : createNode h p height score obj = some h') : Census h' (p :: ps) := by
  unfold createNode at hw
  split at hw
  case isTrue => simp at hw
  case isFalse hfree =>
    obtain ⟨hp, hnone⟩ := not_or.mp hfree
    obtain rfl := Option.some.inj hw
    refine ⟨List.nodup_cons.mpr ⟨fun hmem => hnone ((hc.live p).mp hmem), hc.nodup⟩, fun p' => ?_, ?_⟩
    · by_cases hpp : p' = p
      · simp [hpp]
      · simp [hpp, hc.live p']
    · simp [Ne.symm hp, hc.null]

/-- `_free_node` takes its address away. -/
theorem freeNode_census (hc : Census h ps) (hw : freeNode h p = some h') :
    p ∈ ps ∧ Census h' (ps.erase p) := by
  simp only [freeNode, Option.bind_eq_bind, Option.bind_eq_some_iff] at hw
  obtain ⟨n, hn, hw⟩ := hw
  obtain rfl := Option.some.inj hw
  have hsome : (h p).isSome = true := by
    unfold deref at hn
    split at hn
    · simp at hn
    · simp [hn]
  refine ⟨(hc.live p).mpr hsome, hc.nodup.erase p, fun p' => ?_, fun hmem => ?_⟩
  · by_cases hpp : p' = p
    · simp [hpp, hc.nodup.mem_erase_iff]
    · simp [hpp, hc.nodup.mem_erase_iff, hc.live p']
  · exact hc.null (List.mem_of_mem_erase hmem)

theorem raise_census {header : Ptr} {length : UInt64} {t t' : Heap S T × Slots UInt64}
    (hc : Census t.1 ps) (hw : raise header length i t = some t') : Census t'.1 ps := by
  simp only [raise, Option.bind_eq_bind, Option.bind_eq_some_iff] at hw
  obtain ⟨slots, -, h1, hspan, hw⟩ := hw
  obtain rfl := Option.some.inj hw
  exact setSpan_census hc hspan

theorem link_census {slots : Slots UInt64} (hc : Census h ps) (hw : link slots p i h = some h') :
    Census h' ps := by
  simp only [link, Option.bind_eq_bind, Option.bind_eq_some_iff] at hw
  obtain ⟨u, -, r, -, f, -, h1, hw1, h2, hw2, s, -, h3, hw3, hw4⟩ := hw
  exact setSpan_census (setSpan_census (setForward_census (setForward_census hc hw1) hw2) hw3) hw4

theorem bump_census {slots : Slots UInt64} (hc : Census h ps) (hw : bump slots i h = some h') :
    Census h' ps := by
  simp only [bump, Option.bind_eq_bind, Option.bind_eq_some_iff] at hw
  obtain ⟨u, -, s, -, hw⟩ := hw
  exact setSpan_census hc hw

theorem unlink_census {update : Nat → Option Ptr} (hc : Census h ps)
    (hw : unlink update p i h = some h') : Census h' ps := by
  simp only [unlink, Option.bind_eq_bind, Option.bind_eq_some_iff] at hw
  obtain ⟨u, -, f, -, hw⟩ := hw
  split at hw
  · simp only [Option.bind_eq_some_iff] at hw
    obtain ⟨sx, -, su, -, h1, hw1, fx, -, hw2⟩ := hw
    exact setForward_census (setSpan_census hc hw1) hw2
  · simp only [Option.bind_eq_some_iff] at hw
    obtain ⟨su, -, hw⟩ := hw
    exact setSpan_census hc hw

theorem initLevel_census {header : Ptr} (hc : Census h ps) (hw : initLevel header i h = some h') :
    Census h' ps := by
  simp only [initLevel, Option.bind_eq_bind, Option.bind_eq_some_iff] at hw
  obtain ⟨h1, hw1, hw2⟩ := hw
  exact setSpan_census (setForward_census hc hw1) hw2

end Writes

/-- One live node more than `size()` counts. -/
def Balanced (sl : Skiplist S T) : Prop :=
  ∃ ps, Census sl.heap ps ∧ UInt64.ofNat ps.length = sl.length + 1

theorem new_balanced [Zero S] [Inhabited T] {addr : Ptr} {sl : Skiplist S T}
    (h : new addr = some sl) : Balanced sl := by
  simp only [new, Option.bind_eq_bind, Option.bind_eq_some_iff] at h
  obtain ⟨h1, hcreate, h2, hinit, h3, hback, h⟩ := h
  obtain rfl := Option.some.inj h
  have hempty : Census (fun _ => none : Heap S T) [] :=
    ⟨List.nodup_nil, fun p => by simp, List.not_mem_nil⟩
  have hc1 := createNode_census hempty hcreate
  have hc2 := forUp_sound (Census · [addr]) (fun _ _ _ hc hw => initLevel_census hc hw) _ _ _ _
    hc1 hinit
  exact ⟨[addr], setBackward_census hc2 hback, rfl⟩

theorem insertAt_balanced {slots : Slots UInt64} {score : S} {obj : T} {draw : Draw}
    {sl : Skiplist S T} {r : Skiplist S T × Ptr} (hb : Balanced sl)
    (h : insertAt slots score obj draw sl = some r) : Balanced r.1 := by
  obtain ⟨ps, hc, hlen⟩ := hb
  simp only [insertAt, Option.bind_eq_bind, Option.bind_eq_some_iff] at h
  obtain ⟨t, hraise, h1, hcreate, h2, hlink, h3, hbump, u, -, h4, hback, f, -, h5, hbackOf, h⟩ := h
  obtain rfl := Option.some.inj h
  have hc0 := forUp_sound (fun t => Census t.1 ps) (fun _ _ _ hc hw => raise_census hc hw) _ _ _ _
    hc hraise
  have hc1 := createNode_census hc0 hcreate
  have hc2 := forUp_sound (Census · (draw.addr :: ps)) (fun _ _ _ hc hw => link_census hc hw)
    _ _ _ _ hc1 hlink
  have hc3 := forUp_sound (Census · (draw.addr :: ps)) (fun _ _ _ hc hw => bump_census hc hw)
    _ _ _ _ hc2 hbump
  refine ⟨draw.addr :: ps, setBackwardOf_census (setBackward_census hc3 hback) hbackOf, ?_⟩
  rw [List.length_cons, UInt64.ofNat_add, hlen]
  rfl

theorem deleteNodeInternal_balanced {x : Ptr} {update : Nat → Option Ptr}
    {sl sl' : Skiplist S T} (hb : Balanced sl) (h : deleteNodeInternal x update sl = some sl') :
    Balanced sl' := by
  obtain ⟨ps, hc, hlen⟩ := hb
  simp only [deleteNodeInternal, Option.bind_eq_bind, Option.bind_eq_some_iff] at h
  obtain ⟨h1, hunlink, f, -, b, -, h2, hback, h3, hfree, level, -, h⟩ := h
  obtain rfl := Option.some.inj h
  have hc1 := forUp_sound (Census · ps) (fun _ _ _ hc hw => unlink_census hc hw) _ _ _ _ hc hunlink
  obtain ⟨hmem, hc3⟩ := freeNode_census (setBackwardOf_census hc1 hback) hfree
  refine ⟨ps.erase x, hc3, ?_⟩
  have hpos : 0 < ps.length := List.length_pos_of_mem hmem
  have hsub : ps.length = (ps.erase x).length + 1 := by
    rw [List.length_erase_of_mem hmem]
    omega
  rw [hsub, UInt64.ofNat_add] at hlen
  have hone : UInt64.ofNat 1 = 1 := rfl
  rw [hone] at hlen
  have hcancel := congrArg (· - 1) hlen
  simp only [UInt64.add_sub_cancel] at hcancel
  rw [hcancel, UInt64.sub_add_cancel]

section Ordered

variable [LinearOrder S] {cmp : Comparable T}

omit [LinearOrder S] in
theorem deleteWhile_balanced {update : Nat → Option Ptr}
    {more : Heap S T → Ptr → UInt64 → Option Bool} {fuel : Nat} {x : Ptr} {sl : Skiplist S T}
    {removed : UInt64} {r : Skiplist S T × UInt64} (hb : Balanced sl)
    (h : deleteWhile update more fuel (x, sl, removed) = some r) : Balanced r.1 := by
  refine repeatUntil_sound (fun s => Balanced s.2.1) (fun r => Balanced r.1) ?_ ?_ fuel
    (x, sl, removed) r hb h
  · rintro n ⟨x, sl, removed⟩ s' hb hw
    simp only at hw hb
    split at hw
    · simp at hw
    · simp only [Option.bind_eq_bind, Option.bind_eq_some_iff] at hw
      obtain ⟨b, -, hw⟩ := hw
      split at hw
      · simp only [Option.bind_eq_some_iff] at hw
        obtain ⟨next, -, sl1, hdel, hw⟩ := hw
        obtain rfl := Turn.again.inj (Option.some.inj hw)
        exact deleteNodeInternal_balanced hb hdel
      · simp at hw
  · rintro n ⟨x, sl, removed⟩ r hb hw
    simp only at hw hb
    split at hw
    · obtain rfl := Turn.exit.inj (Option.some.inj hw)
      exact hb
    · simp only [Option.bind_eq_bind, Option.bind_eq_some_iff] at hw
      obtain ⟨b, -, hw⟩ := hw
      split at hw
      · simp only [Option.bind_eq_some_iff] at hw
        obtain ⟨next, -, sl1, -, hw⟩ := hw
        simp at hw
      · obtain rfl := Turn.exit.inj (Option.some.inj hw)
        exact hb

/-- **Every operation keeps the balance.** -/
theorem exec_balanced {op : Op S T} {draw : Draw} {sl : Skiplist S T} {fuel : Nat}
    {r : Skiplist S T × Ret} (hb : Balanced sl) (h : exec cmp op draw sl fuel = some r) :
    Balanced r.1 := by
  cases op with
  | insert score obj =>
    simp only [exec, insert, Option.map_eq_some_iff, Option.bind_eq_bind,
      Option.bind_eq_some_iff] at h
    obtain ⟨a, ⟨d, -, hinsert⟩, rfl⟩ := h
    exact insertAt_balanced hb hinsert
  | deleteNode score obj =>
    simp only [exec, deleteNode, Option.map_eq_some_iff, Option.bind_eq_bind,
      Option.bind_eq_some_iff] at h
    obtain ⟨a, ⟨d, -, x, -, h⟩, rfl⟩ := h
    split at h
    · obtain rfl := Option.some.inj h
      exact hb
    · simp only [Option.bind_eq_some_iff] at h
      obtain ⟨n, -, h⟩ := h
      split at h
      · simp only [Option.bind_eq_some_iff] at h
        obtain ⟨sl1, hdel, h⟩ := h
        obtain rfl := Option.some.inj h
        exact deleteNodeInternal_balanced hb hdel
      · obtain rfl := Option.some.inj h
        exact hb
  | deleteRangeByScore lo up =>
    simp only [exec, deleteRangeByScore, Option.map_eq_some_iff, Option.bind_eq_bind,
      Option.bind_eq_some_iff] at h
    obtain ⟨a, ⟨d, -, x, -, hdel⟩, rfl⟩ := h
    exact deleteWhile_balanced hb hdel
  | deleteRangeByRank start end_ =>
    simp only [exec, deleteRangeByRank, Option.map_eq_some_iff] at h
    obtain ⟨a, h, rfl⟩ := h
    split at h
    · obtain rfl := Option.some.inj h
      exact hb
    · simp only [Option.bind_eq_bind, Option.bind_eq_some_iff] at h
      obtain ⟨d, -, x, -, hdel⟩ := h
      exact deleteWhile_balanced hb hdel

theorem run_balanced {steps : List (Step S T)} {sl sl' : Skiplist S T}
    (hrun : Run cmp sl steps sl') (hb : Balanced sl) : Balanced sl' := by
  induction hrun with
  | nil sl => exact hb
  | cons draw hd hret _ ih =>
    obtain ⟨N, hN⟩ := hret
    exact ih (exec_balanced hb (hN N (Nat.le_refl N)))

omit [LinearOrder S] in
/-- A list of different addresses is no longer than the address space. -/
theorem length_le_of_nodup {ps : List Ptr} (h : ps.Nodup) : ps.length ≤ 2 ^ 64 := by
  have hnd : (ps.map UInt64.toNat).Nodup := h.map fun a b h => UInt64.toNat_inj.mp h
  have hsub : ps.map UInt64.toNat ⊆ List.range (2 ^ 64) := by
    intro x hx
    obtain ⟨p, -, rfl⟩ := List.mem_map.mp hx
    exact List.mem_range.mpr p.toNat_lt
  simpa using (hnd.subperm hsub).length_le

omit [LinearOrder S] in
/-- **The live nodes are the header and the nodes of the list.** -/
theorem Balanced.live_iff {sl : Skiplist S T} {ns : List (Entry S T)} (hb : Balanced sl)
    (hr : Rep sl ns) (p : Ptr) :
    (sl.heap p).isSome = true ↔ p ∈ sl.header :: ns.map Entry.ptr := by
  obtain ⟨ps, hc, hlen⟩ := hb
  have hsub : sl.header :: ns.map Entry.ptr ⊆ ps := by
    intro q hq
    obtain ⟨i, hi⟩ := hr.info_of_mem hq
    rw [hc.live]
    by_contra hnone
    have hnil : sl.heap q = none := by simpa using hnone
    rw [(info_eq_none (ne_null_of_info hi)).mpr hnil] at hi
    simp at hi
  have hperm := hr.nodup.subperm hsub
  have hle : (null :: ps).length ≤ 2 ^ 64 :=
    length_le_of_nodup (List.nodup_cons.mpr ⟨hc.null, hc.nodup⟩)
  have hge := hperm.length_le
  simp only [List.length_cons, List.length_map] at hle hge
  have hsame : ps.length = ns.length + 1 := by
    have hnat := congrArg UInt64.toNat hlen
    rw [hr.length, show (1 : UInt64) = UInt64.ofNat 1 from rfl, ← UInt64.ofNat_add,
      toNat_ofNat_of_lt (by omega), toNat_ofNat_of_lt (by omega)] at hnat
    exact hnat
  rw [← hc.live, (hperm.perm_of_length_le (by simp [hsame])).mem_iff]

/-! ## Following pointers -/

/-- From `x`, `step` leads through `ps` to the null pointer. -/
def Path (step : Ptr → Option Ptr) : Ptr → List Ptr → Prop
  | x, [] => x = null
  | x, p :: ps => x = p ∧ p ≠ null ∧ ∃ y, step p = some y ∧ Path step y ps

theorem Path.congr {step step' : Ptr → Option Ptr} :
    ∀ {ps : List Ptr} {x : Ptr}, Path step x ps → (∀ p ∈ ps, step' p = step p) → Path step' x ps
  | [], _, h, _ => h
  | p :: _, _, ⟨hx, hp, y, hy, hrest⟩, hsame =>
      ⟨hx, hp, y, (hsame p List.mem_cons_self).trans hy,
        hrest.congr fun q hq => hsame q (List.mem_cons_of_mem _ hq)⟩

theorem visit_path {step : Ptr → Option Ptr} :
    ∀ {ps : List Ptr} {x : Ptr} (seen : List Ptr), Path step x ps →
      Returns (fun fuel => visit step fuel (x, seen)) (seen ++ ps)
  | [], x, seen, h => by
      obtain rfl : x = null := h
      rw [List.append_nil]
      exact Returns.repeat_exit ⟨0, fun _ _ => by simp⟩
  | p :: ps, x, seen, ⟨hx, hp, y, hy, hrest⟩ => by
      subst hx
      have hmore := visit_path (seen ++ [x]) hrest
      rw [List.append_assoc] at hmore
      exact Returns.repeat_again ⟨0, fun _ _ => by simp [hp, hy]⟩ hmore

omit [LinearOrder S] in
theorem Chain.path {h : Heap S T} : ∀ {ps : List Ptr} {p x : Ptr}, Chain h 0 p ps →
    forward h p 0 = some x → Path (Iterator.next h) x ps
  | [], _, _, hchain, hx => Option.some.inj (hx.symm.trans hchain)
  | _ :: ps, _, _, ⟨hq, hne, hchain⟩, hx => by
      refine ⟨Option.some.inj (hx.symm.trans hq), hne, ?_⟩
      cases ps with
      | nil => exact ⟨null, by simp [Iterator.next, hne, show forward h _ 0 = some null from hchain], rfl⟩
      | cons r ps =>
        exact ⟨r, by simp [Iterator.next, hne, hchain.1], Chain.path hchain hchain.1⟩

omit [LinearOrder S] in
theorem Chain.ne_null {h : Heap S T} {i : Nat} : ∀ {ps : List Ptr} {p : Ptr}, Chain h i p ps →
    ∀ q ∈ ps, q ≠ null
  | [], _, _, _, hq => by simp at hq
  | r :: ps, _, ⟨_, hne, hchain⟩, q, hq => by
      rcases List.mem_cons.mp hq with rfl | hq
      · exact hne
      · exact hchain.ne_null q hq

/-- The backward pointers lead from the end of every beginning of the list
to its first node. -/
theorem Shape.path_back {sl : Skiplist S T} {ps : List Ptr} {l : List (S × T)}
    (h : Shape cmp sl ps l) (qs : List Ptr) :
    qs <+: ps → Path (Iterator.prev sl.heap) ((qs.getLast?).getD null) qs.reverse := by
  induction qs using List.reverseRecOn with
  | nil => exact fun _ => rfl
  | append_singleton rs p ih =>
    intro hpre
    obtain ⟨tail, htail⟩ := hpre
    have hp : ps[rs.length]? = some p := by simp [← htail]
    have hne := h.chain.ne_null p (List.mem_of_getElem? hp)
    have hback : Skip.backward sl.heap p = some ((rs.getLast?).getD null) := by
      rw [h.backward rs.length p hp]
      cases rs using List.reverseRecOn with
      | nil => rfl
      | append_singleton rs q => simp [← htail]
    rw [List.reverse_append]
    refine ⟨by simp, hne, _, ?_, ih ⟨p :: tail, by simp [← htail]⟩⟩
    simp [Iterator.prev, hne, hback]

/-! ## `validate` and `release` -/

/-- The loop of `validate` counts a list in order through to its end. -/
theorem validate_path (h : Heap S T) (length : UInt64) :
    ∀ {ps : List Ptr} {x : Ptr} {l : List (S × T)} (count : UInt64),
      Path (Iterator.next h) x ps → ps.map (entryOf h) = l.map some →
      (l.Pairwise fun a b => a.1 ≤ b.1) →
      Returns (fun fuel => validateLoop h length fuel (x, count))
        (count + UInt64.ofNat ps.length == length)
  | [], x, _, count, hpath, _, _ => by
      obtain rfl : x = null := hpath
      refine Returns.repeat_exit ⟨0, fun _ _ => ?_⟩
      simp
  | p :: ps, x, l, count, ⟨hx, hp, y, hy, hrest⟩, hentries, hsorted => by
      subst hx
      obtain ⟨e, l, rfl⟩ : ∃ e l', l = e :: l' := by
        cases l with
        | nil => simp at hentries
        | cons e l => exact ⟨e, l, rfl⟩
      obtain ⟨he, htail⟩ := List.cons.inj hentries
      obtain ⟨n, hn, rfl⟩ := Option.map_eq_some_iff.mp he
      have hforward : forward h x 0 = some y := by simpa [Iterator.next, hp] using hy
      have horder : outOfOrder h x = some false := by
        cases ps with
        | nil => simp [outOfOrder, hforward, show y = null from hrest]
        | cons q ps =>
          obtain ⟨rfl, hq, -⟩ := hrest
          cases l with
          | nil => simp at htail
          | cons e' l =>
            obtain ⟨m, hm, rfl⟩ := Option.map_eq_some_iff.mp (List.cons.inj htail).1
            have hle := (List.pairwise_cons.mp hsorted).1 _ List.mem_cons_self
            simp [outOfOrder, hforward, hq, hn, hm, hle]
      have hmore := validate_path h length (count + 1) hrest htail (List.pairwise_cons.mp hsorted).2
      have hcount : count + 1 + UInt64.ofNat ps.length = count + UInt64.ofNat (x :: ps).length := by
        rw [List.length_cons, ofNat_succ_add]
      rw [hcount] at hmore
      exact Returns.repeat_again ⟨0, fun _ _ => by simp [hp, horder, hforward]⟩ hmore

omit [LinearOrder S] in
/-- The loop of `release` frees the nodes of a list and nothing else. -/
theorem release_path :
    ∀ {ps : List Ptr} {x : Ptr} {h : Heap S T}, Path (Iterator.next h) x ps → ps.Nodup →
      Returns (fun fuel => releaseLoop fuel (x, h)) fun p => if p ∈ ps then none else h p
  | [], x, h, hpath, _ => by
      obtain rfl : x = null := hpath
      refine Returns.repeat_exit ⟨0, fun _ _ => ?_⟩
      simp
  | p :: ps, x, h, ⟨hx, hp, y, hy, hrest⟩, hnodup => by
      subst hx
      obtain ⟨hnot, hnodup⟩ := List.nodup_cons.mp hnodup
      have hforward : forward h x 0 = some y := by simpa [Iterator.next, hp] using hy
      obtain ⟨n, hn, -⟩ := Option.bind_eq_some_iff.mp hforward
      have hfree : freeNode h x = some (Function.update h x none) := by simp [freeNode, hn]
      have hkept : ∀ q ∈ ps, Iterator.next (Function.update h x none) q = Iterator.next h q := by
        intro q hq
        have hne : q ≠ x := fun heq => hnot (heq ▸ hq)
        simp [Iterator.next, forward, deref_update hp, hne]
      have hmore := release_path (hrest.congr hkept) hnodup
      have hheap : (fun q => if q ∈ ps then none else Function.update h x none q) =
          fun q => if q ∈ x :: ps then none else h q := by
        funext q
        by_cases hq : q = x <;> simp [hq]
      rw [hheap] at hmore
      exact Returns.repeat_again ⟨0, fun _ _ => by simp [hp, hforward, hfree]⟩ hmore

omit [LinearOrder S] in
/-- Where the live nodes are those of the list and the header, the
destructor frees them all. -/
theorem release_returns {sl : Skiplist S T} {ps : List Ptr} {x : Ptr} (hx : first sl = some x)
    (hpath : Path (Iterator.next sl.heap) x ps) (hnodup : (sl.header :: ps).Nodup)
    (hlive : ∀ p, (sl.heap p).isSome = true ↔ p ∈ sl.header :: ps) :
    Returns (release sl) fun _ => none := by
  obtain ⟨hheader, hnodup⟩ := List.nodup_cons.mp hnodup
  obtain ⟨n, hn, -⟩ := Option.bind_eq_some_iff.mp hx
  have hderef : deref (fun p => if p ∈ ps then none else sl.heap p) sl.header = some n := by
    unfold deref at hn ⊢
    simpa [hheader] using hn
  have hempty : Function.update (fun p => if p ∈ ps then none else sl.heap p) sl.header none =
      fun _ => none := by
    funext p
    by_cases hp : p = sl.header
    · simp [hp]
    · by_cases hmem : p ∈ ps
      · simp [hp, hmem]
      · have hdead := mt (hlive p).mp (by simp [hp, hmem])
        simpa [hp, hmem] using hdead
  obtain ⟨N, hN⟩ := release_path hpath hnodup
  refine ⟨N, fun fuel hle => ?_⟩
  simp [release, hx, hN fuel hle, freeNode, hderef, hempty]

/-- Scores in a sorted list do not fall. -/
theorem Sorted.scores {l : List (S × T)} (h : Sorted cmp l) : l.Pairwise fun a b => a.1 ≤ b.1 := by
  refine List.Pairwise.imp (fun {a b} hab => ?_) h
  simp only [before, Bool.or_eq_false_iff, decide_eq_false_iff_not, not_lt] at hab
  exact hab.1

/-- **The life of a skiplist.** In every state a run reaches, whatever
heights and addresses are drawn, `validate` answers true, the iterators
visit the list from either end and stop, and the destructor reads no freed
memory, frees nothing twice and leaves nothing allocated. -/
theorem run_lifecycle [Zero S] [Inhabited T] (cmp : Comparable T) {addr : Ptr}
    (haddr : addr ≠ null) :
    ∃ sl₀ : Skiplist S T, new addr = some sl₀ ∧
      ∀ steps sl, Run cmp sl₀ steps sl → ∃ ps l, Contents sl ps l ∧
        Returns (validate sl) true ∧
        Returns (iterate sl) ps ∧ Returns (iterateBack sl) ps.reverse ∧
        Returns (release sl) fun _ => none := by
  obtain ⟨sl₀, hnew, hi₀⟩ := new_spec (S := S) cmp haddr
  refine ⟨sl₀, hnew, fun steps sl hrun => ?_⟩
  obtain ⟨ns, hi⟩ := run_inv hrun hi₀
  have hshape := hi.shape
  have hlive := (run_balanced hrun (new_balanced hnew)).live_iff hi.rep
  obtain ⟨x, hx⟩ : ∃ x, first sl = some x := ⟨_, hi.rep.forward_zero (Nat.zero_le _)⟩
  have hpath := hshape.chain.path hx
  refine ⟨_, _, hshape.toContents, ?_, ?_, ?_, ?_⟩
  · have hloop := validate_path sl.heap sl.length 0 hpath hshape.entries hshape.sorted.scores
    have hcount : ((0 : UInt64) + UInt64.ofNat (ns.map Entry.ptr).length == sl.length) = true := by
      simp [hi.rep.length]
    rw [hcount] at hloop
    obtain ⟨N, hN⟩ := hloop
    exact ⟨N, fun fuel hle => by simpa [validate, hx] using hN fuel hle⟩
  · obtain ⟨N, hN⟩ := visit_path [] hpath
    exact ⟨N, fun fuel hle => by simpa [iterate, hx] using hN fuel hle⟩
  · have hback := hshape.path_back _ (List.prefix_refl _)
    rw [← hshape.tail] at hback
    have hvisit := visit_path [] hback
    rwa [List.nil_append] at hvisit
  · exact release_returns hx hpath hshape.nodup hlive

/-- Integer scores, numbers for objects. -/
theorem run_lifecycle_int_nat :
    ∃ sl₀ : Skiplist ℤ ℕ, new 1 = some sl₀ ∧
      ∀ steps sl, Run natLess sl₀ steps sl → ∃ ps l, Contents sl ps l ∧
        Returns (validate sl) true ∧
        Returns (iterate sl) ps ∧ Returns (iterateBack sl) ps.reverse ∧
        Returns (release sl) fun _ => none :=
  run_lifecycle natLess (by decide)

end Ordered

end HighJump.Algo.Skip
