/-
HighJump.Algo.SkiplistRep — what a skiplist in memory stands for.

The heap is seen through three readings: `info` (a node without its
levels), `forward` and `span`. Every write has one lemma that says which
of the readings it changes; `Frame i` is what writes at level `i` leave
alone, and lets the loops over the levels be proved one level at a time
(`forUp_levels`).

`Rep sl ns` says that `sl` represents the row `ns` of nodes: at every
level the pointer of a node leads to the next taller one (`Towers.Next`),
spans are differences of positions, and the backward chain, the tail and
the length fit. `descend_spec` is the one fact about searching: where the
test separates the first `c` nodes from the rest, the descent leaves off,
at each level, at the last taller node among them.
-/
import HighJump.Algo.Skiplist
import HighJump.Lib.Towers
import Mathlib.Data.List.Nodup

namespace HighJump.Algo.Skip

open HighJump.Lib HighJump.Lib.Towers

variable {S T : Type}

/-! ## Readings and writes -/

/-- A node without its levels. -/
structure Info (S T : Type) where
  score : S
  obj : T
  backward : Ptr
  height : Nat

def info (h : Heap S T) (p : Ptr) : Option (Info S T) :=
  (deref h p).map fun n => ⟨n.score, n.obj, n.backward, n.height⟩

/-- What writes at level `i` leave alone. -/
structure Frame (i : Nat) (h h' : Heap S T) : Prop where
  info : ∀ p, info h' p = info h p
  forward : ∀ p i', i' ≠ i → forward h' p i' = forward h p i'
  span : ∀ p i', i' ≠ i → span h' p i' = span h p i'

theorem Frame.trans {i : Nat} {h h' h'' : Heap S T} (a : Frame i h h') (b : Frame i h' h'') :
    Frame i h h'' :=
  ⟨fun p => (b.info p).trans (a.info p), fun p i' hi => (b.forward p i' hi).trans (a.forward p i' hi),
    fun p i' hi => (b.span p i' hi).trans (a.span p i' hi)⟩

theorem deref_update {h : Heap S T} {p : Ptr} (hp : p ≠ null) (v : Option (Node S T)) (p' : Ptr) :
    deref (Function.update h p v) p' = if p' = p then v else deref h p' := by
  unfold deref
  by_cases hpp : p' = p
  · subst hpp
    simp [hp]
  · simp [hpp]

theorem deref_of_info {h : Heap S T} {p : Ptr} {n : Info S T} (hn : info h p = some n) :
    ∃ m, deref h p = some m ∧ n = ⟨m.score, m.obj, m.backward, m.height⟩ := by
  obtain ⟨m, hm, rfl⟩ := Option.map_eq_some_iff.mp hn
  exact ⟨m, hm, rfl⟩

theorem ne_null_of_info {h : Heap S T} {p : Ptr} {n : Info S T} (hn : info h p = some n) :
    p ≠ null := by
  rintro rfl
  simp [info, deref] at hn

theorem info_eq_none {h : Heap S T} {p : Ptr} (hp : p ≠ null) : info h p = none ↔ h p = none := by
  simp [info, deref, hp]

section Writes

variable {h : Heap S T} {p : Ptr} {n : Info S T} {i : Nat}

/-! The readings of a heap in which one node has been replaced. -/

theorem info_write (hp : p ≠ null) (m : Node S T) (p' : Ptr) :
    info (Function.update h p (some m)) p' =
      if p' = p then some ⟨m.score, m.obj, m.backward, m.height⟩ else info h p' := by
  rw [info, deref_update hp]
  split <;> rfl

theorem forward_write (hp : p ≠ null) (m : Node S T) (p' : Ptr) (i : Nat) :
    forward (Function.update h p (some m)) p' i =
      if p' = p then (if i < m.height then (m.level i).forward else none) else forward h p' i := by
  rw [forward, deref_update hp]
  split <;> rfl

theorem span_write (hp : p ≠ null) (m : Node S T) (p' : Ptr) (i : Nat) :
    span (Function.update h p (some m)) p' i =
      if p' = p then (if i < m.height then (m.level i).span else none) else span h p' i := by
  rw [span, deref_update hp]
  split <;> rfl

theorem forward_of_deref {m : Node S T} (hm : deref h p = some m) (i : Nat) :
    forward h p i = if i < m.height then (m.level i).forward else none := by
  simp [forward, hm]

theorem span_of_deref {m : Node S T} (hm : deref h p = some m) (i : Nat) :
    span h p i = if i < m.height then (m.level i).span else none := by
  simp [span, hm]

/-- One level of one node is replaced. -/
theorem write_level {m : Node S T} (hm : deref h p = some m) (hp : p ≠ null) (hi : i < m.height)
    {c : Level} {h' : Heap S T}
    (hh' : h' = Function.update h p (some { m with level := Function.update m.level i c })) :
    Frame i h h' ∧ (∀ p', forward h' p' i = if p' = p then c.forward else forward h p' i) ∧
      ∀ p', span h' p' i = if p' = p then c.span else span h p' i := by
  subst hh'
  refine ⟨⟨fun p' => ?_, fun p' i' hne => ?_, fun p' i' hne => ?_⟩, fun p' => ?_, fun p' => ?_⟩
  · rw [info_write hp]
    split
    · rename_i heq
      rw [heq, info, hm, Option.map_some]
    · rfl
  · simp only [forward_write hp, Function.update_of_ne hne]
    split
    · rename_i heq
      rw [heq, forward_of_deref hm]
    · rfl
  · simp only [span_write hp, Function.update_of_ne hne]
    split
    · rename_i heq
      rw [heq, span_of_deref hm]
    · rfl
  · simp only [forward_write hp, Function.update_self, if_pos hi]
  · simp only [span_write hp, Function.update_self, if_pos hi]

theorem setForward_spec (hn : info h p = some n) (hi : i < n.height) (q : Ptr) :
    ∃ h', setForward h p i q = some h' ∧ Frame i h h' ∧
      (∀ p', forward h' p' i = if p' = p then some q else forward h p' i) ∧
      ∀ p', span h' p' i = span h p' i := by
  obtain ⟨m, hm, rfl⟩ := deref_of_info hn
  obtain ⟨hframe, hforward, hspan⟩ := write_level hm (ne_null_of_info hn) hi
    (c := { m.level i with forward := some q }) rfl
  refine ⟨_, ?_, hframe, hforward, fun p' => ?_⟩
  · rw [setForward, hm, Option.bind_eq_bind, Option.bind_some]
    exact if_pos hi
  · rw [hspan]
    split
    · rename_i heq
      rw [heq, span_of_deref hm, if_pos hi]
    · rfl

theorem setSpan_spec (hn : info h p = some n) (hi : i < n.height) (s : UInt64) :
    ∃ h', setSpan h p i s = some h' ∧ Frame i h h' ∧
      (∀ p', forward h' p' i = forward h p' i) ∧
      ∀ p', span h' p' i = if p' = p then some s else span h p' i := by
  obtain ⟨m, hm, rfl⟩ := deref_of_info hn
  obtain ⟨hframe, hforward, hspan⟩ := write_level hm (ne_null_of_info hn) hi
    (c := { m.level i with span := some s }) rfl
  refine ⟨_, ?_, hframe, fun p' => ?_, hspan⟩
  · rw [setSpan, hm, Option.bind_eq_bind, Option.bind_some]
    exact if_pos hi
  · rw [hforward]
    split
    · rename_i heq
      rw [heq, forward_of_deref hm, if_pos hi]
    · rfl

theorem setBackward_spec (hn : info h p = some n) (q : Ptr) :
    ∃ h', setBackward h p q = some h' ∧
      (∀ p', info h' p' = if p' = p then some { n with backward := q } else info h p') ∧
      (∀ p' i, forward h' p' i = forward h p' i) ∧ ∀ p' i, span h' p' i = span h p' i := by
  obtain ⟨m, hm, rfl⟩ := deref_of_info hn
  have hp := ne_null_of_info hn
  refine ⟨_, by simp only [setBackward, hm, Option.bind_eq_bind, Option.bind_some]; rfl,
    fun p' => ?_, fun p' i => ?_, fun p' i => ?_⟩
  · rw [info_write hp]
  · rw [forward_write hp]
    split <;> simp_all [forward_of_deref hm]
  · rw [span_write hp]
    split <;> simp_all [span_of_deref hm]

theorem createNode_spec (hp : p ≠ null) (hfree : h p = none) (height : Nat) (score : S) (obj : T) :
    ∃ h', createNode h p height score obj = some h' ∧
      (∀ p', info h' p' = if p' = p then some ⟨score, obj, null, height⟩ else info h p') ∧
      (∀ p' i, p' ≠ p → forward h' p' i = forward h p' i) ∧
      ∀ p' i, p' ≠ p → span h' p' i = span h p' i := by
  have hc : createNode h p height score obj =
      some (Function.update h p (some ⟨obj, score, null, height, fun _ => ⟨none, none⟩⟩)) := by
    simp [createNode, hp, hfree]
  refine ⟨_, hc, fun p' => ?_, fun p' i hne => ?_, fun p' i hne => ?_⟩
  · rw [info_write hp]
  · rw [forward_write hp, if_neg hne]
  · rw [span_write hp, if_neg hne]

theorem freeNode_spec (hn : info h p = some n) :
    ∃ h', freeNode h p = some h' ∧ (∀ p', info h' p' = if p' = p then none else info h p') ∧
      (∀ p' i, p' ≠ p → forward h' p' i = forward h p' i) ∧
      ∀ p' i, p' ≠ p → span h' p' i = span h p' i := by
  obtain ⟨m, hm, -⟩ := deref_of_info hn
  have hp := ne_null_of_info hn
  refine ⟨_, by simp only [freeNode, hm, Option.bind_eq_bind, Option.bind_some]; rfl,
    fun p' => ?_, fun p' i hne => ?_, fun p' i hne => ?_⟩
  · by_cases hpp : p' = p <;> simp [info, deref_update hp, hpp]
  · simp [forward, deref_update hp, hne]
  · simp [span, deref_update hp, hne]

end Writes

/-- A loop over the levels whose body works at its own level only. -/
theorem forUp_levels {body : Nat → Heap S T → Option (Heap S T)} {h : Heap S T} (a n : Nat)
    (Q : Heap S T → Nat → Prop)
    (hQ : ∀ h1 h2 i, Q h1 i → (∀ p, forward h2 p i = forward h1 p i) →
      (∀ p, span h2 p i = span h1 p i) → Q h2 i)
    (hbody : ∀ i h1, a ≤ i → i < a + n → (∀ p, info h1 p = info h p) →
      (∀ p, forward h1 p i = forward h p i) → (∀ p, span h1 p i = span h p i) →
      ∃ h2, body i h1 = some h2 ∧ Frame i h1 h2 ∧ Q h2 i) :
    ∃ h', forUp body n a h = some h' ∧ (∀ p, info h' p = info h p) ∧
      (∀ i, a ≤ i → i < a + n → Q h' i) ∧
      ∀ i, i < a ∨ a + n ≤ i →
        (∀ p, forward h' p i = forward h p i) ∧ ∀ p, span h' p i = span h p i := by
  refine (forUp_spec
    (fun j h1 => (∀ p, info h1 p = info h p) ∧ (∀ i, a ≤ i → i < j → Q h1 i) ∧
      ∀ i, i < a ∨ j ≤ i → (∀ p, forward h1 p i = forward h p i) ∧ ∀ p, span h1 p i = span h p i)
    n a h (fun j h1 hj hlt ⟨hinfo, hdone, hrest⟩ => ?_)
    ⟨fun _ => rfl, fun i h1 h2 => by omega, fun _ _ => ⟨fun _ => rfl, fun _ => rfl⟩⟩)
  obtain ⟨hf, hs⟩ := hrest j (.inr le_rfl)
  obtain ⟨h2, hb, hframe, hq⟩ := hbody j h1 hj hlt hinfo hf hs
  refine ⟨h2, hb, fun p => (hframe.info p).trans (hinfo p), fun i hai hij => ?_, fun i hi => ?_⟩
  · by_cases hij' : i = j
    · exact hij' ▸ hq
    · exact hQ h1 h2 i (hdone i hai (by omega)) (fun p => hframe.forward p i hij')
        fun p => hframe.span p i hij'
  · have hij' : i ≠ j := by omega
    obtain ⟨hf, hs⟩ := hrest i (by omega)
    exact ⟨fun p => (hframe.forward p i hij').trans (hf p),
      fun p => (hframe.span p i hij').trans (hs p)⟩

/-! ## The row of nodes -/

/-- A node as the row lists it. -/
structure Entry (S T : Type) where
  ptr : Ptr
  score : S
  obj : T
  height : Nat

/-- The address at a position: the header at 0, the nodes from 1 on, null
past the last. -/
def ptrAt (header : Ptr) (ns : List (Entry S T)) : Nat → Ptr
  | 0 => header
  | k + 1 => match ns[k]? with
    | some e => e.ptr
    | none => null

/-- The height at a position. -/
def heightAt (ns : List (Entry S T)) : Nat → Nat
  | 0 => maxLevel
  | k + 1 => match ns[k]? with
    | some e => e.height
    | none => 0

/-- Every pointer of level `i` leads to the next taller node. -/
def ForwardOk (h : Heap S T) (header : Ptr) (ns : List (Entry S T)) (i : Nat) : Prop :=
  ∀ k j, k ≤ ns.length → i < heightAt ns k → Next (heightAt ns) ns.length i k j →
    forward h (ptrAt header ns k) i = some (ptrAt header ns j)

/-- Every span of level `i` counts the positions to there, or to the
end. -/
def SpanOk (h : Heap S T) (header : Ptr) (ns : List (Entry S T)) (i : Nat) : Prop :=
  ∀ k j, k ≤ ns.length → i < heightAt ns k → Next (heightAt ns) ns.length i k j →
    span h (ptrAt header ns k) i = some (UInt64.ofNat (min j ns.length - k))

/-- `sl` represents the row `ns`. -/
structure Rep (sl : Skiplist S T) (ns : List (Entry S T)) : Prop where
  header : ∃ n, info sl.heap sl.header = some n ∧ n.height = maxLevel
  node : ∀ k e, ns[k]? = some e → info sl.heap e.ptr =
    some ⟨e.score, e.obj, if k = 0 then null else ptrAt sl.header ns k, e.height⟩
  nodup : (sl.header :: ns.map Entry.ptr).Nodup
  level_pos : 1 ≤ sl.level
  level_le : sl.level ≤ maxLevel
  height : ∀ e ∈ ns, 1 ≤ e.height ∧ e.height ≤ sl.level
  forward : ∀ i, ForwardOk sl.heap sl.header ns i
  span : ∀ i, i < sl.level → SpanOk sl.heap sl.header ns i
  tail : sl.tail = if ns = [] then null else ptrAt sl.header ns ns.length
  length : sl.length = UInt64.ofNat ns.length

section Rep

variable {sl : Skiplist S T} {ns : List (Entry S T)}

theorem ptrAt_mem (header : Ptr) {k : Nat} (hk : k ≤ ns.length) :
    ptrAt header ns k ∈ header :: ns.map Entry.ptr := by
  cases k with
  | zero => exact List.mem_cons_self
  | succ k =>
    have hk' : k < ns.length := hk
    simp only [ptrAt, List.getElem?_eq_getElem hk']
    exact List.mem_cons_of_mem _ (List.mem_map_of_mem (List.getElem_mem hk'))

theorem ptrAt_eq_getElem (header : Ptr) {k : Nat} (hk : k < (header :: ns.map Entry.ptr).length) :
    ptrAt header ns k = (header :: ns.map Entry.ptr)[k] := by
  cases k with
  | zero => rfl
  | succ k =>
    have hk' : k < ns.length := by simpa using hk
    simp [ptrAt, List.getElem?_eq_getElem hk']

/-- Different positions have different addresses. -/
theorem Rep.ptrAt_inj (hr : Rep sl ns) {k j : Nat} (hk : k ≤ ns.length) (hj : j ≤ ns.length)
    (h : ptrAt sl.header ns k = ptrAt sl.header ns j) : k = j := by
  have hlen : (sl.header :: ns.map Entry.ptr).length = ns.length + 1 := by simp
  rw [ptrAt_eq_getElem sl.header (by omega), ptrAt_eq_getElem sl.header (by omega)] at h
  exact (List.Nodup.getElem_inj_iff hr.nodup).mp h

theorem ptrAt_past (header : Ptr) {k : Nat} (hk : ns.length < k) : ptrAt header ns k = null := by
  cases k with
  | zero => omega
  | succ k => simp [ptrAt, List.getElem?_eq_none (show ns.length ≤ k by omega)]

/-- What stands at a position is a node of the recorded height. -/
theorem Rep.info_at (hr : Rep sl ns) {k : Nat} (hk : k ≤ ns.length) :
    ∃ n, info sl.heap (ptrAt sl.header ns k) = some n ∧ n.height = heightAt ns k := by
  cases k with
  | zero => exact hr.header
  | succ k =>
    have hk' : ns[k]? = some ns[k] := List.getElem?_eq_getElem hk
    refine ⟨_, by simp only [ptrAt, hk']; exact hr.node k _ hk', by simp [heightAt, hk']⟩

theorem Rep.ptrAt_ne_null (hr : Rep sl ns) {k : Nat} (hk : k ≤ ns.length) :
    ptrAt sl.header ns k ≠ null := by
  obtain ⟨n, hn, -⟩ := hr.info_at hk
  exact ne_null_of_info hn

theorem Rep.heightAt_pos (hr : Rep sl ns) {k : Nat} (hk : k ≤ ns.length) : 0 < heightAt ns k := by
  cases k with
  | zero => simp [heightAt, maxLevel]
  | succ k =>
    have hk' : ns[k]? = some ns[k] := List.getElem?_eq_getElem hk
    simp only [heightAt, hk']
    exact (hr.height _ (List.getElem_mem hk)).1

theorem Rep.heightAt_le (hr : Rep sl ns) {k : Nat} (hk : 0 < k) : heightAt ns k ≤ sl.level := by
  obtain ⟨k, rfl⟩ : ∃ m, k = m + 1 := ⟨k - 1, by omega⟩
  simp only [heightAt]
  cases hk : ns[k]? with
  | none => exact Nat.zero_le _
  | some e => exact (hr.height e (List.mem_of_getElem? hk)).2

/-! ## Searching -/

section Search

variable {α : Type} {go : Nat → α → Ptr → Ptr → Option Bool} {count : Nat → α → Ptr → Option α}

/-- The test of a search tells the first `c` nodes from the rest, and its
count, right at a position (`A`), stays right on the way there. -/
structure Separates (sl : Skiplist S T) (ns : List (Entry S T))
    (go : Nat → α → Ptr → Ptr → Option Bool) (count : Nat → α → Ptr → Option α) (c : Nat)
    (A : Nat → α → Prop) : Prop where
  go : ∀ i k j acc, i < sl.level → k ≤ c → i < heightAt ns k →
    Next (heightAt ns) ns.length i k j → j ≤ ns.length → A k acc →
    go i acc (ptrAt sl.header ns k) (ptrAt sl.header ns j) = some (decide (j ≤ c))
  count : ∀ i k j acc, i < sl.level → k ≤ c → i < heightAt ns k →
    Next (heightAt ns) ns.length i k j → j ≤ c → A k acc →
    ∃ acc', count i acc (ptrAt sl.header ns k) = some acc' ∧ A j acc'

variable {c : Nat} {A : Nat → α → Prop}

/-- Walking along level `i` from a taller position ends at the floor of
the cut. -/
theorem walk_spec (hr : Rep sl ns) (hc : c ≤ ns.length) (hsep : Separates sl ns go count c A)
    {i : Nat} (hi : i < sl.level) :
    ∀ (d k : Nat) (acc : α), c = k + d → i < heightAt ns k → A k acc →
      ∃ u acc', Floor (heightAt ns) c i u ∧ A u acc' ∧ ∀ fuel, c < fuel + k →
        walk sl.heap go count i fuel (ptrAt sl.header ns k, acc) =
          some (ptrAt sl.header ns u, acc') := by
  intro d
  induction d using Nat.strong_induction_on with
  | _ d ih =>
    intro k acc hd htall hA
    obtain ⟨j, hj⟩ := exists_next (heightAt ns) i (show k ≤ ns.length by omega)
    have hf := hr.forward i k j (by omega) htall hj
    have hlt := hj.lt
    by_cases hjc : j ≤ c
    · -- the next node is among the first `c`: one step and the rest
      obtain ⟨acc1, hcount, hA1⟩ := hsep.count i k j acc hi (by omega) htall hj hjc hA
      have hgo := hsep.go i k j acc hi (by omega) htall hj (by omega) hA
      obtain ⟨u, acc', hu, hA', hrun⟩ := ih (c - j) (by omega) j acc1 (by omega)
        (hj.tall (by omega)) hA1
      refine ⟨u, acc', hu, hA', fun fuel hfuel => ?_⟩
      obtain ⟨fuel, rfl⟩ : ∃ m, fuel = m + 1 := ⟨fuel - 1, by omega⟩
      rw [← hrun fuel (by omega)]
      refine repeatUntil_again ?_
      simp [hf, hr.ptrAt_ne_null (show j ≤ ns.length by omega), hgo, hcount, hjc]
    · -- the next node, if any, is beyond the cut
      refine ⟨k, acc, hj.floor (by omega) (by omega) htall, hA, fun fuel hfuel => ?_⟩
      obtain ⟨fuel, rfl⟩ : ∃ m, fuel = m + 1 := ⟨fuel - 1, by omega⟩
      refine repeatUntil_exit ?_
      by_cases hjn : j ≤ ns.length
      · have hgo := hsep.go i k j acc hi (by omega) htall hj hjn hA
        simp [hf, hr.ptrAt_ne_null hjn, hgo, hjc]
      · simp [hf, ptrAt_past sl.header (show ns.length < j by omega)]

/-- Slots that hold, up to level `l`, the floors of the cut. -/
def SlotsOk (header : Ptr) (ns : List (Entry S T)) (c : Nat) (A : Nat → α → Prop) (l : Nat)
    (slots : Slots α) : Prop :=
  ∀ i, i < l → ∃ u acc, Floor (heightAt ns) c i u ∧ A u acc ∧
    slots.fetch i = some (ptrAt header ns u, acc)

theorem descend_levels (hr : Rep sl ns) (hc : c ≤ ns.length)
    (hsep : Separates sl ns go count c A) :
    ∀ (l k : Nat) (acc : α) (slots : Slots α), l ≤ sl.level → k ≤ c → l ≤ heightAt ns k →
      (l = 0 → k = c) → A k acc →
      ∃ acc' slots', A c acc' ∧ SlotsOk sl.header ns c A l slots' ∧
        (∀ i, l ≤ i → slots' i = slots i) ∧
        ∀ fuel, c < fuel → descend sl.heap go count fuel l (ptrAt sl.header ns k, acc) slots =
          some ((ptrAt sl.header ns c, acc'), slots') := by
  intro l
  induction l with
  | zero =>
    intro k acc slots _ hk _ hkc hA
    obtain rfl := hkc rfl
    exact ⟨acc, slots, hA, fun i hi => absurd hi (Nat.not_lt_zero i), fun _ _ => rfl,
      fun fuel _ => rfl⟩
  | succ l ih =>
    intro k acc slots hl hk htall _ hA
    obtain ⟨u, acc1, hu, hA1, hwalk⟩ :=
      walk_spec hr hc hsep (show l < sl.level by omega) (c - k) k acc (by omega) (by omega) hA
    have hmax : l < maxLevel := by have := hr.level_le; omega
    -- the walk at level 0 ends at the cut itself
    have hlast : l = 0 → u = c := by
      rintro rfl
      exact hu.eq_cut fun m hm => hr.heightAt_pos (by omega)
    obtain ⟨acc', slots', hA', hok, hrest, hrun⟩ := ih u acc1
      (Function.update slots l (some (ptrAt sl.header ns u, acc1))) (by omega) hu.le
      (by have := hu.tall; omega) hlast hA1
    refine ⟨acc', slots', hA', fun i hi => ?_, fun i hi => ?_, fun fuel hfuel => ?_⟩
    · by_cases hil : i = l
      · subst hil
        refine ⟨u, acc1, hu, hA1, ?_⟩
        rw [Slots.fetch, if_pos hmax, hrest i le_rfl, Function.update_self]
      · exact hok i (by omega)
    · rw [hrest i (by omega), Function.update_of_ne (by omega)]
    · rw [descend, hwalk fuel (by omega)]
      simp only [Option.bind_eq_bind, Option.bind_some, Slots.store, hmax, if_true]
      exact hrun fuel hfuel

/-- **The descent ends at the cut**, and its slots hold the floors of the
cut at every level in use. -/
theorem descend_spec (hr : Rep sl ns) (hc : c ≤ ns.length)
    (hsep : Separates sl ns go count c A) {acc : α} (hA : A 0 acc) :
    ∃ acc' slots, A c acc' ∧ SlotsOk sl.header ns c A sl.level slots ∧
      ∀ fuel, c < fuel →
        descend sl.heap go count fuel sl.level (sl.header, acc) (fun _ => none) =
          some ((ptrAt sl.header ns c, acc'), slots) := by
  have hpos := hr.level_pos
  obtain ⟨acc', slots, hA', hok, -, hrun⟩ := descend_levels hr hc hsep sl.level 0 acc (fun _ => none)
    le_rfl (Nat.zero_le c) hr.level_le (by omega) hA
  exact ⟨acc', slots, hA', hok, hrun⟩

/-- The node after the cut. -/
theorem Rep.forward_zero (hr : Rep sl ns) {k : Nat} (hk : k ≤ ns.length) :
    Skip.forward sl.heap (ptrAt sl.header ns k) 0 = some (ptrAt sl.header ns (k + 1)) := by
  obtain ⟨j, hj⟩ := exists_next (heightAt ns) 0 hk
  rw [hr.forward 0 k j hk (hr.heightAt_pos hk) hj, hj.eq_succ fun m hm => hr.heightAt_pos hm]

end Search

end Rep

end HighJump.Algo.Skip
