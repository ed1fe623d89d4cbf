/-
HighJump.Algo.SkiplistInsert — putting one node into the row.

`insert` works level by level. `link_spec` and `bump_spec` turn a level
of the old row into the same level of the new one, with
`Splice.next_inv` saying what stands next to what afterwards; the levels
the new tower is first to reach are in use, and empty, before it is
linked in (`raise_spec`). Spans are sums and differences modulo 2^64, so
their arithmetic needs no bound on the length.
-/
import HighJump.Algo.SkiplistRep

namespace HighJump.Algo.Skip

open HighJump.Lib HighJump.Lib.Towers

variable {S T : Type}

/-! ## Rows that differ by one node -/

section Row

variable (header : Ptr) (A B : List (Entry S T)) (e : Entry S T)

theorem ptrAt_append {m : Nat} (hm : m ≤ A.length) : ptrAt header (A ++ B) m = ptrAt header A m := by
  cases m with
  | zero => rfl
  | succ m =>
    have hm' : m < A.length := hm
    simp only [ptrAt, List.getElem?_append_left hm']

theorem heightAt_append {m : Nat} (hm : m ≤ A.length) : heightAt (A ++ B) m = heightAt A m := by
  cases m with
  | zero => rfl
  | succ m =>
    have hm' : m < A.length := hm
    simp only [heightAt, List.getElem?_append_left hm']

theorem ptrAt_low {m : Nat} (hm : m ≤ A.length) :
    ptrAt header (A ++ e :: B) m = ptrAt header (A ++ B) m := by
  rw [ptrAt_append header A _ hm, ptrAt_append header A _ hm]

theorem ptrAt_of_get {ns : List (Entry S T)} {k : Nat} {e : Entry S T} (h : ns[k]? = some e) :
    ptrAt header ns (k + 1) = e.ptr := by
  simp [ptrAt, h]

theorem ptrAt_mid : ptrAt header (A ++ e :: B) (A.length + 1) = e.ptr := by
  simp [ptrAt]

theorem ptrAt_high {m : Nat} (hm : A.length < m) :
    ptrAt header (A ++ e :: B) (m + 1) = ptrAt header (A ++ B) m := by
  obtain ⟨m, rfl⟩ : ∃ k, m = k + 1 := ⟨m - 1, by omega⟩
  have h1 : m + 1 - A.length = (m - A.length) + 1 := by omega
  simp only [ptrAt, List.getElem?_append_right (show A.length ≤ m + 1 by omega),
    List.getElem?_append_right (show A.length ≤ m by omega), h1, List.getElem?_cons_succ]

theorem heightAt_mid : heightAt (A ++ e :: B) (A.length + 1) = e.height := by
  simp [heightAt]

theorem row_splice : Splice (heightAt (A ++ B)) (heightAt (A ++ e :: B)) A.length := by
  refine ⟨fun m hm => ?_, fun m hm => ?_⟩
  · rw [heightAt_append A _ hm, heightAt_append A _ hm]
  · obtain ⟨m, rfl⟩ : ∃ k, m = k + 1 := ⟨m - 1, by omega⟩
    have h1 : m + 1 - A.length = (m - A.length) + 1 := by omega
    simp only [heightAt, List.getElem?_append_right (show A.length ≤ m + 1 by omega),
      List.getElem?_append_right (show A.length ≤ m by omega), h1, List.getElem?_cons_succ]

/-- The nodes of the longer row, found in the shorter one. -/
theorem row_get {k : Nat} {e' : Entry S T} (h : (A ++ e :: B)[k]? = some e') :
    (k < A.length ∧ (A ++ B)[k]? = some e') ∨ (k = A.length ∧ e' = e) ∨
      ∃ m, k = m + 1 ∧ A.length ≤ m ∧ (A ++ B)[m]? = some e' := by
  rcases Nat.lt_trichotomy k A.length with hk | rfl | hk
  · refine .inl ⟨hk, ?_⟩
    rw [List.getElem?_append_left hk] at h ⊢
    exact h
  · refine .inr (.inl ⟨rfl, ?_⟩)
    rw [List.getElem?_append_right le_rfl, Nat.sub_self, List.getElem?_cons_zero] at h
    exact (Option.some.inj h).symm
  · obtain ⟨m, rfl⟩ : ∃ m, k = m + 1 := ⟨k - 1, by omega⟩
    refine .inr (.inr ⟨m, rfl, by omega, ?_⟩)
    rw [List.getElem?_append_right (by omega),
      show m + 1 - A.length = m - A.length + 1 by omega, List.getElem?_cons_succ] at h
    rw [List.getElem?_append_right (by omega)]
    exact h

theorem length_row : (A ++ e :: B).length = (A ++ B).length + 1 := by
  simp only [List.length_append, List.length_cons]
  omega

end Row

/-- A level that fits the row: pointers and spans. -/
def LevelOk (h : Heap S T) (header : Ptr) (ns : List (Entry S T)) (i : Nat) : Prop :=
  ∀ k j, k ≤ ns.length → i < heightAt ns k → Next (heightAt ns) ns.length i k j →
    forward h (ptrAt header ns k) i = some (ptrAt header ns j) ∧
    span h (ptrAt header ns k) i = some (UInt64.ofNat (min j ns.length - k))

theorem LevelOk.congr {h h' : Heap S T} {header : Ptr} {ns : List (Entry S T)} {i : Nat}
    (hok : LevelOk h header ns i)
    (hf : ∀ k, k ≤ ns.length → forward h' (ptrAt header ns k) i = forward h (ptrAt header ns k) i)
    (hs : ∀ k, k ≤ ns.length → span h' (ptrAt header ns k) i = span h (ptrAt header ns k) i) :
    LevelOk h' header ns i := by
  intro k j hk ht hn
  obtain ⟨h1, h2⟩ := hok k j hk ht hn
  exact ⟨(hf k hk).trans h1, (hs k hk).trans h2⟩

/-! ## Linking a node in -/

/-- The addresses of the row are those of different live nodes, and none
of them is `x`. -/
structure Ready (h : Heap S T) (header : Ptr) (ns : List (Entry S T)) (x : Ptr) (height : Nat) :
    Prop where
  at_info : ∀ k, k ≤ ns.length →
    ∃ n, info h (ptrAt header ns k) = some n ∧ n.height = heightAt ns k
  inj : ∀ k j, k ≤ ns.length → j ≤ ns.length → ptrAt header ns k = ptrAt header ns j → k = j
  x_info : ∃ n, info h x = some n ∧ n.height = height
  x_ne : ∀ k, k ≤ ns.length → ptrAt header ns k ≠ x

theorem Ready.congr {h h' : Heap S T} {header x : Ptr} {ns : List (Entry S T)} {height : Nat}
    (hr : Ready h header ns x height) (hinfo : ∀ p, info h' p = info h p) :
    Ready h' header ns x height :=
  ⟨fun k hk => by rw [hinfo]; exact hr.at_info k hk, hr.inj, by rw [hinfo]; exact hr.x_info,
    hr.x_ne⟩

/-- The rank a search counts at a position. -/
def IsRank (u : Nat) (rank : UInt64) : Prop := rank = UInt64.ofNat u

section Link

variable {h h' : Heap S T} {header : Ptr} {A B : List (Entry S T)} {e : Entry S T} {i l u j : Nat}
  {slots : Slots UInt64}

theorem cut_le (A B : List (Entry S T)) : A.length ≤ (A ++ B).length := by
  rw [List.length_append]
  omega

/-- A level of the old row that still fits at every position but the
floor `u` of the cut fits the new row as soon as `u` does, and the new
node if it reaches the level. -/
theorem LevelOk.splice (hok : LevelOk h header (A ++ B) i)
    (hu : Floor (heightAt (A ++ B)) A.length i u)
    (hj : Next (heightAt (A ++ B)) (A ++ B).length i u j)
    (hother : ∀ m, m ≤ (A ++ B).length → m ≠ u →
      forward h' (ptrAt header (A ++ B) m) i = forward h (ptrAt header (A ++ B) m) i ∧
      span h' (ptrAt header (A ++ B) m) i = span h (ptrAt header (A ++ B) m) i)
    (hlow : i < e.height →
      forward h' (ptrAt header (A ++ B) u) i = some e.ptr ∧
      span h' (ptrAt header (A ++ B) u) i = some (UInt64.ofNat (A.length + 1 - u)) ∧
      forward h' e.ptr i = some (ptrAt header (A ++ B) j) ∧
      span h' e.ptr i = some (UInt64.ofNat (min j (A ++ B).length - A.length)))
    (hhigh : e.height ≤ i →
      forward h' (ptrAt header (A ++ B) u) i = some (ptrAt header (A ++ B) j) ∧
      span h' (ptrAt header (A ++ B) u) i = some (UInt64.ofNat (min j (A ++ B).length + 1 - u))) :
    LevelOk h' header (A ++ e :: B) i := by
  have hc := cut_le A B
  have hule := hu.le
  have hcj := hu.lt_next hc hj
  have hjl := hj.le
  have hmid := heightAt_mid A B e
  intro k j' hk htall hnext
  rw [length_row] at hk hnext ⊢
  rcases (row_splice A B e).next_inv hc hu hj hk htall hnext with
    ⟨hkc, hku, hjc, hold⟩ | ⟨rfl, hH, rfl⟩ | ⟨rfl, hH, rfl⟩ | ⟨rfl, rfl⟩ |
    ⟨m, l', hcm, hmn, rfl, rfl, hmt, hold⟩
  · -- before the cut, away from the floor
    obtain ⟨h1, h2⟩ := hother k (by omega) hku
    obtain ⟨h3, h4⟩ := hok k j' (by omega) (by rwa [← (row_splice A B e).low k hkc]) hold
    rw [ptrAt_low header A B e hkc, ptrAt_low header A B e hjc, h1, h2, h3, h4]
    exact ⟨rfl, by rw [Nat.min_eq_left (by omega), Nat.min_eq_left (by omega)]⟩
  · -- the floor, now before the new node
    obtain ⟨h1, h2, -⟩ := hlow (hmid ▸ hH)
    rw [ptrAt_low header A B e hule, ptrAt_mid, h1, h2]
    exact ⟨rfl, by rw [Nat.min_eq_left (by omega)]⟩
  · -- the floor, passing over the new node
    obtain ⟨h1, h2⟩ := hhigh (hmid ▸ hH)
    rw [ptrAt_low header A B e hule, ptrAt_high header A B e hcj, h1, h2]
    exact ⟨rfl, by rw [Nat.add_min_add_right]⟩
  · -- the new node
    obtain ⟨-, -, h1, h2⟩ := hlow (hmid ▸ htall)
    rw [ptrAt_mid, ptrAt_high header A B e hcj, h1, h2]
    exact ⟨rfl, by rw [Nat.add_min_add_right, Nat.add_sub_add_right]⟩
  · -- beyond the cut
    have hl' := hold.lt
    obtain ⟨h1, h2⟩ := hother m hmn (by omega)
    obtain ⟨h3, h4⟩ := hok m l' hmn hmt hold
    rw [ptrAt_high header A B e hcm, ptrAt_high header A B e (by omega), h1, h2, h3, h4]
    exact ⟨rfl, by rw [Nat.add_min_add_right, Nat.add_sub_add_right]⟩

/-- The span arithmetic of `insert`, modulo 2^64. -/
theorem span_link {n c : Nat} (hu : u ≤ c) (hc : c ≤ n) (hcj : c < j) :
    UInt64.ofNat c - UInt64.ofNat u + 1 = UInt64.ofNat (c + 1 - u) ∧
    UInt64.ofNat (min j n - u) - (UInt64.ofNat c - UInt64.ofNat u) =
      UInt64.ofNat (min j n - c) := by
  constructor
  · rw [show c + 1 - u = c - u + 1 by omega, UInt64.ofNat_add, UInt64.ofNat_sub hu]
    rfl
  · rw [← UInt64.ofNat_sub hu, ← UInt64.ofNat_sub (by omega)]
    congr 1
    omega

/-- Linking the new node in at one of its levels. -/
theorem link_spec (hrd : Ready h header (A ++ B) e.ptr e.height)
    (hok : LevelOk h header (A ++ B) i)
    (hslots : SlotsOk header (A ++ B) A.length IsRank l slots) (hil : i < l)
    (hrank : ∃ p, slots.fetch 0 = some (p, UInt64.ofNat A.length)) (hie : i < e.height) :
    ∃ h', link slots e.ptr i h = some h' ∧ Frame i h h' ∧ LevelOk h' header (A ++ e :: B) i := by
  have hc := cut_le A B
  obtain ⟨u, rank, hu, hur, hfetch⟩ := hslots i hil
  obtain rfl : rank = UInt64.ofNat u := hur
  obtain ⟨p0, hp0⟩ := hrank
  have hun : u ≤ (A ++ B).length := hu.le.trans hc
  obtain ⟨j, hj⟩ := exists_next (heightAt (A ++ B)) i hun
  obtain ⟨hfu, hsu⟩ := hok u j hun hu.tall hj
  obtain ⟨nu, hnu, hnuh⟩ := hrd.at_info u hun
  obtain ⟨nx, hnx, hnxh⟩ := hrd.x_info
  have hux := hrd.x_ne u hun
  obtain ⟨harith1, harith2⟩ := span_link hu.le hc (hu.lt_next hc hj)
  -- the four writes
  obtain ⟨h1, hw1, hfr1, hf1, hs1⟩ := setForward_spec hnx (hnxh ▸ hie)
    (ptrAt header (A ++ B) j)
  obtain ⟨h2, hw2, hfr2, hf2, hs2⟩ := setForward_spec ((hfr1.info _).trans hnu)
    (hnuh ▸ hu.tall) e.ptr
  have hsu2 : span h2 (ptrAt header (A ++ B) u) i =
      some (UInt64.ofNat (min j (A ++ B).length - u)) := by rw [hs2, hs1, hsu]
  have hfr12 := hfr1.trans hfr2
  obtain ⟨h3, hw3, hfr3, hf3, hs3⟩ := setSpan_spec ((hfr12.info _).trans hnx) (hnxh ▸ hie)
    (UInt64.ofNat (min j (A ++ B).length - u) - (UInt64.ofNat A.length - UInt64.ofNat u))
  have hfr13 := hfr12.trans hfr3
  obtain ⟨h4, hw4, hfr4, hf4, hs4⟩ := setSpan_spec ((hfr13.info _).trans hnu) (hnuh ▸ hu.tall)
    (UInt64.ofNat A.length - UInt64.ofNat u + 1)
  refine ⟨h4, ?_, hfr13.trans hfr4, hok.splice hu hj (fun m hm hmu => ?_) (fun _ => ?_) ?_⟩
  · simp only [link, hfetch, hp0, Option.bind_eq_bind, Option.bind_some, hfu, hw1, hw2, hsu2, hw3,
      hw4]
  · have h1 : ptrAt header (A ++ B) m ≠ ptrAt header (A ++ B) u := fun h => hmu (hrd.inj m u hm hun h)
    have h2 := hrd.x_ne m hm
    rw [hf4, hf3, hf2, if_neg h1, hf1, if_neg h2, hs4, if_neg h1, hs3, if_neg h2, hs2, hs1]
    exact ⟨rfl, rfl⟩
  · rw [hf4, hf3, hf2, if_pos rfl, hs4, if_pos rfl, hf4, hf3, hf2, if_neg hux.symm, hf1, if_pos rfl,
      hs4, if_neg hux.symm, hs3, if_pos rfl, harith1, harith2]
    exact ⟨rfl, rfl, rfl, rfl⟩
  · intro hle
    omega

/-- Passing over the new node at a level above it. -/
theorem bump_spec (hrd : Ready h header (A ++ B) e.ptr e.height)
    (hok : LevelOk h header (A ++ B) i)
    (hslots : SlotsOk header (A ++ B) A.length IsRank l slots) (hil : i < l)
    (hie : e.height ≤ i) :
    ∃ h', bump slots i h = some h' ∧ Frame i h h' ∧ LevelOk h' header (A ++ e :: B) i := by
  have hc := cut_le A B
  obtain ⟨u, rank, hu, -, hfetch⟩ := hslots i hil
  have hun : u ≤ (A ++ B).length := hu.le.trans hc
  obtain ⟨j, hj⟩ := exists_next (heightAt (A ++ B)) i hun
  obtain ⟨hfu, hsu⟩ := hok u j hun hu.tall hj
  obtain ⟨nu, hnu, hnuh⟩ := hrd.at_info u hun
  have hlt := hj.lt
  obtain ⟨h1, hw1, hfr1, hf1, hs1⟩ := setSpan_spec hnu (hnuh ▸ hu.tall)
    (UInt64.ofNat (min j (A ++ B).length - u) + 1)
  refine ⟨h1, ?_, hfr1, hok.splice hu hj (fun m hm hmu => ?_) ?_ (fun _ => ?_)⟩
  · simp only [bump, hfetch, Option.bind_eq_bind, Option.bind_some, hsu, hw1]
  · have h1 : ptrAt header (A ++ B) m ≠ ptrAt header (A ++ B) u := fun h => hmu (hrd.inj m u hm hun h)
    exact ⟨hf1 _, by rw [hs1, if_neg h1]⟩
  · intro hle
    omega
  · rw [hf1, hfu, hs1, if_pos rfl,
      show min j (A ++ B).length + 1 - u = min j (A ++ B).length - u + 1 by omega,
      UInt64.ofNat_add]
    exact ⟨rfl, rfl⟩

end Link

/-! ## Insertion -/

section Insert

variable {sl : Skiplist S T} {ns A B : List (Entry S T)}

/-- Above every tower but the header's, a level fits when it is empty. -/
theorem forwardOk_above {h : Heap S T} {header : Ptr} {i : Nat}
    (hle : ∀ k, 0 < k → heightAt ns k ≤ i) :
    ForwardOk h header ns i ↔ (i < maxLevel → forward h header i = some null) := by
  have hlast : Next (heightAt ns) ns.length i 0 (ns.length + 1) :=
    ⟨by omega, le_rfl, by omega, fun m h0 _ => hle m h0⟩
  have hnull := ptrAt_past header (show ns.length < ns.length + 1 by omega)
  constructor
  · intro hok hi
    rw [← hnull]
    exact hok 0 (ns.length + 1) (Nat.zero_le _) hi hlast
  · intro hf k j _ htall hnext
    obtain rfl : k = 0 := by
      by_contra hk
      have := hle k (by omega)
      omega
    rw [hnext.unique hlast, hnull]
    exact hf htall

theorem Rep.levelOk (hr : Rep sl ns) {i : Nat} (hi : i < sl.level) :
    LevelOk sl.heap sl.header ns i :=
  fun k j hk ht hn => ⟨hr.forward i k j hk ht hn, hr.span i hi k j hk ht hn⟩

theorem Rep.info_of_mem (hr : Rep sl ns) {p : Ptr} (hp : p ∈ sl.header :: ns.map Entry.ptr) :
    ∃ n, info sl.heap p = some n := by
  rcases List.mem_cons.mp hp with rfl | hp
  · obtain ⟨n, hn, -⟩ := hr.header
    exact ⟨n, hn⟩
  · obtain ⟨e, he, rfl⟩ := List.mem_map.mp hp
    obtain ⟨k, hk⟩ := List.mem_iff_getElem?.mp he
    exact ⟨_, hr.node k e hk⟩

theorem Rep.info_of_ne_null (hr : Rep sl ns) {k : Nat} (hk : ptrAt sl.header ns k ≠ null) :
    ∃ n, info sl.heap (ptrAt sl.header ns k) = some n := by
  have hle : k ≤ ns.length := by
    by_contra hlt
    exact hk (ptrAt_past sl.header (by omega))
  obtain ⟨n, hn, -⟩ := hr.info_at hle
  exact ⟨n, hn⟩

theorem Rep.header_ne_ptrAt (hr : Rep sl ns) (k : Nat) : sl.header ≠ ptrAt sl.header ns (k + 1) := by
  intro heq
  by_cases hk : k + 1 ≤ ns.length
  · exact Nat.succ_ne_zero k (hr.ptrAt_inj (Nat.zero_le _) hk heq).symm
  · have hnull : sl.header = null := heq.trans (ptrAt_past sl.header (by omega))
    exact hr.ptrAt_ne_null (Nat.zero_le _) hnull

/-- One more level in use, still empty. -/
theorem raise_step (hr : Rep sl ns) {c : Nat} {slots : Slots UInt64} (hl : sl.level < maxLevel)
    (hslots : SlotsOk sl.header ns c IsRank sl.level slots) :
    ∃ h slots', raise sl.header sl.length sl.level (sl.heap, slots) = some (h, slots') ∧
      Rep { sl with heap := h, level := sl.level + 1 } ns ∧
      SlotsOk sl.header ns c IsRank (sl.level + 1) slots' ∧ ∀ p, info h p = info sl.heap p := by
  obtain ⟨n, hn, hnh⟩ := hr.header
  obtain ⟨h, hw, hframe, hf, hs⟩ := setSpan_spec hn (hnh ▸ hl) sl.length
  have habove : ∀ k, 0 < k → heightAt ns k ≤ sl.level := fun k hk => hr.heightAt_le hk
  refine ⟨h, Function.update slots sl.level (some (sl.header, 0)),
    by simp [raise, Slots.store, hl, hw], ?_, ?_, hframe.info⟩
  · refine ⟨?_, ?_, hr.nodup, by simp, hl, ?_, ?_, ?_, hr.tail, hr.length⟩
    · exact ⟨n, (hframe.info _).trans hn, hnh⟩
    · exact fun k e hk => (hframe.info _).trans (hr.node k e hk)
    · exact fun e he => ⟨(hr.height e he).1, Nat.le_succ_of_le (hr.height e he).2⟩
    · intro i k j hk ht hj
      have hold := hr.forward i k j hk ht hj
      by_cases hi : i = sl.level
      · subst hi
        exact (hf _).trans hold
      · exact (hframe.forward _ i hi).trans hold
    · intro i hi k j hk ht hj
      by_cases hil : i = sl.level
      · -- only the header reaches the new level
        subst hil
        obtain rfl : k = 0 := by
          by_contra hk0
          have := habove k (by omega)
          omega
        have hjn : j = ns.length + 1 := by
          by_contra hne
          have hjl := hj.le
          have h1 := hj.tall (by omega)
          have h2 := habove j hj.lt
          omega
        subst hjn
        refine (hs _).trans ?_
        rw [if_pos (show ptrAt sl.header ns 0 = sl.header from rfl), hr.length, Nat.min_eq_right (by omega),
          Nat.sub_zero]
      · have hi' : i < sl.level := Nat.lt_of_le_of_ne (Nat.le_of_lt_succ hi) hil
        exact (hframe.span _ i hil).trans (hr.span i hi' k j hk ht hj)
  · intro i hi
    by_cases hil : i = sl.level
    · subst hil
      refine ⟨0, 0, ⟨Nat.zero_le c, hl, fun m h0 _ => habove m h0⟩, rfl, ?_⟩
      simp [Slots.fetch, hl, ptrAt]
    · obtain ⟨u, acc, hu, hacc, hfetch⟩ := hslots i (by omega)
      refine ⟨u, acc, hu, hacc, ?_⟩
      simp only [Slots.fetch, Function.update_of_ne hil] at hfetch ⊢
      exact hfetch

/-- The levels the new tower is first to reach. -/
theorem raise_spec (hr : Rep sl ns) {c : Nat} {slots : Slots UInt64} {n : Nat}
    (hn : sl.level + n ≤ maxLevel) (hslots : SlotsOk sl.header ns c IsRank sl.level slots) :
    ∃ s, forUp (raise sl.header sl.length) n sl.level (sl.heap, slots) = some s ∧
      Rep { sl with heap := s.1, level := sl.level + n } ns ∧
      SlotsOk sl.header ns c IsRank (sl.level + n) s.2 ∧ ∀ p, info s.1 p = info sl.heap p := by
  refine forUp_spec
    (fun i (s : Heap S T × Slots UInt64) => Rep { sl with heap := s.1, level := i } ns ∧
      SlotsOk sl.header ns c IsRank i s.2 ∧ ∀ p, info s.1 p = info sl.heap p)
    n sl.level (sl.heap, slots) (fun i s hi hlt ⟨hr, hslots, hinfo⟩ => ?_)
    ⟨hr, hslots, fun _ => rfl⟩
  obtain ⟨h, slots', hrun, hr', hslots', hinfo'⟩ := raise_step hr (show i < maxLevel by omega) hslots
  exact ⟨(h, slots'), hrun, hr', hslots', fun p => (hinfo' p).trans (hinfo p)⟩

/-- Linking `x` in at all its levels and passing over it at the ones
above. -/
theorem linkAll_spec {h : Heap S T} {header : Ptr} (e : Entry S T) {slots : Slots UInt64} {l : Nat}
    (hrd : Ready h header (A ++ B) e.ptr e.height) (hel : e.height ≤ l) (hpos : 1 ≤ l)
    (hok : ∀ i, i < l → LevelOk h header (A ++ B) i)
    (hslots : SlotsOk header (A ++ B) A.length IsRank l slots)
    (hfloor : ∀ u, Floor (heightAt (A ++ B)) A.length 0 u → u = A.length) :
    ∃ h1 h2, forUp (link slots e.ptr) e.height 0 h = some h1 ∧
      forUp (bump slots) (l - e.height) e.height h1 = some h2 ∧ (∀ p, info h2 p = info h p) ∧
      (∀ i, i < l → LevelOk h2 header (A ++ e :: B) i) ∧
      ∀ i, l ≤ i → ∀ p, forward h2 p i = forward h p i := by
  have hrank : ∃ p, slots.fetch 0 = some (p, UInt64.ofNat A.length) := by
    obtain ⟨u, acc, hu, hacc, hfetch⟩ := hslots 0 hpos
    obtain rfl := hfloor u hu
    exact ⟨_, hacc ▸ hfetch⟩
  have hstable : ∀ h1 h2 i, LevelOk h1 header (A ++ e :: B) i →
      (∀ p, forward h2 p i = forward h1 p i) → (∀ p, span h2 p i = span h1 p i) →
      LevelOk h2 header (A ++ e :: B) i :=
    fun h1 h2 i hi hf hs => hi.congr (fun k _ => hf _) fun k _ => hs _
  obtain ⟨h1, hrun1, hinfo1, hdone1, hrest1⟩ := forUp_levels 0 e.height
    (fun h i => LevelOk h header (A ++ e :: B) i) hstable
    (fun i h1 _ hi hinfo hf hs => link_spec (hrd.congr hinfo)
      ((hok i (by omega)).congr (fun k _ => hf _) fun k _ => hs _) hslots (by omega) hrank (by omega))
  obtain ⟨h2, hrun2, hinfo2, hdone2, hrest2⟩ := forUp_levels e.height (l - e.height)
    (fun h i => LevelOk h header (A ++ e :: B) i) hstable
    (fun i h2 hi hil hinfo hf hs => by
      obtain ⟨hf1, hs1⟩ := hrest1 i (by omega)
      exact bump_spec (hrd.congr fun p => (hinfo p).trans (hinfo1 p))
        ((hok i (by omega)).congr (fun k _ => (hf _).trans (hf1 _)) fun k _ => (hs _).trans (hs1 _))
        hslots (by omega) hi)
  refine ⟨h1, h2, hrun1, hrun2, fun p => (hinfo2 p).trans (hinfo1 p), fun i hi => ?_,
    fun i hi p => ?_⟩
  · by_cases hie : i < e.height
    · obtain ⟨hf, hs⟩ := hrest2 i (.inl hie)
      exact hstable h1 h2 i (hdone1 i (Nat.zero_le i) (by omega)) hf hs
    · exact hdone2 i (by omega) (by omega)
  · exact ((hrest2 i (by omega)).1 p).trans ((hrest1 i (by omega)).1 p)

/-- Where every tower has height, the pointers of level 0 lead to the next
position. -/
theorem LevelOk.forward_zero {h : Heap S T} {header : Ptr} (hok : LevelOk h header ns 0)
    (hpos : ∀ m, m ≤ ns.length → 0 < heightAt ns m) {k : Nat} (hk : k ≤ ns.length) :
    forward h (ptrAt header ns k) 0 = some (ptrAt header ns (k + 1)) := by
  obtain ⟨j, hj⟩ := exists_next (heightAt ns) 0 hk
  rw [(hok k j hk (hpos k hk) hj).1, hj.eq_succ hpos]

theorem heightAt_pos {ns : List (Entry S T)} (h : ∀ e ∈ ns, 1 ≤ e.height) {k : Nat}
    (hk : k ≤ ns.length) : 0 < heightAt ns k := by
  cases k with
  | zero => simp [heightAt, maxLevel]
  | succ k =>
    have hk' : ns[k]? = some ns[k] := List.getElem?_eq_getElem hk
    simp only [heightAt, hk']
    exact h _ (List.getElem_mem hk)

theorem heightAt_le {ns : List (Entry S T)} {l : Nat} (h : ∀ e ∈ ns, e.height ≤ l) {k : Nat}
    (hk : 0 < k) : heightAt ns k ≤ l := by
  obtain ⟨k, rfl⟩ : ∃ m, k = m + 1 := ⟨k - 1, by omega⟩
  simp only [heightAt]
  cases hk : ns[k]? with
  | none => exact Nat.zero_le _
  | some e => exact h e (List.mem_of_getElem? hk)

theorem setBackwardOf_spec {h : Heap S T} {f : Ptr} (hf : f ≠ null → ∃ n, info h f = some n)
    (q : Ptr) :
    ∃ h', setBackwardOf h f q = some h' ∧
      (∀ n, info h f = some n → info h' f = some { n with backward := q }) ∧
      (∀ p, p ≠ f → info h' p = info h p) ∧ (∀ p i, forward h' p i = forward h p i) ∧
      ∀ p i, span h' p i = span h p i := by
  by_cases hnull : f = null
  · refine ⟨h, if_pos hnull, fun n hn => ?_, fun _ _ => rfl, fun _ _ => rfl, fun _ _ => rfl⟩
    exact absurd hnull (ne_null_of_info hn)
  · obtain ⟨n, hn⟩ := hf hnull
    obtain ⟨h', hrun, hinfo, hfwd, hspn⟩ := setBackward_spec hn q
    refine ⟨h', by rw [setBackwardOf, if_neg hnull, hrun], fun n' hn' => ?_, fun p hp => ?_, hfwd, hspn⟩
    · rw [hinfo, if_pos rfl, Option.some.inj (hn.symm.trans hn')]
    · rw [hinfo, if_neg hp]

/-- The backward chain after an insertion: the new node points back to the
cut, its successor to the new node. -/
theorem node_insert (hr : Rep sl (A ++ B)) {h : Heap S T} {e : Entry S T}
    (hx : ∀ k, k ≤ (A ++ B).length → ptrAt sl.header (A ++ B) k ≠ e.ptr)
    (hnew : info h e.ptr = some ⟨e.score, e.obj,
      if ptrAt sl.header (A ++ B) A.length = sl.header then null
      else ptrAt sl.header (A ++ B) A.length, e.height⟩)
    (hnext : ∀ n, info sl.heap (ptrAt sl.header (A ++ B) (A.length + 1)) = some n →
      info h (ptrAt sl.header (A ++ B) (A.length + 1)) = some { n with backward := e.ptr })
    (hold : ∀ p, p ≠ e.ptr → p ≠ ptrAt sl.header (A ++ B) (A.length + 1) →
      info h p = info sl.heap p) :
    ∀ k e', (A ++ e :: B)[k]? = some e' → info h e'.ptr =
      some ⟨e'.score, e'.obj, if k = 0 then null else ptrAt sl.header (A ++ e :: B) k, e'.height⟩ := by
  intro k e' hk
  have hc := cut_le A B
  rcases row_get A B e hk with ⟨hkc, hget⟩ | ⟨rfl, rfl⟩ | ⟨m, rfl, hcm, hget⟩
  · -- before the new node
    have hlen := (List.getElem?_eq_some_iff.mp hget).1
    have hp := ptrAt_of_get sl.header hget
    have hne : e'.ptr ≠ ptrAt sl.header (A ++ B) (A.length + 1) := by
      intro heq
      by_cases hB : A.length + 1 ≤ (A ++ B).length
      · have := hr.ptrAt_inj (by omega) hB (hp.trans heq)
        omega
      · rw [ptrAt_past sl.header (by omega), ← hp] at heq
        exact hr.ptrAt_ne_null (by omega) heq
    rw [hold _ (hp ▸ hx (k + 1) hlen) hne, hr.node k e' hget, ptrAt_low sl.header A B e hkc.le]
  · -- the new node
    rw [hnew]
    by_cases hA : A.length = 0
    · rw [if_pos hA, if_pos (by rw [hA]; rfl)]
    · have hne : ptrAt sl.header (A ++ B) A.length ≠ sl.header :=
        fun heq => hA (hr.ptrAt_inj hc (Nat.zero_le _) heq)
      rw [if_neg hA, if_neg hne, ptrAt_low sl.header A B e' le_rfl]
  · have hlen := (List.getElem?_eq_some_iff.mp hget).1
    have hp := ptrAt_of_get sl.header hget
    rw [if_neg (Nat.succ_ne_zero m)]
    by_cases hmc : m = A.length
    · -- its successor
      subst hmc
      rw [ptrAt_mid, ← hp, hnext _ (hp.symm ▸ hr.node _ e' hget)]
    · -- beyond
      have hne : e'.ptr ≠ ptrAt sl.header (A ++ B) (A.length + 1) := by
        intro heq
        have := hr.ptrAt_inj (show m + 1 ≤ _ by omega) (by omega) (hp.trans heq)
        omega
      rw [hold _ (hp ▸ hx (m + 1) hlen) hne, hr.node m e' hget,
        ptrAt_high sl.header A B e (by omega), if_neg (by omega)]

theorem nodup_insert {header : Ptr} {e : Entry S T}
    (h : (header :: (A ++ B).map Entry.ptr).Nodup) (hx : e.ptr ∉ header :: (A ++ B).map Entry.ptr) :
    (header :: (A ++ e :: B).map Entry.ptr).Nodup := by
  rw [List.map_append] at h hx
  have hmid : ((header :: A.map Entry.ptr) ++ e.ptr :: B.map Entry.ptr).Nodup :=
    List.nodup_middle.mpr (List.nodup_cons.mpr ⟨hx, h⟩)
  rwa [List.map_append, List.map_cons]

theorem insert_heights (hr : Rep sl (A ++ B)) {e : Entry S T} (he : 1 ≤ e.height) :
    ∀ e' ∈ A ++ e :: B, 1 ≤ e'.height := by
  intro e' he'
  simp only [List.mem_append, List.mem_cons] at he'
  rcases he' with h | rfl | h
  · exact (hr.height e' (List.mem_append.mpr (.inl h))).1
  · exact he
  · exact (hr.height e' (List.mem_append.mpr (.inr h))).1

/-- What an insertion after `A` has to leave in memory. -/
theorem rep_insert (hr : Rep sl (A ++ B)) {h : Heap S T} (e : Entry S T) {l : Nat}
    (hl : sl.level ≤ l) (hlm : l ≤ maxLevel) (he : 1 ≤ e.height ∧ e.height ≤ l)
    (hx : ∀ p ∈ sl.header :: (A ++ B).map Entry.ptr, p ≠ e.ptr)
    (hnew : info h e.ptr = some ⟨e.score, e.obj,
      if ptrAt sl.header (A ++ B) A.length = sl.header then null
      else ptrAt sl.header (A ++ B) A.length, e.height⟩)
    (hnext : ∀ n, info sl.heap (ptrAt sl.header (A ++ B) (A.length + 1)) = some n →
      info h (ptrAt sl.header (A ++ B) (A.length + 1)) = some { n with backward := e.ptr })
    (hold : ∀ p, p ≠ e.ptr → p ≠ ptrAt sl.header (A ++ B) (A.length + 1) →
      info h p = info sl.heap p)
    (hlevel : ∀ i, i < l → LevelOk h sl.header (A ++ e :: B) i)
    (habove : ∀ i, l ≤ i → i < maxLevel → forward h sl.header i = some null) :
    Rep ⟨h, sl.header, if ptrAt sl.header (A ++ B) (A.length + 1) = null then e.ptr else sl.tail,
      sl.length + 1, l⟩ (A ++ e :: B) := by
  have hc := cut_le A B
  have hlen := length_row A B e
  have hxk : ∀ k, k ≤ (A ++ B).length → ptrAt sl.header (A ++ B) k ≠ e.ptr :=
    fun k hk => hx _ (ptrAt_mem sl.header hk)
  have hheights : ∀ e' ∈ A ++ e :: B, 1 ≤ e'.height ∧ e'.height ≤ l := by
    intro e' he'
    have hor : e' = e ∨ e' ∈ A ++ B := by
      simp only [List.mem_append, List.mem_cons] at he' ⊢
      tauto
    rcases hor with rfl | hmem
    · exact he
    · exact ⟨(hr.height e' hmem).1, (hr.height e' hmem).2.trans hl⟩
  refine ⟨?_, node_insert hr hxk hnew hnext hold, nodup_insert hr.nodup fun h => hx _ h rfl,
    hr.level_pos.trans hl, hlm, hheights, fun i => ?_, fun i hi k j hk ht hj => ?_, ?_, ?_⟩
  · -- the header is neither the new node nor its successor
    obtain ⟨n, hn, hnh⟩ := hr.header
    exact ⟨n, (hold _ (hxk 0 (Nat.zero_le _)) (hr.header_ne_ptrAt A.length)).trans hn, hnh⟩
  · by_cases hi : i < l
    · exact fun k j hk ht hj => (hlevel i hi k j hk ht hj).1
    · refine (forwardOk_above fun k hk => ?_).mpr fun him => ?_
      · exact (heightAt_le (fun e' he' => (hheights e' he').2) hk).trans (by omega)
      · exact habove i (by omega) him
  · exact (hlevel i hi k j hk ht hj).2
  · show (if _ then _ else _) = if A ++ e :: B = [] then null else _
    rw [if_neg (show A ++ e :: B ≠ [] by simp), hlen]
    by_cases hB : A.length + 1 ≤ (A ++ B).length
    · have hne : A ++ B ≠ [] := by
        intro hnil
        rw [hnil, List.length_nil] at hB
        omega
      rw [if_neg (hr.ptrAt_ne_null hB), hr.tail, if_neg hne, ptrAt_high sl.header A B e (by omega)]
    · rw [if_pos (ptrAt_past sl.header (by omega)), show (A ++ B).length = A.length by omega, ptrAt_mid]
  · rw [hlen, UInt64.ofNat_add, hr.length]
    rfl

/-- **Insertion.** With the slots of the cut after `A`, the new node is
linked in there. -/
theorem insertAt_spec (hr : Rep sl (A ++ B)) {draw : Draw} (hd : draw.Allowed sl)
    {slots : Slots UInt64} (hslots : SlotsOk sl.header (A ++ B) A.length IsRank sl.level slots)
    (score : S) (obj : T) :
    ∃ sl', insertAt slots score obj draw sl = some (sl', draw.addr) ∧
      Rep sl' (A ++ ⟨draw.addr, score, obj, draw.height⟩ :: B) := by
  have hc := cut_le A B
  have hmax : sl.level + (draw.height - sl.level) = max sl.level draw.height := by omega
  have hlev := hr.level_le
  have hdl := hd.height_le
  obtain ⟨⟨h1, slots1⟩, hrun1, hr1, hslots1, hinfo1⟩ := raise_spec hr
    (show sl.level + (draw.height - sl.level) ≤ maxLevel by omega) hslots
  rw [hmax] at hr1 hslots1
  simp only at hr1 hslots1 hinfo1
  -- the address is not that of a node of the row
  have hfree : info h1 draw.addr = none :=
    (hinfo1 _).trans ((info_eq_none hd.not_null).mpr hd.fresh)
  have hx : ∀ p ∈ sl.header :: (A ++ B).map Entry.ptr, p ≠ draw.addr := by
    rintro p hp rfl
    obtain ⟨n, hn⟩ := hr1.info_of_mem hp
    exact Option.some_ne_none n (hn.symm.trans hfree)
  have hxk : ∀ k, k ≤ (A ++ B).length → ptrAt sl.header (A ++ B) k ≠ draw.addr :=
    fun k hk => hx _ (ptrAt_mem sl.header hk)
  have hsucc : draw.addr ≠ ptrAt sl.header (A ++ B) (A.length + 1) := by
    by_cases hle : A.length + 1 ≤ (A ++ B).length
    · exact (hxk _ hle).symm
    · rw [ptrAt_past sl.header (by omega)]
      exact hd.not_null
  -- the node, and its levels
  obtain ⟨h2, hrun2, hinfo2, hf2, hs2⟩ := createNode_spec hd.not_null
    ((info_eq_none hd.not_null).mp hfree) draw.height score obj
  have hrd : Ready h2 sl.header (A ++ B) draw.addr draw.height := by
    refine ⟨fun k hk => ?_, fun k j hk hj heq => hr.ptrAt_inj hk hj heq, ?_, hxk⟩
    · obtain ⟨n, hn, hnh⟩ := hr1.info_at hk
      exact ⟨n, by rw [hinfo2, if_neg (hxk k hk)]; exact hn, hnh⟩
    · exact ⟨_, by rw [hinfo2, if_pos rfl], rfl⟩
  obtain ⟨h3, h4, hrun3, hrun4, hinfo4, hlevel4, habove4⟩ :=
    linkAll_spec ⟨draw.addr, score, obj, draw.height⟩ hrd (Nat.le_max_right sl.level draw.height)
      hr1.level_pos (fun i hi => (hr1.levelOk hi).congr (fun k hk => hf2 _ i (hxk k hk))
        fun k hk => hs2 _ i (hxk k hk)) hslots1
      (fun u hu => hu.eq_cut fun m hm => hr.heightAt_pos (hm.trans hc))
  simp only at hrun3 hrun4
  -- the backward pointers
  obtain ⟨u, acc, hu, -, hfetch⟩ := hslots1 0 hr1.level_pos
  obtain rfl := hu.eq_cut fun m hm => hr.heightAt_pos (hm.trans hc)
  have hinfox : info h4 draw.addr = some ⟨score, obj, null, draw.height⟩ := by
    rw [hinfo4, hinfo2, if_pos rfl]
  obtain ⟨h5, hrun5, hinfo5, hf5, hs5⟩ := setBackward_spec hinfox
    (if ptrAt sl.header (A ++ B) A.length = sl.header then null
      else ptrAt sl.header (A ++ B) A.length)
  have hinfo5' : ∀ p, p ≠ draw.addr → info h5 p = info sl.heap p := by
    intro p hp
    rw [hinfo5, if_neg hp, hinfo4, hinfo2, if_neg hp, hinfo1]
  have hlen := length_row A B ⟨draw.addr, score, obj, draw.height⟩
  have hfx : forward h5 draw.addr 0 = some (ptrAt sl.header (A ++ B) (A.length + 1)) := by
    have h0 := (hlevel4 0 hr1.level_pos).forward_zero
      (fun m hm => heightAt_pos (insert_heights hr hd.height_pos) hm) (show A.length + 1 ≤ _ by omega)
    rw [ptrAt_mid, ptrAt_high sl.header A B _ (by omega)] at h0
    rw [hf5, h0]
  obtain ⟨h6, hrun6, hnext6, hold6, hf6, hs6⟩ := setBackwardOf_spec
    (fun hne : ptrAt sl.header (A ++ B) (A.length + 1) ≠ null => by
      obtain ⟨n, hn⟩ := hr.info_of_ne_null hne
      exact ⟨n, (hinfo5' _ hsucc.symm).trans hn⟩) draw.addr
  refine ⟨⟨h6, sl.header,
      if ptrAt sl.header (A ++ B) (A.length + 1) = null then draw.addr else sl.tail, sl.length + 1,
      max sl.level draw.height⟩, ?_,
    rep_insert hr ⟨draw.addr, score, obj, draw.height⟩ (Nat.le_max_left _ _) hr1.level_le
      ⟨hd.height_pos, Nat.le_max_right _ _⟩ hx ?_
      (fun n hn => ?_) (fun p hp1 hp2 => ?_) (fun i hi => ?_) (fun i hi him => ?_)⟩
  · simp only [insertAt, hrun1, Option.bind_eq_bind, Option.bind_some, hrun2, hrun3, hrun4, hfetch,
      hrun5, hfx, hrun6]
  · rw [hold6 _ hsucc, hinfo5, if_pos rfl]
  · exact hnext6 n ((hinfo5' _ hsucc.symm).trans hn)
  · exact (hold6 p hp2).trans (hinfo5' p hp1)
  · exact (hlevel4 i hi).congr (fun k _ => (hf6 _ i).trans (hf5 _ i)) fun k _ => (hs6 _ i).trans (hs5 _ i)
  · rw [hf6, hf5, habove4 i hi, hf2 _ i (hx _ List.mem_cons_self)]
    exact (forwardOk_above fun k hk => (hr1.heightAt_le hk).trans hi).mp (hr1.forward i) him

end Insert

end HighJump.Algo.Skip
