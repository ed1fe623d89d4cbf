/-
HighJump.Algo.SkiplistDelete — taking nodes out of the row.

`_delete_node_internal` is the insertion read backwards: `unlink_spec`
uses `Splice.next_cases` from the shorter row to the longer one. The
slots of a search speak only of the nodes up to the cut (`UpdateOk`), so
they outlive the nodes deleted after it, and a range deletion may use
them for one node after another while the level shrinks.
-/
import HighJump.Algo.SkiplistInsert

namespace HighJump.Algo.Skip

open HighJump.Lib HighJump.Lib.Towers

variable {S T : Type}

/-! ## The slots of a cut -/

theorem floor_append (A B : List (Entry S T)) {i u : Nat} :
    Floor (heightAt (A ++ B)) A.length i u ↔ Floor (heightAt A) A.length i u := by
  constructor
  · rintro ⟨hle, ht, hgap⟩
    exact ⟨hle, heightAt_append A B hle ▸ ht, fun m h1 h2 => heightAt_append A B h2 ▸ hgap m h1 h2⟩
  · rintro ⟨hle, ht, hgap⟩
    refine ⟨hle, by rwa [heightAt_append A B hle], fun m h1 h2 => ?_⟩
    rw [heightAt_append A B h2]
    exact hgap m h1 h2

/-- `update[]` holds, up to level `l`, the last taller nodes of `A`. -/
def UpdateOk (header : Ptr) (A : List (Entry S T)) (l : Nat) (update : Nat → Option Ptr) : Prop :=
  ∀ i, i < l → ∃ u, Floor (heightAt A) A.length i u ∧ update i = some (ptrAt header A u)

theorem SlotsOk.update {α : Type} {header : Ptr} {A B : List (Entry S T)} {P : Nat → α → Prop}
    {l : Nat} {slots : Slots α} (h : SlotsOk header (A ++ B) A.length P l slots) :
    UpdateOk header A l slots.update := by
  intro i hi
  obtain ⟨u, acc, hu, -, hfetch⟩ := h i hi
  refine ⟨u, (floor_append A B).mp hu, ?_⟩
  rw [Slots.update, hfetch, Option.map_some, ptrAt_append header A B hu.le]

/-! ## Unlinking a node -/

section Unlink

variable {sl : Skiplist S T} {A B : List (Entry S T)} {e : Entry S T} {h h' : Heap S T} {i u j : Nat}

/-- A level of the longer row that still fits at every position but the
floor `u` of the cut fits the shorter row as soon as `u` does. -/
theorem LevelOk.unsplice {header : Ptr} (hok : LevelOk h header (A ++ e :: B) i)
    (hu : Floor (heightAt (A ++ B)) A.length i u)
    (hj : Next (heightAt (A ++ B)) (A ++ B).length i u j)
    (hother : ∀ m, m ≤ (A ++ B).length → m ≠ u →
      forward h' (ptrAt header (A ++ B) m) i = forward h (ptrAt header (A ++ B) m) i ∧
      span h' (ptrAt header (A ++ B) m) i = span h (ptrAt header (A ++ B) m) i)
    (hfloor : forward h' (ptrAt header (A ++ B) u) i = some (ptrAt header (A ++ B) j) ∧
      span h' (ptrAt header (A ++ B) u) i = some (UInt64.ofNat (min j (A ++ B).length - u))) :
    LevelOk h' header (A ++ B) i := by
  have hc := cut_le A B
  have hlen := length_row A B e
  intro k l hk htall hnext
  by_cases hku : k = u
  · subst hku
    obtain rfl := hnext.unique hj
    exact hfloor
  obtain ⟨h1, h2⟩ := hother k hk hku
  rw [h1, h2]
  have hl := hnext.lt
  rcases (row_splice A B e).next_cases hc hnext with ⟨hkc, hlc, h'⟩ | ⟨hkc, hlc, -⟩ |
    ⟨hkc, hlc, -⟩ | ⟨hck, h'⟩
  · obtain ⟨h3, h4⟩ := hok k l (by omega) (by rwa [(row_splice A B e).low k hkc]) (hlen ▸ h')
    rw [ptrAt_low header A B e hkc] at h3 h4
    rw [hlen] at h4
    rw [h3, h4, ptrAt_low header A B e hlc, Nat.min_eq_left (by omega), Nat.min_eq_left (by omega)]
    exact ⟨rfl, rfl⟩
  · exact absurd ((hnext.floor hkc hlc htall).unique hu) hku
  · exact absurd ((hnext.floor hkc hlc htall).unique hu) hku
  · obtain ⟨h3, h4⟩ := hok (k + 1) (l + 1) (by omega) (by rwa [(row_splice A B e).high k hck])
      (hlen ▸ h')
    rw [ptrAt_high header A B e hck] at h3 h4
    rw [hlen] at h4
    rw [h3, h4, ptrAt_high header A B e (by omega), Nat.add_min_add_right, Nat.add_sub_add_right]
    exact ⟨rfl, rfl⟩

/-- The span arithmetic of `_delete_node_internal`, modulo 2^64: it may
pass below zero on the way. -/
theorem span_unlink {n c : Nat} (hu : u ≤ c) (hc : c ≤ n) (hcj : c < j) :
    UInt64.ofNat (c + 1 - u) + (UInt64.ofNat (min j n - c) - 1) = UInt64.ofNat (min j n - u) := by
  rw [show c + 1 - u = c - u + 1 by omega, show min j n - u = c - u + (min j n - c) by omega,
    UInt64.ofNat_add, UInt64.ofNat_add, show UInt64.ofNat 1 = 1 from rfl, UInt64.add_assoc,
    UInt64.add_comm 1, UInt64.sub_add_cancel]

theorem row_getElem_mid (A B : List (Entry S T)) (e : Entry S T) :
    (A ++ e :: B)[A.length]? = some e := by
  rw [List.getElem?_append_right le_rfl, Nat.sub_self, List.getElem?_cons_zero]

/-- Where a position of the shorter row is in the longer one. -/
theorem row_lift (header : Ptr) (A B : List (Entry S T)) (e : Entry S T) {m : Nat}
    (hm : m ≤ (A ++ B).length) :
    ∃ m', m' ≤ (A ++ e :: B).length ∧ m' = (if m ≤ A.length then m else m + 1) ∧
      ptrAt header (A ++ e :: B) m' = ptrAt header (A ++ B) m ∧
      heightAt (A ++ e :: B) m' = heightAt (A ++ B) m := by
  have hlen := length_row A B e
  by_cases hmc : m ≤ A.length
  · exact ⟨m, by omega, by rw [if_pos hmc], ptrAt_low header A B e hmc, (row_splice A B e).low m hmc⟩
  · exact ⟨m + 1, by omega, by rw [if_neg hmc], ptrAt_high header A B e (by omega),
      (row_splice A B e).high m (by omega)⟩

/-- Seen from the shorter row, the node to be deleted is one more live
node. -/
theorem Rep.ready (hr : Rep sl (A ++ e :: B)) :
    Ready sl.heap sl.header (A ++ B) e.ptr e.height := by
  have hlen := length_row A B e
  have hc := cut_le A B
  refine ⟨fun k hk => ?_, fun k j hk hj heq => ?_, ?_, fun k hk heq => ?_⟩
  · obtain ⟨k', hk', -, hp, hh⟩ := row_lift sl.header A B e hk
    rw [← hp, ← hh]
    exact hr.info_at hk'
  · obtain ⟨k', hk', hkk, hp, -⟩ := row_lift sl.header A B e hk
    obtain ⟨j', hj', hjj, hq, -⟩ := row_lift sl.header A B e hj
    rw [← hp, ← hq] at heq
    have := hr.ptrAt_inj hk' hj' heq
    split_ifs at hkk hjj <;> omega
  · obtain ⟨n, hn, hnh⟩ := hr.info_at (show A.length + 1 ≤ _ by omega)
    rw [ptrAt_mid] at hn
    rw [heightAt_mid] at hnh
    exact ⟨n, hn, hnh⟩
  · obtain ⟨k', hk', hkk, hp, -⟩ := row_lift sl.header A B e hk
    rw [← hp, ← ptrAt_mid sl.header A B e] at heq
    have := hr.ptrAt_inj hk' (by omega) heq
    split_ifs at hkk <;> omega

/-- Unlinking a node at one level. -/
theorem unlink_spec {header : Ptr} (hrd : Ready h header (A ++ B) e.ptr e.height)
    (hok : LevelOk h header (A ++ e :: B) i) {update : Nat → Option Ptr} {l : Nat} (hil : i < l)
    (hup : UpdateOk header A l update) :
    ∃ h', unlink update e.ptr i h = some h' ∧ Frame i h h' ∧
      LevelOk h' header (A ++ B) i ∧ forward h' e.ptr i = forward h e.ptr i := by
  have hc := cut_le A B
  have hlen := length_row A B e
  obtain ⟨u, hu, hget⟩ := hup i hil
  have hu := (floor_append A B).mpr hu
  rw [← ptrAt_append header A B hu.le] at hget
  have hule := hu.le
  have hun : u ≤ (A ++ B).length := hule.trans hc
  obtain ⟨j, hj⟩ := exists_next (heightAt (A ++ B)) i hun
  have hcj := hu.lt_next hc hj
  have hjl := hj.le
  have hlow := ptrAt_low header A B e hule
  have htall : i < heightAt (A ++ e :: B) u := by
    rw [(row_splice A B e).low u hule]
    exact hu.tall
  obtain ⟨nu, hnu, hnuh⟩ := hrd.at_info u hun
  have hne : ∀ m, m ≤ (A ++ B).length → m ≠ u → ptrAt header (A ++ B) m ≠ ptrAt header (A ++ B) u :=
    fun m hm hmu heq => hmu (hrd.inj m u hm hun heq)
  rcases (row_splice A B e).next_cases hc hj with ⟨-, hjc, -⟩ | ⟨-, -, hH, h1, h2⟩ |
    ⟨-, -, hH, h1⟩ | ⟨hck, -⟩
  · omega
  · -- the node reaches the level: the floor points to it
    rw [heightAt_mid] at hH
    obtain ⟨hfu, hsu⟩ := hok u (A.length + 1) (by omega) htall (hlen ▸ h1)
    obtain ⟨hfx, hsx⟩ := hok (A.length + 1) (j + 1) (by omega) (by rwa [heightAt_mid]) (hlen ▸ h2)
    rw [hlow, ptrAt_mid] at hfu
    rw [hlow, hlen, Nat.min_eq_left (by omega)] at hsu
    rw [ptrAt_mid, ptrAt_high header A B e hcj] at hfx
    rw [ptrAt_mid, hlen, Nat.add_min_add_right, Nat.add_sub_add_right] at hsx
    obtain ⟨h1, hw1, hfr1, hf1, hs1⟩ := setSpan_spec hnu (hnuh ▸ hu.tall)
      (UInt64.ofNat (A.length + 1 - u) + (UInt64.ofNat (min j (A ++ B).length - A.length) - 1))
    obtain ⟨h2, hw2, hfr2, hf2, hs2⟩ := setForward_spec ((hfr1.info _).trans hnu) (hnuh ▸ hu.tall)
      (ptrAt header (A ++ B) j)
    refine ⟨h2, ?_, hfr1.trans hfr2, hok.unsplice hu hj (fun m hm hmu => ?_) ?_, ?_⟩
    · simp only [unlink, hget, Option.bind_eq_bind, Option.bind_some, hfu, if_true, hsx, hsu, hw1]
      rw [hf1, hfx]
      exact hw2
    · rw [hf2, if_neg (hne m hm hmu), hf1, hs2, hs1, if_neg (hne m hm hmu)]
      exact ⟨rfl, rfl⟩
    · rw [hf2, if_pos rfl, hs2, hs1, if_pos rfl, span_unlink hule hc hcj]
      exact ⟨rfl, rfl⟩
    · rw [hf2, if_neg (hrd.x_ne u hun).symm, hf1]
  · -- the level passes over it
    obtain ⟨hfu, hsu⟩ := hok u (j + 1) (by omega) htall (hlen ▸ h1)
    rw [hlow, ptrAt_high header A B e hcj] at hfu
    rw [hlow, hlen, Nat.add_min_add_right] at hsu
    have hxj : ptrAt header (A ++ B) j ≠ e.ptr := by
      by_cases hjn : j ≤ (A ++ B).length
      · exact hrd.x_ne j hjn
      · obtain ⟨n, hn, -⟩ := hrd.x_info
        rw [ptrAt_past header (by omega)]
        exact (ne_null_of_info hn).symm
    obtain ⟨h1, hw1, hfr1, hf1, hs1⟩ := setSpan_spec hnu (hnuh ▸ hu.tall)
      (UInt64.ofNat (min j (A ++ B).length + 1 - u) - 1)
    refine ⟨h1, ?_, hfr1, hok.unsplice hu hj (fun m hm hmu => ?_) ?_, hf1 _⟩
    · simp only [unlink, hget, Option.bind_eq_bind, Option.bind_some, hfu, hxj, if_false, hsu, hw1]
    · exact ⟨hf1 _, by rw [hs1, if_neg (hne m hm hmu)]⟩
    · have hj' := hj.lt
      rw [hf1, hfu, hs1, if_pos rfl, show (1 : UInt64) = UInt64.ofNat 1 from rfl,
        ← UInt64.ofNat_sub (by omega), show min j (A ++ B).length + 1 - u - 1 = min j (A ++ B).length - u
          by omega]
      exact ⟨rfl, rfl⟩
  · omega

end Unlink

/-! ## Deleting a node -/

section Delete

variable {sl : Skiplist S T} {A B : List (Entry S T)} {e : Entry S T} {h : Heap S T}

/-- `while(_level > 1 && …) _level--`. -/
theorem lowerLevel_spec (header : Ptr) : ∀ l, 1 ≤ l →
    (∀ i, i < l → ∃ f, forward h header i = some f) →
    ∃ l', lowerLevel h header l = some l' ∧ 1 ≤ l' ∧ l' ≤ l ∧
      ∀ i, l' ≤ i → i < l → forward h header i = some null
  | 0, hl, _ => absurd hl (by omega)
  | 1, _, _ => ⟨1, rfl, le_rfl, le_rfl, fun i h1 h2 => by omega⟩
  | l + 2, _, hf => by
      obtain ⟨f, hf'⟩ := hf (l + 1) (by omega)
      by_cases hnull : f = null
      · obtain ⟨l', hrun, hpos, hle, hempty⟩ := lowerLevel_spec header (l + 1) (by omega)
          fun i hi => hf i (by omega)
        refine ⟨l', by simp [lowerLevel, hf', hnull, hrun], hpos, by omega, fun i h1 h2 => ?_⟩
        by_cases hi : i = l + 1
        · rw [hi, hf', hnull]
        · exact hempty i h1 (by omega)
      · exact ⟨l + 2, by simp [lowerLevel, hf', hnull], by omega, le_rfl, fun i h1 h2 => by omega⟩

theorem backward_of_info {p : Ptr} {n : Info S T} (hn : info h p = some n) :
    backward h p = some n.backward := by
  obtain ⟨m, hm, rfl⟩ := deref_of_info hn
  simp [backward, hm]

/-- The nodes of the shorter row, found in the longer one. -/
theorem row_put {k : Nat} {e' : Entry S T} (hk : (A ++ B)[k]? = some e') :
    (k < A.length → (A ++ e :: B)[k]? = some e') ∧
      (A.length ≤ k → (A ++ e :: B)[k + 1]? = some e') := by
  constructor
  · intro hkc
    rw [List.getElem?_append_left hkc] at hk ⊢
    exact hk
  · intro hkc
    rw [List.getElem?_append_right hkc] at hk
    rw [List.getElem?_append_right (by omega), show k + 1 - A.length = k - A.length + 1 by omega,
      List.getElem?_cons_succ, hk]

/-- The backward chain after a deletion: the successor points back to the
cut. -/
theorem node_delete (hr : Rep sl (A ++ e :: B))
    (hnext : ∀ n, info sl.heap (ptrAt sl.header (A ++ B) (A.length + 1)) = some n →
      info h (ptrAt sl.header (A ++ B) (A.length + 1)) =
        some { n with backward := if A.length = 0 then null else ptrAt sl.header (A ++ B) A.length })
    (hold : ∀ p, p ≠ e.ptr → p ≠ ptrAt sl.header (A ++ B) (A.length + 1) →
      info h p = info sl.heap p) :
    ∀ k e', (A ++ B)[k]? = some e' → info h e'.ptr =
      some ⟨e'.score, e'.obj, if k = 0 then null else ptrAt sl.header (A ++ B) k, e'.height⟩ := by
  intro k e' hk
  have hrd := hr.ready
  have hlen := (List.getElem?_eq_some_iff.mp hk).1
  have hp := ptrAt_of_get sl.header hk
  have hx : e'.ptr ≠ e.ptr := hp ▸ hrd.x_ne (k + 1) hlen
  obtain ⟨hput1, hput2⟩ := row_put (e := e) hk
  by_cases hkc : k = A.length
  · -- the successor
    subst hkc
    have hn := hr.node _ e' (hput2 le_rfl)
    rw [← hp] at hn ⊢
    rw [hnext _ hn]
  have hne : e'.ptr ≠ ptrAt sl.header (A ++ B) (A.length + 1) := by
    rw [← hp]
    intro heq
    by_cases hB : A.length + 1 ≤ (A ++ B).length
    · exact hkc (Nat.succ.inj (hrd.inj (k + 1) (A.length + 1) hlen hB heq))
    · obtain ⟨n, hn, -⟩ := hrd.at_info (k + 1) hlen
      exact ne_null_of_info hn (heq.trans (ptrAt_past sl.header (by omega)))
  rw [hold _ hx hne]
  by_cases hlt : k < A.length
  · rw [hr.node k e' (hput1 hlt), ptrAt_low sl.header A B e hlt.le]
  · rw [hr.node (k + 1) e' (hput2 (by omega)), ptrAt_high sl.header A B e (by omega),
      if_neg (Nat.succ_ne_zero k), if_neg (by omega)]

theorem nodup_delete {header : Ptr} (hr : (header :: (A ++ e :: B).map Entry.ptr).Nodup) :
    (header :: (A ++ B).map Entry.ptr).Nodup := by
  refine hr.sublist (List.Sublist.cons_cons header (List.Sublist.map Entry.ptr ?_))
  exact List.Sublist.append_left (List.sublist_cons_self e B) A

/-- What a deletion has to leave in memory. -/
theorem rep_delete (hr : Rep sl (A ++ e :: B)) {l : Nat} {tail : Ptr} (hpos : 1 ≤ l)
    (hle : l ≤ sl.level)
    (hnext : ∀ n, info sl.heap (ptrAt sl.header (A ++ B) (A.length + 1)) = some n →
      info h (ptrAt sl.header (A ++ B) (A.length + 1)) =
        some { n with backward := if A.length = 0 then null else ptrAt sl.header (A ++ B) A.length })
    (hold : ∀ p, p ≠ e.ptr → p ≠ ptrAt sl.header (A ++ B) (A.length + 1) →
      info h p = info sl.heap p)
    (hlevel : ∀ i, i < sl.level → LevelOk h sl.header (A ++ B) i)
    (habove : ∀ i, l ≤ i → i < maxLevel → forward h sl.header i = some null)
    (htail : tail = if ptrAt sl.header (A ++ B) (A.length + 1) = null then
      (if A.length = 0 then null else ptrAt sl.header (A ++ B) A.length) else sl.tail) :
    Rep ⟨h, sl.header, tail, sl.length - 1, l⟩ (A ++ B) := by
  have hrd := hr.ready
  have hc := cut_le A B
  have hlen := length_row A B e
  have hmem : ∀ e' ∈ A ++ B, e' ∈ A ++ e :: B := by
    intro e' he'
    simp only [List.mem_append, List.mem_cons] at he' ⊢
    tauto
  have hpast : ¬ A.length + 1 ≤ (A ++ B).length → ptrAt sl.header (A ++ B) (A.length + 1) = null :=
    fun hB => ptrAt_past sl.header (by omega)
  -- a tower above the new level would show in the header
  have hheight : ∀ e' ∈ A ++ B, e'.height ≤ l := by
    intro e' he'
    by_contra hgt
    have hl' := (hr.height e' (hmem e' he')).2
    obtain ⟨k, hk⟩ := List.mem_iff_getElem?.mp he'
    have hklen := (List.getElem?_eq_some_iff.mp hk).1
    have hkh : heightAt (A ++ B) (k + 1) = e'.height := by simp only [heightAt, hk]
    obtain ⟨j, hj⟩ := exists_next (heightAt (A ++ B)) l (Nat.zero_le (A ++ B).length)
    have hjk : j ≤ k + 1 := by
      by_contra hlt
      have := hj.gap (k + 1) (by omega) (by omega)
      omega
    have hlm := hr.level_le
    have hf := (hlevel l (by omega) 0 j (Nat.zero_le _) (show l < maxLevel by omega) hj).1
    obtain ⟨n, hn, -⟩ := hrd.at_info j (by omega)
    exact ne_null_of_info hn (Option.some.inj (hf.symm.trans (habove l le_rfl (by omega))))
  have hnode := node_delete hr hnext hold
  refine ⟨?_, hnode, nodup_delete hr.nodup, hpos, hle.trans hr.level_le,
    fun e' he' => ⟨(hr.height e' (hmem e' he')).1, hheight e' he'⟩, fun i => ?_,
    fun i hi k j hk ht hj => ?_, ?_, ?_⟩
  · obtain ⟨n, hn, hnh⟩ := hr.header
    refine ⟨n, (hold _ (hrd.x_ne 0 (Nat.zero_le _)) fun heq => ?_).trans hn, hnh⟩
    by_cases hB : A.length + 1 ≤ (A ++ B).length
    · have := hrd.inj 0 _ (Nat.zero_le _) hB heq
      omega
    · exact hr.ptrAt_ne_null (Nat.zero_le _) (heq.trans (hpast hB))
  · by_cases hi : i < l
    · exact fun k j hk ht hj => (hlevel i (by omega) k j hk ht hj).1
    · exact (forwardOk_above fun k hk => (heightAt_le hheight hk).trans (by omega)).mpr
        fun him => habove i (by omega) him
  · have hi' : i < sl.level := Nat.lt_of_lt_of_le hi hle
    exact (hlevel i hi' k j hk ht hj).2
  · show tail = if A ++ B = [] then null else _
    rw [htail]
    by_cases hB : A.length + 1 ≤ (A ++ B).length
    · have hne : A ++ B ≠ [] := by
        intro hnil
        rw [hnil, List.length_nil] at hB
        omega
      obtain ⟨n, hn, -⟩ := hrd.at_info _ hB
      rw [if_neg (ne_null_of_info hn), if_neg hne, hr.tail, if_neg (by simp), hlen,
        ptrAt_high sl.header A B e (by omega)]
    · rw [if_pos (hpast hB)]
      have hAB : (A ++ B).length = A.length := by omega
      by_cases hA : A.length = 0
      · rw [if_pos hA, if_pos (List.eq_nil_of_length_eq_zero (hAB.trans hA))]
      · have hne : A ++ B ≠ [] := by
          intro hnil
          rw [hnil, List.length_nil] at hAB
          omega
        rw [if_neg hA, if_neg hne, hAB]
  · show sl.length - 1 = UInt64.ofNat (A ++ B).length
    rw [hr.length, hlen, UInt64.ofNat_add]
    exact UInt64.add_sub_cancel _ _

/-- **Deletion.** With the `update[]` of the cut after `A`, the node after
it is taken out; the header stays and the level does not grow. -/
theorem deleteNodeInternal_spec (hr : Rep sl (A ++ e :: B)) {update : Nat → Option Ptr}
    (hup : UpdateOk sl.header A sl.level update) :
    ∃ sl', deleteNodeInternal e.ptr update sl = some sl' ∧ Rep sl' (A ++ B) ∧
      sl'.header = sl.header ∧ sl'.level ≤ sl.level := by
  have hrd := hr.ready
  have hc := cut_le A B
  have hlen := length_row A B e
  obtain ⟨h1, hrun1, hinfo1, hdone1, hrest1⟩ := forUp_levels 0 sl.level
    (fun h i => LevelOk h sl.header (A ++ B) i ∧ forward h e.ptr i = forward sl.heap e.ptr i)
    (fun h1 h2 i ⟨hok, hx⟩ hf hs => ⟨hok.congr (fun k _ => hf _) fun k _ => hs _, (hf _).trans hx⟩)
    (fun i h1 _ hi hinfo hf hs => by
      obtain ⟨h2, hrun, hframe, hok, hx⟩ := unlink_spec (hrd.congr hinfo)
        ((hr.levelOk (show i < sl.level by omega)).congr (fun k _ => hf _) fun k _ => hs _)
        (show i < sl.level by omega) hup
      exact ⟨h2, hrun, hframe, hok, hx.trans (hf _)⟩)
  -- the successor and the predecessor of the node
  have hfx : forward h1 e.ptr 0 = some (ptrAt sl.header (A ++ B) (A.length + 1)) := by
    rw [(hdone1 0 le_rfl (by have := hr.level_pos; omega)).2]
    have h0 := hr.forward_zero (show A.length + 1 ≤ _ by omega)
    rwa [ptrAt_mid, ptrAt_high sl.header A B e (by omega)] at h0
  have hinfox : info h1 e.ptr = some ⟨e.score, e.obj,
      if A.length = 0 then null else ptrAt sl.header (A ++ B) A.length, e.height⟩ := by
    rw [hinfo1, hr.node A.length e (row_getElem_mid A B e), ptrAt_low sl.header A B e le_rfl]
  have hsucc : ptrAt sl.header (A ++ B) (A.length + 1) ≠ e.ptr := by
    by_cases hB : A.length + 1 ≤ (A ++ B).length
    · exact hrd.x_ne _ hB
    · rw [ptrAt_past sl.header (by omega)]
      exact (ne_null_of_info hinfox).symm
  obtain ⟨h2, hrun2, hnext2, hold2, hf2, hs2⟩ := setBackwardOf_spec
    (fun hne : ptrAt sl.header (A ++ B) (A.length + 1) ≠ null => by
      have hB : A.length + 1 ≤ (A ++ B).length := by
        by_contra hB
        exact hne (ptrAt_past sl.header (by omega))
      obtain ⟨n, hn, -⟩ := hrd.at_info _ hB
      exact ⟨n, (hinfo1 _).trans hn⟩)
    (if A.length = 0 then null else ptrAt sl.header (A ++ B) A.length)
  obtain ⟨h3, hrun3, hinfo3, hf3, hs3⟩ := freeNode_spec ((hold2 _ hsucc.symm).trans hinfox)
  have hlevel3 : ∀ i, i < sl.level → LevelOk h3 sl.header (A ++ B) i := fun i hi =>
    (hdone1 i (Nat.zero_le i) (by omega)).1.congr
      (fun k hk => (hf3 _ i (hrd.x_ne k hk)).trans (hf2 _ i))
      fun k hk => (hs3 _ i (hrd.x_ne k hk)).trans (hs2 _ i)
  have hheader3 : ∀ i, forward h3 sl.header i = forward h1 sl.header i := fun i =>
    (hf3 _ i (hrd.x_ne 0 (Nat.zero_le _))).trans (hf2 _ i)
  obtain ⟨l, hrun4, hpos, hle, hempty⟩ := lowerLevel_spec sl.header sl.level hr.level_pos (fun i hi => by
    obtain ⟨j, hj⟩ := exists_next (heightAt (A ++ B)) i (Nat.zero_le (A ++ B).length)
    have hlm := hr.level_le
    exact ⟨_, (hlevel3 i hi 0 j (Nat.zero_le _) (show i < maxLevel by omega) hj).1⟩)
  have hnext3 : ∀ n, info sl.heap (ptrAt sl.header (A ++ B) (A.length + 1)) = some n →
      info h3 (ptrAt sl.header (A ++ B) (A.length + 1)) = some { n with
        backward := if A.length = 0 then null else ptrAt sl.header (A ++ B) A.length } := by
    intro n hn
    rw [hinfo3, if_neg hsucc]
    exact hnext2 n ((hinfo1 _).trans hn)
  have hold3 : ∀ p, p ≠ e.ptr → p ≠ ptrAt sl.header (A ++ B) (A.length + 1) →
      info h3 p = info sl.heap p := by
    intro p hp1 hp2
    rw [hinfo3, if_neg hp1, hold2 p hp2, hinfo1]
  have habove3 : ∀ i, l ≤ i → i < maxLevel → forward h3 sl.header i = some null := by
    intro i hi him
    by_cases hil : i < sl.level
    · exact hempty i hi hil
    · rw [hheader3, (hrest1 i (by omega)).1]
      exact (forwardOk_above fun k hk => (hr.heightAt_le hk).trans (by omega)).mp (hr.forward i) him
  refine ⟨_, ?_, rep_delete hr hpos hle hnext3 hold3 hlevel3 habove3 rfl, rfl, hle⟩
  simp only [deleteNodeInternal, hrun1, Option.bind_eq_bind, Option.bind_some, hfx,
    backward_of_info hinfox, hrun2, hrun3, hrun4]

end Delete

end HighJump.Algo.Skip
