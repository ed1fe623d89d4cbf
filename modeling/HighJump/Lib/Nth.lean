/-
HighJump.Lib.Nth — the n-th hit after a point, and before it.

`IsNthAfter P t n d` says that `d` is a hit beyond `t` and the `n`-th one
counting from there. Counts on two stretches add up, which composes two
searches into one (`IsNthAfter.add`, `IsNthAfter.split`); between two
hits the counts from either end agree, which turns a search around
(`IsNthAfter.reverse`). "Before" is "after" in the dual order.

`countTo` is the loop that walks on from hit to hit and stops at the
`n`-th; `countTo_returns` is its rule.
-/
import HighJump.Lib.Loop
import Mathlib.Order.Interval.Finset.SuccPred
import Mathlib.Data.Finset.Max
import Mathlib.Data.Int.Interval
import Mathlib.Data.Int.SuccPred
import Mathlib.Tactic.Common

namespace HighJump.Lib

universe u v

open Finset (Ioc Ico Ioo)

variable {α : Type u} [LinearOrder α] [LocallyFiniteOrder α]

/-- `d` is the `n`-th hit strictly after `t`. -/
structure IsNthAfter (P : α → Prop) [DecidablePred P] (t : α) (n : Nat) (d : α) : Prop where
  lt : t < d
  hit : P d
  count : ((Ioc t d).filter P).card = n

/-- `d` is the `n`-th hit strictly before `t`, counted downwards. -/
structure IsNthBefore (P : α → Prop) [DecidablePred P] (t : α) (n : Nat) (d : α) : Prop where
  lt : d < t
  hit : P d
  count : ((Ico d t).filter P).card = n

variable {P : α → Prop} [DecidablePred P] {t d e : α} {n a b : Nat}

theorem card_filter_Ioc_add (hte : t ≤ e) (hed : e ≤ d) :
    ((Ioc t d).filter P).card = ((Ioc t e).filter P).card + ((Ioc e d).filter P).card := by
  rw [← Finset.Ioc_union_Ioc_eq_Ioc hte hed, Finset.filter_union, Finset.card_union_of_disjoint]
  exact Finset.disjoint_filter_filter (Finset.Ioc_disjoint_Ioc_of_le le_rfl)

namespace IsNthAfter

theorem pos (h : IsNthAfter P t n d) : 1 ≤ n := by
  rw [← h.count]
  exact Finset.card_pos.mpr
    ⟨d, Finset.mem_filter.mpr ⟨Finset.mem_Ioc.mpr ⟨h.lt, le_rfl⟩, h.hit⟩⟩

/-- A later hit has a higher number. -/
theorem count_lt (h : IsNthAfter P t n d) (hte : t ≤ e) (hed : e < d) :
    ((Ioc t e).filter P).card < n := by
  rw [← h.count, card_filter_Ioc_add hte hed.le]
  have hpos := pos (P := P) (t := e) (d := d) ⟨hed, h.hit, rfl⟩
  omega

theorem unique (h : IsNthAfter P t n d) (h' : IsNthAfter P t n e) : d = e := by
  rcases lt_trichotomy d e with hlt | heq | hgt
  · have hcount := h'.count_lt h.lt.le hlt
    rw [h.count] at hcount
    omega
  · exact heq
  · have hcount := h.count_lt h'.lt.le hgt
    rw [h'.count] at hcount
    omega

/-- The `a`-th hit after the `b`-th. -/
theorem add (hb : IsNthAfter P t b e) (ha : IsNthAfter P e a d) : IsNthAfter P t (b + a) d where
  lt := hb.lt.trans ha.lt
  hit := ha.hit
  count := by rw [card_filter_Ioc_add hb.lt.le ha.lt.le, hb.count, ha.count]

/-- From hit to hit the counts of the two ends agree. -/
theorem reverse (h : IsNthAfter P t n d) (ht : P t) : IsNthBefore P d n t where
  lt := h.lt
  hit := ht
  count := by
    rw [← h.count, ← Finset.Ioo_insert_left h.lt, ← Finset.Ioo_insert_right h.lt,
      Finset.filter_insert, Finset.filter_insert, if_pos ht, if_pos h.hit,
      Finset.card_insert_of_notMem (by simp), Finset.card_insert_of_notMem (by simp)]

/-- Where there is a hit, there is a first one. -/
theorem exists_first (hlt : t < d) (hd : P d) : ∃ e, IsNthAfter P t 1 e ∧ e ≤ d := by
  obtain ⟨e, he, hmin⟩ := Finset.exists_min_image ((Ioc t d).filter P) id
    ⟨d, Finset.mem_filter.mpr ⟨Finset.mem_Ioc.mpr ⟨hlt, le_rfl⟩, hd⟩⟩
  obtain ⟨hIoc, hPe⟩ := Finset.mem_filter.mp he
  obtain ⟨hte, hed⟩ := Finset.mem_Ioc.mp hIoc
  refine ⟨e, ⟨hte, hPe, ?_⟩, hed⟩
  rw [Finset.card_eq_one]
  refine ⟨e, Finset.eq_singleton_iff_unique_mem.mpr
    ⟨Finset.mem_filter.mpr ⟨Finset.mem_Ioc.mpr ⟨hte, le_rfl⟩, hPe⟩, fun x hx => ?_⟩⟩
  obtain ⟨hxI, hPx⟩ := Finset.mem_filter.mp hx
  obtain ⟨htx, hxe⟩ := Finset.mem_Ioc.mp hxI
  exact le_antisymm hxe
    (hmin x (Finset.mem_filter.mpr ⟨Finset.mem_Ioc.mpr ⟨htx, hxe.trans hed⟩, hPx⟩))

/-- A search taken apart after its first hit. -/
theorem split_first (hn : 1 ≤ n) (h : IsNthAfter P t (n + 1) d) :
    ∃ e, IsNthAfter P t 1 e ∧ IsNthAfter P e n d := by
  obtain ⟨e, he, hed⟩ := exists_first h.lt h.hit
  have hlt : e < d := by
    refine lt_of_le_of_ne hed ?_
    rintro rfl
    have hcount := he.count.symm.trans h.count
    omega
  refine ⟨e, he, hlt, h.hit, ?_⟩
  have hcount := h.count
  rw [card_filter_Ioc_add he.lt.le hed, he.count] at hcount
  omega

/-- A search taken apart after its `b`-th hit. -/
theorem split (ha : 1 ≤ a) (hb : 1 ≤ b) (h : IsNthAfter P t (b + a) d) :
    ∃ e, IsNthAfter P t b e ∧ IsNthAfter P e a d := by
  induction b, hb using Nat.le_induction generalizing t with
  | base =>
    rw [Nat.add_comm] at h
    exact h.split_first ha
  | succ b hb ih =>
    rw [Nat.add_right_comm] at h
    obtain ⟨e, he, hrest⟩ := h.split_first (by omega)
    obtain ⟨f, hf, hfd⟩ := ih hrest
    refine ⟨f, ?_, hfd⟩
    rw [Nat.add_comm]
    exact he.add hf

/-- Hits without end have an `n`-th. -/
theorem exists_nth (hinf : ∀ t, ∃ d, t < d ∧ P d) (t : α) (hn : 1 ≤ n) :
    ∃ d, IsNthAfter P t n d := by
  induction n, hn using Nat.le_induction with
  | base =>
    obtain ⟨d, hlt, hd⟩ := hinf t
    obtain ⟨e, he, -⟩ := exists_first hlt hd
    exact ⟨e, he⟩
  | succ n _ ih =>
    obtain ⟨d, hd⟩ := ih
    obtain ⟨d', hlt, hd'⟩ := hinf d
    obtain ⟨e, he, -⟩ := exists_first hlt hd'
    exact ⟨e, hd.add he⟩

end IsNthAfter

/-! ## The other direction -/

theorem isNthBefore_iff_dual :
    IsNthBefore P t n d ↔
      IsNthAfter (fun x : αᵒᵈ => P (OrderDual.ofDual x)) (OrderDual.toDual t) n
        (OrderDual.toDual d) :=
  ⟨fun h => ⟨h.lt, h.hit, h.count⟩, fun h => ⟨h.lt, h.hit, h.count⟩⟩

namespace IsNthBefore

theorem pos (h : IsNthBefore P t n d) : 1 ≤ n := (isNthBefore_iff_dual.mp h).pos

theorem unique (h : IsNthBefore P t n d) (h' : IsNthBefore P t n e) : d = e :=
  (isNthBefore_iff_dual.mp h).unique (isNthBefore_iff_dual.mp h')

theorem split (ha : 1 ≤ a) (hb : 1 ≤ b) (h : IsNthBefore P t (b + a) d) :
    ∃ e, IsNthBefore P t b e ∧ IsNthBefore P e a d := by
  obtain ⟨e, he, hd⟩ := (isNthBefore_iff_dual.mp h).split ha hb
  exact ⟨OrderDual.ofDual e, isNthBefore_iff_dual.mpr he, isNthBefore_iff_dual.mpr hd⟩

theorem reverse (h : IsNthBefore P t n d) (ht : P t) : IsNthAfter P d n t := by
  have hdual := (isNthBefore_iff_dual.mp h).reverse ht
  exact ⟨hdual.lt, hdual.hit, hdual.count⟩

theorem exists_nth (hinf : ∀ t, ∃ d, d < t ∧ P d) (t : α) (hn : 1 ≤ n) :
    ∃ d, IsNthBefore P t n d := by
  obtain ⟨d, hd⟩ := IsNthAfter.exists_nth (P := fun x : αᵒᵈ => P (OrderDual.ofDual x))
    (fun t => hinf (OrderDual.ofDual t)) (OrderDual.toDual t) hn
  exact ⟨OrderDual.ofDual d, isNthBefore_iff_dual.mpr hd⟩

end IsNthBefore

/-! ## The counting loop -/

section CountTo

variable {σ : Type v} (hit : σ → Option Bool) (step : σ → Option σ)

def countTurn (n : Nat) : σ × Nat → Option (Turn (σ × Nat) σ)
  | (x, count) => (hit x).bind fun working =>
      if working then
        if count + 1 = n then some (.exit x) else (step x).map fun y => .again (y, count + 1)
      else (step x).map fun y => .again (y, count)

/-- `while(true) { if(hit(x)) if(++count == n) return x;  x = step(x); }`. -/
def countTo (n : Nat) (x : σ) (fuel : Nat) : Option σ :=
  repeatUntil (fun _ => countTurn hit step n) fuel (x, 0)

variable {hit step}

theorem countTurn_exit {x : σ} {count : Nat} (hx : hit x = some true) (hn : count + 1 = n) :
    countTurn hit step n (x, count) = some (.exit x) := by
  rw [countTurn, hx, Option.bind_some, if_pos rfl, if_pos hn]

theorem countTurn_again {x y : σ} {count : Nat} {w : Bool} (hx : hit x = some w)
    (hstep : step x = some y) (hn : w = true → count + 1 ≠ n) :
    countTurn hit step n (x, count) = some (.again (y, count + if w then 1 else 0)) := by
  rw [countTurn, hx, hstep, Option.bind_some]
  cases w with
  | true => rw [if_pos rfl, if_neg (hn rfl)]; rfl
  | false => rfl

/-- The last point of a stretch, counted apart. -/
theorem card_filter_Ioc_last (h : t < d) :
    ((Ioc t d).filter P).card = ((Ioo t d).filter P).card + if P d then 1 else 0 := by
  rw [← Finset.Ioo_insert_right h, Finset.filter_insert]
  split
  · rw [Finset.card_insert_of_notMem (by simp)]
  · rfl

/-- At `c` the loop has counted the hits before `c`; at `d` it ends. -/
theorem countTurn_last {x : σ} (h : IsNthAfter P t n d) (hhit : hit x = some (decide (P d))) :
    countTurn hit step n (x, ((Ioo t d).filter P).card) = some (.exit x) := by
  have hlast := card_filter_Ioc_last (P := P) h.lt
  rw [h.count, if_pos h.hit] at hlast
  rw [decide_eq_true h.hit] at hhit
  exact countTurn_exit hhit hlast.symm

variable [SuccOrder α] [NoMaxOrder α]

/-- Short of `d` a turn goes on to the next point, as a hit there is not
the `n`-th. -/
theorem countTurn_before {c : α} {x y : σ} (h : IsNthAfter P t n d) (htc : t < c) (hcd : c < d)
    (hhit : hit x = some (decide (P c))) (hstep : step x = some y) :
    countTurn hit step n (x, ((Ioo t c).filter P).card) =
      some (.again (y, ((Ioo t (Order.succ c)).filter P).card)) := by
  have hcount := card_filter_Ioc_last (P := P) htc
  have hne : decide (P c) = true → ((Ioo t c).filter P).card + 1 ≠ n := by
    intro hw
    have hbelow := h.count_lt htc.le hcd
    rw [hcount, if_pos (of_decide_eq_true hw)] at hbelow
    omega
  have hturn := countTurn_again hhit hstep hne
  rw [Finset.Ioo_succ_right_eq_Ioc, hcount]
  simpa only [decide_eq_true_eq] using hturn

/-- On a path through the points after `t`, the loop stops at the `n`-th
hit. -/
theorem countTo_returns (path : α → σ) (h : IsNthAfter P t n d)
    (hhit : ∀ c, t < c → c ≤ d → hit (path c) = some (decide (P c)))
    (hstep : ∀ c, t < c → c < d → step (path c) = some (path (Order.succ c))) :
    Returns (countTo hit step n (path (Order.succ t))) (path d) := by
  -- the induction is on the points left to `d`
  have hloop : ∀ (k : Nat) (c : α), (Ioc c d).card = k → t < c → c ≤ d →
      Returns (fun fuel => repeatUntil (fun _ => countTurn hit step n) fuel
        (path c, ((Ioo t c).filter P).card)) (path d) := by
    intro k
    induction k with
    | zero =>
      intro c hk htc hcd
      rw [Finset.card_eq_zero, Finset.Ioc_eq_empty_iff] at hk
      obtain rfl : c = d := le_antisymm hcd (not_lt.mp hk)
      exact Returns.repeat_exit ⟨0, fun _ _ => countTurn_last h (hhit c htc le_rfl)⟩
    | succ k ih =>
      intro c hk htc hcd
      have hlt : c < d := by
        rw [← Finset.nonempty_Ioc, ← Finset.card_pos]
        omega
      have hleft : (Ioc (Order.succ c) d).card = k := by
        rw [← Finset.insert_Ioc_succ_left_eq_Ioc hlt, Finset.card_insert_of_notMem (by simp)] at hk
        omega
      exact Returns.repeat_again
        ⟨0, fun _ _ => countTurn_before h htc hlt (hhit c htc hcd) (hstep c htc hlt)⟩
        (ih _ hleft (htc.trans (Order.lt_succ c)) (Order.succ_le_of_lt hlt))
  have hstart := hloop _ (Order.succ t) rfl (Order.lt_succ t) (Order.succ_le_of_lt h.lt)
  rwa [Finset.Ioo_succ_right_eq_Ioc, Finset.Ioc_self, Finset.filter_empty,
    Finset.card_empty] at hstart

end CountTo

end HighJump.Lib
