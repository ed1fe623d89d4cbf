/-
HighJump.Lib.Towers — a row of towers, and what stands next to what at a
given height.

Positions run from 0 to `n` and `ht m` is the height of the tower at `m`.
`Next` is the first taller position to the right (`n + 1` when there is
none), `Floor` the last one up to a cut. Both are relations with one
value, so a proof names the value and reads off what it needs. `Splice`
puts one tower into the row, and `Splice.next_cases` is the whole effect
of that on `Next`: it is used from left to right by an insertion and from
right to left by a deletion.
-/
import Mathlib.Order.Basic
import Mathlib.Data.Nat.Find

namespace HighJump.Lib.Towers

/-- `j` is the first position after `k` taller than `i`, or `n + 1`. -/
structure Next (ht : Nat → Nat) (n i k j : Nat) : Prop where
  lt : k < j
  le : j ≤ n + 1
  tall : j ≤ n → i < ht j
  gap : ∀ m, k < m → m < j → ht m ≤ i

/-- `u` is the last position up to `c` taller than `i`. -/
structure Floor (ht : Nat → Nat) (c i u : Nat) : Prop where
  le : u ≤ c
  tall : i < ht u
  gap : ∀ m, u < m → m ≤ c → ht m ≤ i

variable {ht ht' : Nat → Nat} {n c i k j j' u u' : Nat}

theorem exists_next (ht : Nat → Nat) (i : Nat) (hk : k ≤ n) : ∃ j, Next ht n i k j := by
  have hex : ∃ j, k < j ∧ (j ≤ n → i < ht j) := ⟨n + 1, by omega, by omega⟩
  refine ⟨Nat.find hex, (Nat.find_spec hex).1, ?_, (Nat.find_spec hex).2, fun m hkm hm => ?_⟩
  · exact Nat.find_min' hex ⟨by omega, by omega⟩
  · by_contra hlt
    exact Nat.find_min hex hm ⟨hkm, fun _ => by omega⟩

theorem Next.unique (h : Next ht n i k j) (h' : Next ht n i k j') : j = j' := by
  by_contra hne
  rcases Nat.lt_or_gt_of_ne hne with hlt | hlt
  · have h1 := h'.gap j h.lt hlt
    have h2 := h.tall (by have := h'.le; omega)
    omega
  · have h1 := h.gap j' h'.lt hlt
    have h2 := h'.tall (by have := h.le; omega)
    omega

theorem Floor.unique (h : Floor ht c i u) (h' : Floor ht c i u') : u = u' := by
  by_contra hne
  rcases Nat.lt_or_gt_of_ne hne with hlt | hlt
  · have h1 := h.gap u' hlt h'.le
    have h2 := h'.tall
    omega
  · have h1 := h'.gap u hlt h.le
    have h2 := h.tall
    omega

/-- What follows the floor lies beyond the cut. -/
theorem Floor.lt_next (h : Floor ht c i u) (hc : c ≤ n) (hn : Next ht n i u j) : c < j := by
  by_contra hlt
  have h1 := h.gap j hn.lt (by omega)
  have h2 := hn.tall (by omega)
  omega

/-- A step across the cut starts from the floor. -/
theorem Next.floor (h : Next ht n i k j) (hk : k ≤ c) (hj : c < j) (htall : i < ht k) :
    Floor ht c i k :=
  ⟨hk, htall, fun m hkm hm => h.gap m hkm (by omega)⟩

/-- Where every tower has height, the floor at level 0 is the cut. -/
theorem Floor.eq_cut (h : Floor ht c 0 u) (hpos : ∀ m, m ≤ c → 0 < ht m) : u = c := by
  by_contra hne
  have hle := h.le
  have h1 := h.gap c (by omega) le_rfl
  have h2 := hpos c le_rfl
  omega

/-- Where every tower has height, the next one at level 0 is the next
position. -/
theorem Next.eq_succ (h : Next ht n 0 k j) (hpos : ∀ m, m ≤ n → 0 < ht m) : j = k + 1 := by
  by_contra hne
  have hlt := h.lt
  have hle := h.le
  have h1 := h.gap (k + 1) (by omega) (by omega)
  have h2 := hpos (k + 1) (by omega)
  omega

/-! ## One tower more -/

/-- `ht'` is `ht` with one tower put in after position `c`. -/
structure Splice (ht ht' : Nat → Nat) (c : Nat) : Prop where
  low : ∀ m, m ≤ c → ht' m = ht m
  high : ∀ m, c < m → ht' (m + 1) = ht m

/-- What the towers of the shorter row stand next to, in the longer
one. -/
theorem Splice.next_cases (s : Splice ht ht' c) (hc : c ≤ n) (h : Next ht n i k j) :
    (k ≤ c ∧ j ≤ c ∧ Next ht' (n + 1) i k j) ∨
    (k ≤ c ∧ c < j ∧ i < ht' (c + 1) ∧ Next ht' (n + 1) i k (c + 1) ∧
      Next ht' (n + 1) i (c + 1) (j + 1)) ∨
    (k ≤ c ∧ c < j ∧ ht' (c + 1) ≤ i ∧ Next ht' (n + 1) i k (j + 1)) ∨
    (c < k ∧ Next ht' (n + 1) i (k + 1) (j + 1)) := by
  obtain ⟨hlt, hle, htall, hgap⟩ := h
  -- gaps of the old row, seen in the new one
  have hlow : ∀ m, k < m → m < j → m ≤ c → ht' m ≤ i := fun m h1 h2 h3 => by
    rw [s.low m h3]
    exact hgap m h1 h2
  have hhigh : ∀ m, k + 1 < m → m < j + 1 → c + 1 < m → ht' m ≤ i := fun m h1 h2 h3 => by
    obtain ⟨m, rfl⟩ : ∃ m', m = m' + 1 := ⟨m - 1, by omega⟩
    rw [s.high m (by omega)]
    exact hgap m (by omega) (by omega)
  have htop : c < j → j + 1 ≤ n + 1 → i < ht' (j + 1) := fun h1 h2 => by
    rw [s.high j h1]
    exact htall (by omega)
  by_cases hk : k ≤ c
  · by_cases hj : j ≤ c
    · refine .inl ⟨hk, hj, hlt, by omega, fun _ => ?_, fun m h1 h2 => hlow m h1 h2 (by omega)⟩
      rw [s.low j hj]
      exact htall (by omega)
    · by_cases hH : i < ht' (c + 1)
      · refine .inr (.inl ⟨hk, by omega, hH, ⟨by omega, by omega, fun _ => hH, fun m h1 h2 => ?_⟩,
          ⟨by omega, by omega, htop (by omega), fun m h1 h2 => ?_⟩⟩)
        · exact hlow m h1 (by omega) (by omega)
        · exact hhigh m (by omega) h2 h1
      · refine .inr (.inr (.inl ⟨hk, by omega, by omega, by omega, by omega, htop (by omega),
          fun m h1 h2 => ?_⟩))
        rcases Nat.lt_trichotomy m (c + 1) with hm | rfl | hm
        · exact hlow m h1 (by omega) (by omega)
        · omega
        · exact hhigh m (by omega) h2 hm
  · refine .inr (.inr (.inr ⟨by omega, by omega, by omega, htop (by omega), fun m h1 h2 => ?_⟩))
    exact hhigh m h1 h2 (by omega)

/-- What the towers of the longer row stand next to, read off the shorter
one: only the floor `u` of the cut and the new tower have a new
neighbour. -/
theorem Splice.next_inv (s : Splice ht ht' c) (hc : c ≤ n) (hu : Floor ht c i u)
    (hj : Next ht n i u j) (hk : k ≤ n + 1) (htall : i < ht' k) (h : Next ht' (n + 1) i k j') :
    (k ≤ c ∧ k ≠ u ∧ j' ≤ c ∧ Next ht n i k j') ∨
    (k = u ∧ i < ht' (c + 1) ∧ j' = c + 1) ∨
    (k = u ∧ ht' (c + 1) ≤ i ∧ j' = j + 1) ∨
    (k = c + 1 ∧ j' = j + 1) ∨
    (∃ m l, c < m ∧ m ≤ n ∧ k = m + 1 ∧ j' = l + 1 ∧ i < ht m ∧ Next ht n i m l) := by
  have hcj := hu.lt_next hc hj
  rcases Nat.lt_trichotomy k (c + 1) with hkc | rfl | hkc
  · have hkt : i < ht k := by rwa [← s.low k (by omega)]
    obtain ⟨l, hl⟩ := exists_next ht i (show k ≤ n by omega)
    rcases s.next_cases hc hl with ⟨-, hlc, h'⟩ | ⟨-, hlc, hH, h', -⟩ | ⟨-, hlc, hH, h'⟩ | ⟨hck, -⟩
    · obtain rfl := h.unique h'
      refine .inl ⟨by omega, fun hku => ?_, hlc, hl⟩
      subst hku
      have := hl.unique hj
      omega
    · exact .inr (.inl ⟨(hl.floor (by omega) hlc hkt).unique hu, hH, h.unique h'⟩)
    · obtain rfl := (hl.floor (by omega) hlc hkt).unique hu
      obtain rfl := hl.unique hj
      exact .inr (.inr (.inl ⟨rfl, hH, h.unique h'⟩))
    · omega
  · rcases s.next_cases hc hj with ⟨-, hlc, -⟩ | ⟨-, -, -, -, h'⟩ | ⟨-, -, hH, -⟩ | ⟨hck, -⟩
    · omega
    · exact .inr (.inr (.inr (.inl ⟨rfl, h.unique h'⟩)))
    · omega
    · have := hu.le
      omega
  · obtain ⟨m, rfl⟩ : ∃ m, k = m + 1 := ⟨k - 1, by omega⟩
    obtain ⟨l, hl⟩ := exists_next ht i (show m ≤ n by omega)
    rcases s.next_cases hc hl with ⟨hmc, -⟩ | ⟨hmc, -⟩ | ⟨hmc, -⟩ | ⟨-, h'⟩
    · omega
    · omega
    · omega
    · refine .inr (.inr (.inr (.inr ⟨m, l, by omega, by omega, rfl, h.unique h', ?_, hl⟩)))
      rwa [← s.high m (by omega)]

end HighJump.Lib.Towers
