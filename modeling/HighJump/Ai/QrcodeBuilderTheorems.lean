/-
HighJump.Ai.QrcodeBuilderTheorems — the pixels of an encoded symbol.

`Shows S A data` says that the bitmap of side `S` is black on `A` and white
elsewhere. Every loop of `encode` adds a piece to `A`: a pixel, a row of a
block, a block, the blocks of a row of modules, all of them; so the bitmap
is black on the blocks of the dark modules and nowhere else
(`paint_shows`), which is the pixel law (`encode_pixels`).

The one thing that could go wrong is the index into the symbol: `r * modules`
plus `c` is an `int`, which would overflow from 46341 modules per side on.
The largest QR code, version 40, has 177, and `libqrencode` makes no larger
one.
-/
import HighJump.Lib.RowMajor
import HighJump.Ai.QrcodeBuilder

namespace HighJump.Ai.Qrcode.Builder

open HighJump.Lib

/-! ## Bitmaps -/

/-- The bitmap of side `S`, black on `A`. -/
structure Shows (S : Nat) (A : Nat × Nat → Prop) (data : Bytes) : Prop where
  length : data.length = S * S
  black : ∀ x y, x < S → y < S → A (x, y) → data[y * S + x]? = some 0
  white : ∀ x y, x < S → y < S → ¬ A (x, y) → data[y * S + x]? = some 255

variable {S : Nat} {A : Nat × Nat → Prop} {data : Bytes}

theorem Shows.congr {B : Nat × Nat → Prop} (h : Shows S A data)
    (hAB : ∀ x y, x < S → y < S → (A (x, y) ↔ B (x, y))) : Shows S B data where
  length := h.length
  black := fun x y hx hy hB => h.black x y hx hy ((hAB x y hx hy).mpr hB)
  white := fun x y hx hy hB => h.white x y hx hy fun hA => hB ((hAB x y hx hy).mp hA)

theorem shows_white (S : Nat) : Shows S (fun _ => False) (List.replicate (S * S) 255) where
  length := List.length_replicate
  black := fun _ _ _ _ h => h.elim
  white := fun x y hx hy _ => by
    rw [List.getElem?_replicate, if_pos (mul_add_lt hy hx)]

/-- One pixel. -/
theorem setBlack_shows (h : Shows S A data) {x y : Nat} (hx : x < S) (hy : y < S) :
    ∃ data', setBlack (y * S + x) data = some data' ∧
      Shows S (fun p => A p ∨ p = (x, y)) data' := by
  have hlt : y * S + x < data.length := h.length ▸ mul_add_lt hy hx
  refine ⟨data.set (y * S + x) 0, if_pos hlt, ?_, fun x' y' hx' hy' hp => ?_,
    fun x' y' hx' hy' hp => ?_⟩
  · rw [List.length_set, h.length]
  · by_cases hsame : y * S + x = y' * S + x'
    · rw [hsame, List.getElem?_set_self (hsame ▸ hlt)]
    · rw [List.getElem?_set_ne hsame]
      rcases hp with hA | heq
      · exact h.black x' y' hx' hy' hA
      · obtain ⟨rfl, rfl⟩ := Prod.mk.inj heq
        exact absurd rfl hsame
  · have hsame : y * S + x ≠ y' * S + x' := by
      intro heq
      obtain ⟨rfl, rfl⟩ := mul_add_inj hx hx' heq
      exact hp (.inr rfl)
    rw [List.getElem?_set_ne hsame]
    exact h.white x' y' hx' hy' fun hA => hp (.inl hA)

/-! ## The loops -/

/-- The block of `k` by `k` pixels from `(x0, y0)` on. -/
def Block (k x0 y0 : Nat) (p : Nat × Nat) : Prop :=
  ∃ y, 0 ≤ y ∧ y < 0 + k ∧ ∃ x, 0 ≤ x ∧ x < 0 + k ∧ p = (x0 + x, y0 + y)

theorem sq_lt (hS : S < 2 ^ 31) : S * S < 2 ^ 64 := by
  have hle : S * S ≤ 2 ^ 31 * 2 ^ 31 := Nat.mul_le_mul (by omega) (by omega)
  omega

theorem paintBlock_shows (hS : S < 2 ^ 31) {k x0 y0 : Nat} (hx : x0 + k ≤ S) (hy : y0 + k ≤ S)
    (h : Shows S A data) :
    ∃ data', paintBlock k S x0 y0 data = some data' ∧
      Shows S (fun p => A p ∨ Block k x0 y0 p) data' := by
  have hsq := sq_lt hS
  rw [paintBlock, Int.toNat_natCast]
  refine forUp_union (Shows S) _ k (fun y _ hyk A data h => ?_) h
  refine forUp_union (Shows S) _ k (fun x _ hxk A data h => ?_) h
  have hlt : (y0 + y) * S + (x0 + x) < S * S := mul_add_lt (by omega) (by omega)
  have hrow : (y0 + y) % 2 ^ 64 * S % 2 ^ 64 = (y0 + y) * S := by
    have hy64 : (y0 + y) % 2 ^ 64 = y0 + y := Nat.mod_eq_of_lt (by omega)
    rw [hy64, Nat.mod_eq_of_lt (by omega)]
  have hindex : ((y0 + y) % 2 ^ 64 * S % 2 ^ 64 + x0 + x) % 2 ^ 64 =
      (y0 + y) * S + (x0 + x) := by
    rw [hrow, Nat.add_assoc, Nat.mod_eq_of_lt (by omega)]
  simp only [hindex]
  exact setBlack_shows h (by omega) (by omega)

/-- A symbol whose indices are `int`s is read where it is. -/
theorem module_eq {q : QRcode} {m r c : Nat} (hq : q.width = m) (hm : m * m ≤ 2 ^ 31)
    (hr : r < m) (hc : c < m) :
    ∃ module, q.module r c = some module ∧ (module &&& 1 ≠ 0 ↔ q.Dark c r) := by
  have hlt : r * m + c < m * m := mul_add_lt hr hc
  have hcast : (r : Int) * q.width = ((r * m : Nat) : Int) := by rw [hq, Int.natCast_mul]
  have hindex : ((r : Int) * q.width + c).toNat = r * m + c := by
    rw [hcast, ← Int.natCast_add, Int.toNat_natCast]
  have hlen : r * m + c < q.data.length := by
    rw [q.length_data, hq, ← Int.natCast_mul, Int.toNat_natCast]
    exact hlt
  have hget : q.data[r * m + c]? = some (q.data[r * m + c]) := List.getElem?_eq_getElem hlen
  refine ⟨q.data[r * m + c], ?_, ?_⟩
  · rw [QRcode.module, hcast, checkInt_natCast (by omega), Option.bind_eq_bind, Option.bind_some,
      ← Int.natCast_add, checkInt_natCast (by omega), Option.bind_some, Int.toNat_natCast]
    exact hget
  · rw [QRcode.Dark, hindex, hget]
    constructor
    · exact fun hdark => ⟨by omega, by omega, by omega, by omega, _, rfl, hdark⟩
    · rintro ⟨-, -, -, -, module, hmodule, hdark⟩
      rwa [Option.some.inj hmodule]

section Loops

variable {q : QRcode} {m k g : Nat} (hq : q.width = m) (hm : m * m ≤ 2 ^ 31)
  (hS : S = (m + 2 * g) * k) (hlt : S < 2 ^ 31)

include hS in
/-- The block of a module is inside. -/
theorem block_le {c : Nat} (hc : c < m) : (g + c) * k + k ≤ S := by
  have hle : (g + c + 1) * k ≤ (m + 2 * g) * k := Nat.mul_le_mul_right k (by omega)
  rwa [Nat.succ_mul, ← hS] at hle

include hq hm hS hlt in
theorem paintModule_shows {r c : Nat} (hr : r < m) (hc : c < m) (hk : 0 < k)
    (h : Shows S A data) :
    ∃ data', paintModule q k g S r c data = some data' ∧
      Shows S (fun p => A p ∨ (q.Dark c r ∧ Block k ((g + c) * k) ((g + r) * k) p)) data' := by
  obtain ⟨module, hmodule, hdark⟩ := module_eq hq hm hr hc
  have hxle := block_le hS hc (g := g)
  have hyle := block_le hS hr (g := g)
  by_cases hblack : module &&& 1 ≠ 0
  · have hmul : ∀ {n : Nat}, (g + n) * k + k ≤ S → g + n < 2 ^ 31 := by
      intro n hn
      have hle := Nat.le_mul_of_pos_right (g + n) hk
      omega
    obtain ⟨data', hpaint, hshows⟩ := paintBlock_shows hlt hxle hyle h
    refine ⟨data', ?_, hshows.congr fun x y _ _ => ?_⟩
    · rw [paintModule, hmodule, Option.bind_eq_bind, Option.bind_some]
      simp only
      rw [if_neg (not_not.mpr hblack), ← Int.natCast_add, checkInt_natCast (hmul hyle),
        Option.bind_eq_bind, Option.bind_some, ← Int.natCast_add, checkInt_natCast (hmul hxle),
        Option.bind_some]
      simp only [Int.toNat_natCast]
      rw [Nat.mod_eq_of_lt (by omega), Nat.mod_eq_of_lt (by omega)]
      exact hpaint
    · exact or_congr_right (and_iff_right (hdark.mp hblack)).symm
  · refine ⟨data, ?_, h.congr fun x y _ _ => ?_⟩
    · rw [paintModule, hmodule, Option.bind_eq_bind, Option.bind_some]
      exact if_pos hblack
    · exact (or_iff_left fun hp => hblack (hdark.mpr hp.1)).symm

include hq hm hS hlt in
/-- All loops: the blocks of the dark modules. -/
theorem paint_shows (hk : 0 < k) (h : Shows S A data) :
    ∃ data', paint q k g S data = some data' ∧
      Shows S (fun p => A p ∨ ∃ r, 0 ≤ r ∧ r < 0 + m ∧ ∃ c, 0 ≤ c ∧ c < 0 + m ∧
        q.Dark c r ∧ Block k ((g + c) * k) ((g + r) * k) p) data' := by
  rw [paint, hq, Int.toNat_natCast]
  refine forUp_union (Shows S) _ m (fun r _ hr A data h => ?_) h
  refine forUp_union (Shows S) _ m (fun c _ hc A data h => ?_) h
  exact paintModule_shows hq hm hS hlt (by omega) (by omega) hk h

include hq in
/-- A pixel is in the block of a dark module if the module it belongs to
is dark. -/
theorem painted_iff (hk : 0 < k) (x y : Nat) :
    (∃ r, 0 ≤ r ∧ r < 0 + m ∧ ∃ c, 0 ≤ c ∧ c < 0 + m ∧
        q.Dark c r ∧ Block k ((g + c) * k) ((g + r) * k) (x, y)) ↔
      q.Dark ((x / k : Nat) - (g : Int)) ((y / k : Nat) - (g : Int)) := by
  constructor
  · rintro ⟨r, -, -, c, -, -, hdark, y', -, hy', x', -, hx', heq⟩
    obtain ⟨rfl, rfl⟩ := Prod.mk.inj heq
    rw [(divMod_mul_add (r := x') (by omega)).1, (divMod_mul_add (r := y') (by omega)).1]
    have hc : ((g + c : Nat) : Int) - g = c := by omega
    have hr : ((g + r : Nat) : Int) - g = r := by omega
    rwa [hc, hr]
  · intro hdark
    have hin := hdark
    rw [QRcode.Dark, hq] at hin
    obtain ⟨hx0, hxm, hy0, hym, -⟩ := hin
    have hsplit : ∀ n : Nat, n = (g + (n / k - g)) * k + n % k ∨ n / k < g := by
      intro n
      by_cases hle : g ≤ n / k
      · refine .inl ?_
        rw [Nat.add_sub_cancel' hle, Nat.mul_comm]
        exact (Nat.div_add_mod n k).symm
      · exact .inr (by omega)
    have hx := (hsplit x).resolve_right (by omega)
    have hy := (hsplit y).resolve_right (by omega)
    have hc : ((x / k - g : Nat) : Int) = (x / k : Nat) - (g : Int) := by omega
    have hr : ((y / k - g : Nat) : Int) = (y / k : Nat) - (g : Int) := by omega
    refine ⟨y / k - g, Nat.zero_le _, by omega, x / k - g, Nat.zero_le _, by omega, ?_,
      y % k, Nat.zero_le _, ?_, x % k, Nat.zero_le _, ?_, ?_⟩
    · rwa [hc, hr]
    · have hmod := Nat.mod_lt y hk
      omega
    · have hmod := Nat.mod_lt x hk
      omega
    · rw [← hx, ← hy]

end Loops

/-! ## `encode` -/

section Encode

variable {encodeString : Bytes → Int → Int → Option QRcode} {out : Bitmap} {text : Bytes}
  {version ecLevel : Int} {q : QRcode} {m k g : Nat}

theorem wrap_natCast {n : Nat} (h : n < 2 ^ 31) : IntType.int32.wrap n = n := by
  refine IntType.int32.wrap_of_mem ⟨?_, ?_⟩
  · exact Int.le_trans (by decide) (Int.natCast_nonneg n)
  · exact Int.le_of_lt_add_one (Int.ofNat_lt.mpr h)

/-- Past the checks, `encode` is its loops. -/
theorem encode_eq (htext : text ≠ [])
    (hq : encodeString (text.takeWhile (· ≠ 0)) version ecLevel = some q) (hm : q.width = m)
    (hm1 : 1 ≤ m) (hk : 1 ≤ k) (hS : S = (m + 2 * g) * k) (hlt : S < 2 ^ 31) :
    encode encodeString out text version ecLevel k g =
      (paint q k g S (List.replicate (S * S) 255)).map fun data =>
        (none, { width := S, height := S, data }) := by
  have hsq := sq_lt hlt
  have hside : m + 2 * g ≤ S := hS ▸ Nat.le_mul_of_pos_right _ hk
  have hsize : (q.width.toNat + 2 * (g : Int).toNat) % 2 ^ 64 * (k : Int).toNat % 2 ^ 64 = S := by
    rw [hm, Int.toNat_natCast, Int.toNat_natCast, Int.toNat_natCast,
      Nat.mod_eq_of_lt (b := 2 ^ 64) (a := m + 2 * g) (by omega), ← hS,
      Nat.mod_eq_of_lt (by omega)]
  have hdiv : S ≤ sizeMax / S := (Nat.le_div_iff_mul_le (by omega)).mpr (by rw [sizeMax]; omega)
  rw [encode, if_neg (by simpa using htext), if_neg (by omega), if_neg (by omega), hq]
  simp only [hsize]
  rw [if_neg (by omega), if_neg (by omega), if_neg (by rw [sizeMax]; omega), if_neg (by omega),
    Nat.mod_eq_of_lt hsq, wrap_natCast hlt]

/-- The law in natural numbers. -/
theorem encode_shows (htext : text ≠ [])
    (hq : encodeString (text.takeWhile (· ≠ 0)) version ecLevel = some q) (hm : q.width = m)
    (hm1 : 1 ≤ m) (hk : 1 ≤ k) (hS : S = (m + 2 * g) * k) (hlt : S < 2 ^ 31)
    (hindex : m * m ≤ 2 ^ 31) :
    ∃ data, encode encodeString out text version ecLevel k g =
        some (none, { width := S, height := S, data }) ∧
      Shows S (fun p => q.Dark ((p.1 / k : Nat) - (g : Int)) ((p.2 / k : Nat) - (g : Int)))
        data := by
  obtain ⟨data, hpaint, hshows⟩ := paint_shows hm hindex hS hlt hk (shows_white S)
  refine ⟨data, ?_, hshows.congr fun x y _ _ => ?_⟩
  · rw [encode_eq htext hq hm hm1 hk hS hlt, hpaint]
    rfl
  · exact (or_iff_right id).trans (painted_iff hm hk x y)

/-- **The pixel law.** A symbol is written inside `data`, and a pixel is
black exactly if the module it belongs to is dark; so the centres of the
blocks are the symbol. -/
theorem encode_pixels {scale margin : Int}
    (hlib : ∀ text version ecLevel q, encodeString text version ecLevel = some q → q.width ≤ 177)
    (htext : text ≠ [])
    (hq : encodeString (text.takeWhile (· ≠ 0)) version ecLevel = some q) (hm : 1 ≤ q.width)
    (hscale : 1 ≤ scale) (hmargin : 0 ≤ margin)
    (hlt : (q.width + 2 * margin) * scale < 2 ^ 31) :
    ∃ bm, encode encodeString out text version ecLevel scale margin = some (none, bm) ∧
      bm.width = (q.width + 2 * margin) * scale ∧ bm.height = (q.width + 2 * margin) * scale ∧
      (bm.data.length : Int) = bm.width * bm.height ∧
      (∀ x y : Nat, x < bm.width → y < bm.height →
        (q.Dark (x / scale - margin) (y / scale - margin) → pixel bm x y = some 0) ∧
        (¬ q.Dark (x / scale - margin) (y / scale - margin) → pixel bm x y = some 255)) ∧
      ∀ r c : Nat, r < q.width → c < q.width →
        let x := ((margin + c) * scale + scale / 2).toNat
        let y := ((margin + r) * scale + scale / 2).toNat
        (q.Dark c r → pixel bm x y = some 0) ∧ (¬ q.Dark c r → pixel bm x y = some 255) := by
  obtain ⟨m, hmq⟩ : ∃ m : Nat, q.width = m := ⟨q.width.toNat, by omega⟩
  obtain ⟨k, rfl⟩ : ∃ k : Nat, scale = k := ⟨scale.toNat, by omega⟩
  obtain ⟨g, rfl⟩ : ∃ g : Nat, margin = g := ⟨margin.toNat, by omega⟩
  have hside : (q.width + 2 * (g : Int)) * k = ((m + 2 * g) * k : Nat) := by
    rw [hmq, Int.natCast_mul, Int.natCast_add, Int.natCast_mul]
    rfl
  have hwidth := hlib _ _ _ _ hq
  have hsq : m * m ≤ 2 ^ 31 :=
    (Nat.mul_le_mul (by omega) (by omega) : m * m ≤ 177 * 177).trans (by decide)
  rw [hside] at hlt
  have hk : 1 ≤ k := by omega
  obtain ⟨data, hencode, hshows⟩ := encode_shows (k := k) (g := g) htext hq hmq
    (by omega) hk rfl (by omega) hsq
  have hlaw : ∀ x y : Nat, x < (m + 2 * g) * k → y < (m + 2 * g) * k →
      (q.Dark ((x : Int) / k - g) ((y : Int) / k - g) →
        data[y * ((m + 2 * g) * k) + x]? = some 0) ∧
      (¬ q.Dark ((x : Int) / k - g) ((y : Int) / k - g) →
        data[y * ((m + 2 * g) * k) + x]? = some 255) :=
    fun x y hx hy => ⟨hshows.black x y hx hy, hshows.white x y hx hy⟩
  refine ⟨_, hencode, hside.symm, hside.symm, ?_, fun x y hx hy => ?_, fun r c hr hc => ?_⟩
  · rw [hshows.length, Int.natCast_mul]
  · exact hlaw x y (Int.ofNat_lt.mp hx) (Int.ofNat_lt.mp hy)
  · -- the centre of a block is in the block
    have hcentre : ∀ {n : Nat}, n < m →
        ((g + n : Int) * k + (k : Int) / 2).toNat < (m + 2 * g) * k ∧
          ((((g + n : Int) * k + (k : Int) / 2).toNat : Int)) / k - g = n := by
      intro n hn
      have hcast : ((g + n : Int) * k + (k : Int) / 2).toNat = (g + n) * k + k / 2 := by
        rw [← Int.natCast_add, ← Int.natCast_mul]
        exact Int.toNat_natCast ((g + n) * k + k / 2)
      have hle := block_le (k := k) (g := g) rfl hn
      rw [hcast]
      refine ⟨by omega, ?_⟩
      have hdiv : ((g + n) * k + k / 2) / k = g + n := (divMod_mul_add (by omega)).1
      omega
    obtain ⟨hxlt, hxc⟩ := hcentre (n := c) (by omega)
    obtain ⟨hylt, hyr⟩ := hcentre (n := r) (by omega)
    have hcase := hlaw _ _ hxlt hylt
    rw [hxc, hyr] at hcase
    exact hcase

end Encode

/-- A symbol of the text `a`: version 1, level L. -/
def symbolA : QRcode where
  width := 21
  data :=
    [0x1FCB7F, 0x104E41, 0x175B5D, 0x174A5D, 0x17455D, 0x104141, 0x1FD57F, 0x001B00, 0x1DFEC4,
      0x05A446, 0x017D11, 0x1A8C44, 0x19E155, 0x001AAB, 0x1FD2EF, 0x105FB8, 0x1756ED, 0x174446,
      0x175911, 0x105846, 0x1FD957].flatMap fun row : Nat =>
        (List.range 21).map fun c => if row.testBit (20 - c) then 1 else 0
  length_data := by
    rw [List.length_flatMap]
    rfl

/-- The text `a` with the default arguments. -/
theorem encode_pixels_a :
    ∃ bm, encode (fun _ _ _ => some symbolA) { width := 0, height := 0, data := [] } [0x61] 0 0 4
        4 = some (none, bm) ∧
      bm.width = 116 ∧ bm.height = 116 ∧ (bm.data.length : Int) = bm.width * bm.height := by
  obtain ⟨bm, hbm, hwidth, hheight, hlen, -⟩ :=
    @encode_pixels (fun _ _ _ => some symbolA) { width := 0, height := 0, data := [] } [0x61] 0 0
      symbolA 4 4 (fun _ _ _ _ h => Option.some.inj h ▸ by decide) (List.cons_ne_nil _ _) rfl
      (by decide) (by decide) (by decide) (by decide)
  exact ⟨bm, hbm, hwidth, hheight, hlen⟩

end HighJump.Ai.Qrcode.Builder
