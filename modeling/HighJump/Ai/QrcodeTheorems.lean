/-
HighJump.Ai.QrcodeTheorems — a PGM file is read back as it was written.

A written file is four tokens, each followed by one white space, and the
pixels. `readToken_append` reads one token and its separator and leaves
the rest of the stream as it is, so after the fourth token the stream
stands at the first pixel, whatever bytes the pixels are.
-/
import HighJump.Ai.Qrcode

namespace HighJump.Ai.Qrcode

open HighJump.Lib

/-! ## Writing -/

/-- The header and pixels of a file. -/
def layout (w h : Nat) (data : List UInt8) : List UInt8 :=
  [0x50, 0x35] ++ 0x0A :: (({} : Fmt).numeral w ++ 0x20 :: (({} : Fmt).numeral h ++
    0x0A :: ([0x32, 0x35, 0x35] ++ 0x0A :: data)))

theorem putHeader_eq (w h : Nat) (data : List UInt8) :
    (putHeader .fresh { width := w, height := h, data }).Default ∧
      (putHeader .fresh { width := w, height := h, data }).out.written = layout w h [] := by
  obtain ⟨hd1, hw1⟩ := FStream.default_fresh.putString [0x50, 0x35, 0x0A]
  obtain ⟨hd2, hw2⟩ := hd1.putInt w
  obtain ⟨hd3, hw3⟩ := hd2.putString [0x20]
  obtain ⟨hd4, hw4⟩ := hd3.putInt h
  obtain ⟨hd5, hw5⟩ := hd4.putString [0x0A, 0x32, 0x35, 0x35, 0x0A]
  refine ⟨hd5, ?_⟩
  have hempty : FStream.fresh.out.written = [] := rfl
  rw [putHeader, hw5, hw4, hw3, hw2, hw1, hempty, layout]
  simp

theorem layout_append (w h : Nat) (data : List UInt8) :
    layout w h [] ++ data = layout w h data := by
  simp [layout]

theorem writePgm_eq (w h : Nat) (data : List UInt8) :
    ∃ ofs, writePgm (some .fresh) { width := w, height := h, data } = .ok ofs ∧
      ofs.out.written = layout w h data := by
  obtain ⟨hdefault, hheader⟩ := putHeader_eq w h data
  obtain ⟨hopen, hwritten⟩ := OStream.write_open hdefault.isOpen data
  rw [hheader, layout_append] at hwritten
  let ofs := putHeader .fresh { width := w, height := h, data }
  have hgood : ({ ofs with out := ofs.out.write data } : FStream).good = true := by
    rw [FStream.good, OStream.ok]
    exact congrArg not hopen.fail
  refine ⟨{ ofs with out := ofs.out.write data }, ?_, hwritten⟩
  rw [writePgm]
  exact if_pos hgood

/-! ## One token -/

/-- A character that neither ends a token nor is skipped before one. -/
def tokenChar (c : UInt8) : Bool := !isSpace c && c != 0x23

theorem tokenChar_of_isDigit {c : UInt8} (h : isDigit c = true) : tokenChar c = true := by
  have hne : c ≠ 0x23 := by
    rintro rfl
    exact absurd h (by decide)
  simp [tokenChar, isSpace_of_isDigit h, hne]

/-- The first character of a token is found at once. -/
theorem skipTurn_token {ifs : IStream} (hin : ifs.Good) {c : UInt8} {rest : List UInt8}
    (hrest : ifs.rest = c :: rest) (hc : tokenChar c = true) (fuel : Nat) :
    ∃ ifs', repeatUntil skipTurn (fuel + 1) ifs = some (some c, ifs') ∧ ifs'.Good ∧
      ifs'.rest = rest := by
  obtain ⟨ifs', hread, hin', hrest', _⟩ := @IStream.read_full ifs hin [c] rest hrest
  have hread : ifs.read 1 = (ifs', [c]) := hread
  simp only [tokenChar, Bool.and_eq_true, Bool.not_eq_true', bne_iff_ne] at hc
  refine ⟨ifs', ?_, hin', hrest'⟩
  apply repeatUntil_exit
  simp [skipTurn, hread, IStream.ok, hin'.fail, hc.1, hc.2]

/-- The rest of a token and one white space behind it. -/
theorem tokenTurn_token (tok : List UInt8) :
    ∀ {ifs : IStream} {tk : List UInt8} {sep : UInt8} {rest : List UInt8} {fuel : Nat},
      ifs.Good → ifs.rest = tok ++ sep :: rest → (∀ c ∈ tok, tokenChar c = true) →
      isSpace sep = true → tok.length < fuel →
      ∃ ifs', repeatUntil tokenTurn fuel (tk, ifs) = some (tk ++ tok, ifs') ∧ ifs'.Good ∧
        ifs'.rest = rest := by
  induction tok with
  | nil =>
      intro ifs tk sep rest fuel hin hrest _ hsep hfuel
      obtain ⟨fuel, rfl⟩ : ∃ n, fuel = n + 1 := ⟨fuel - 1, by omega⟩
      obtain ⟨ifs', hread, hin', hrest', _⟩ := @IStream.read_full ifs hin [sep] rest hrest
      have hread : ifs.read 1 = (ifs', [sep]) := hread
      have hne : sep ≠ 0x23 := by
        rintro rfl
        exact absurd hsep (by decide)
      refine ⟨ifs', ?_, hin', hrest'⟩
      apply repeatUntil_exit
      simp [tokenTurn, hread, IStream.ok, hin'.fail, hsep, hne]
  | cons c tok ih =>
      intro ifs tk sep rest fuel hin hrest htok hsep hfuel
      rw [List.length_cons] at hfuel
      obtain ⟨fuel, rfl⟩ : ∃ n, fuel = n + 1 := ⟨fuel - 1, by omega⟩
      obtain ⟨ifs1, hread, hin1, hrest1, _⟩ :=
        @IStream.read_full ifs hin [c] (tok ++ sep :: rest) hrest
      have hread : ifs.read 1 = (ifs1, [c]) := hread
      have hc := htok c List.mem_cons_self
      simp only [tokenChar, Bool.and_eq_true, Bool.not_eq_true', bne_iff_ne] at hc
      have hturn : tokenTurn fuel (tk, ifs) = some (.again (tk ++ [c], ifs1)) := by
        simp [tokenTurn, hread, IStream.ok, hin1.fail, hc.1, hc.2]
      obtain ⟨ifs', hrun, hin', hrest'⟩ :=
        @ih ifs1 (tk ++ [c]) sep rest fuel hin1 hrest1
          (fun c hc => htok c (List.mem_cons_of_mem _ hc)) hsep (by omega)
      refine ⟨ifs', ?_, hin', hrest'⟩
      rw [repeatUntil_again hturn, hrun, List.append_assoc]
      rfl

/-- **A token is read with the one white space behind it** and nothing of
what follows. -/
theorem readToken_append {ifs : IStream} (hin : ifs.Good) {tok : List UInt8} {sep : UInt8}
    {rest : List UInt8} (hrest : ifs.rest = tok ++ sep :: rest) (hne : tok ≠ [])
    (htok : ∀ c ∈ tok, tokenChar c = true) (hsep : isSpace sep = true) :
    ∃ ifs', readToken ifs = some (.ok tok, ifs') ∧ ifs'.Good ∧ ifs'.rest = rest := by
  obtain ⟨c, tok, rfl⟩ := List.exists_cons_of_ne_nil hne
  obtain ⟨ifs1, hfirst, hin1, hrest1⟩ :=
    skipTurn_token hin hrest (htok c List.mem_cons_self) ifs.rest.length
  have hlen : tok.length < ifs1.rest.length + 1 := by
    rw [hrest1, List.append_eq, List.length_append]
    omega
  obtain ⟨ifs2, hmore, hin2, hrest2⟩ :=
    @tokenTurn_token tok ifs1 [c] sep rest _ hin1 hrest1
      (fun c hc => htok c (List.mem_cons_of_mem _ hc)) hsep hlen
  refine ⟨ifs2, ?_, hin2, hrest2⟩
  simp [readToken, hfirst, hmore]

/-! ## The whole file -/

/-- **A written file is read back** with the same dimensions and pixels. -/
theorem readPgm_writePgm (bm : Bitmap) (hw : 1 ≤ bm.width ∧ bm.width < 2 ^ 31)
    (hh : 1 ≤ bm.height ∧ bm.height < 2 ^ 31)
    (hdata : bm.data.length = bm.width.toNat * bm.height.toNat) :
    ∃ ofs, writePgm (some .fresh) bm = .ok ofs ∧
      readPgm (some (.ofBytes ofs.out.written)) = some (.ok bm) := by
  obtain ⟨w, h, data⟩ := bm
  obtain ⟨w, rfl⟩ := Int.eq_ofNat_of_zero_le (show 0 ≤ w by simp only at hw; omega)
  obtain ⟨h, rfl⟩ := Int.eq_ofNat_of_zero_le (show 0 ≤ h by simp only at hh; omega)
  simp only [Int.toNat_natCast] at hw hh hdata
  obtain ⟨ofs, hwrite, hfile⟩ := writePgm_eq w h data
  refine ⟨ofs, hwrite, ?_⟩
  rw [hfile]
  have hnumeral : ∀ n : Nat, ∀ c ∈ ({} : Fmt).numeral n, tokenChar c = true :=
    fun n c hc => tokenChar_of_isDigit (numeral_isDigit rfl n c hc)
  have hstoi : ∀ n : Nat, n < 2 ^ 31 → stoi (({} : Fmt).numeral n) = some (n : Int) :=
    fun n hn => stoi_numeral rfl n hn
  obtain ⟨ifs1, hmagic, hin1, hrest1⟩ :=
    @readToken_append _ (IStream.good_ofBytes (layout w h data)) [0x50, 0x35] 0x0A _ rfl nofun
      (List.all_eq_true.mp (by decide)) (by decide)
  obtain ⟨ifs2, hwtok, hin2, hrest2⟩ :=
    readToken_append hin1 hrest1 (numeral_ne_nil rfl w) (hnumeral w) (by decide)
  obtain ⟨ifs3, hhtok, hin3, hrest3⟩ :=
    readToken_append hin2 hrest2 (numeral_ne_nil rfl h) (hnumeral h) (by decide)
  obtain ⟨ifs4, hmtok, hin4, hrest4⟩ :=
    readToken_append hin3 hrest3 nofun (List.all_eq_true.mp (by decide)) (by decide)
  have hmaxv : stoi [0x32, 0x35, 0x35] = some 255 := by decide
  obtain ⟨ifs5, hread, hin5, _⟩ :=
    @IStream.read_full ifs4 hin4 data [] (by rw [hrest4, List.append_nil])
  have hbitmap : readBitmap ifs4 w h 255 = .ok { width := w, height := h, data } := by
    rw [readBitmap, if_neg (by omega), Int.toNat_natCast, Int.toNat_natCast, ← hdata, hread]
    simp [IStream.ok, hin5.fail]
  simp [readPgm, hmagic, hwtok, hhtok, hmtok, hstoi w (by omega), hstoi h (by omega), hmaxv,
    hbitmap]

/-- Two pixels that look like the start of a comment and a line end. -/
theorem readPgm_writePgm_marks :
    ∃ ofs, writePgm (some .fresh) { width := 2, height := 1, data := [0x23, 0x0A] } = .ok ofs ∧
      readPgm (some (.ofBytes ofs.out.written)) =
        some (.ok { width := 2, height := 1, data := [0x23, 0x0A] }) :=
  readPgm_writePgm { width := 2, height := 1, data := [0x23, 0x0A] } (by decide) (by decide)
    (by decide)

end HighJump.Ai.Qrcode
