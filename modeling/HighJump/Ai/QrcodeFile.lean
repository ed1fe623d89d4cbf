/-
HighJump.Ai.QrcodeFile — a QR code from a text to a PGM file and back.

`builder::encode(pgm, text, ...)` draws the symbol and saves the picture;
`parser::decode(results, pgm)` reads the picture and hands it to `quirc`,
which finds the symbols in it. Both libraries are parameters here. The
writer checks the stream after the last `write` and not after `close()`,
so what reaches the disk may be any beginning of what it wrote: `readToken_cut`
and `readPgm_torn` follow the reader through a file that ends too early.
-/
import HighJump.Ai.QrcodeBuilderTheorems
import HighJump.Ai.QrcodeTheorems

namespace HighJump.Ai.Qrcode

open HighJump.Lib
open HighJump.Ai.Qrcode.Builder

/-! ## The functions -/

/-- `builder::encode(const std::string &pgm, ...)`, where `ofs` is the file
if it could be opened. -/
def encodeFile (encodeString : Bytes → Int → Int → Option QRcode) (ofs : Option FStream)
    (text : Bytes) (version ecLevel scale margin : Int) :
    Option (Except (EncodeError ⊕ ErrorCode) FStream) :=
  (Builder.encode encodeString { width := 0, height := 0, data := [] } text version ecLevel scale
    margin).map fun (ec, bm) =>
      match ec with
      | some e => .error (.inl e)
      | none => (writePgm ofs bm).mapError .inr

/-- The values of `error_code` that `parser::decode` returns. -/
inductive DecodeError where
  | invalidBitmap
  | allocationFailed
  | resizeFailed
  | beginParseFailed
  | bmDataInsufficient
  | pgm (e : ErrorCode)
  deriving DecidableEq, Repr

/-- `quirc`: whether `quirc_new` answers an object and `quirc_resize`
succeeds, the size of the buffer `quirc_begin` lends, and for every symbol
found in the pixels its payload, if `quirc_decode` reads it. -/
structure Quirc where
  new : Bool
  resize : Int → Int → Bool
  begin : Int → Int → Option (Int × Int)
  extract : Int → Int → Bytes → List (Option Bytes)

/-- `parser::decode(std::vector<std::string> &results, const bitmap &bm)`:
the error, if any, and `results`. -/
def decode (Q : Quirc) (results : List Bytes) (bm : Bitmap) : Option DecodeError × List Bytes :=
  if bm.data.isEmpty ∨ bm.width ≤ 0 ∨ bm.height ≤ 0 then (some .invalidBitmap, results)
  else if ¬ Q.new then (some .allocationFailed, results)
  else if ¬ Q.resize bm.width bm.height then (some .resizeFailed, results)
  else
    match Q.begin bm.width bm.height with
    | none => (some .beginParseFailed, results)
    | some (w, h) =>
        let expect := (w % 2 ^ 64).toNat * (h % 2 ^ 64).toNat % 2 ^ 64
        if bm.data.length < expect then (some .bmDataInsufficient, results)
        else (none, results ++ (Q.extract w h (bm.data.take expect)).reduceOption)

/-- `parser::decode(std::vector<std::string> &results, const std::string &pgm)` -/
def decodeFile (Q : Quirc) (results : List Bytes) (ifs : Option IStream) :
    Option (Option DecodeError × List Bytes) :=
  (readPgm ifs).map fun
    | .error e => (some (.pgm e), results)
    | .ok bm => decode Q results bm

/-! ## A file that ends early -/

/-- The rest of a token that the end of the file cuts. -/
theorem tokenTurn_cut (tok : List UInt8) :
    ∀ {ifs : IStream} {tk : List UInt8} {fuel : Nat},
      ifs.Good → ifs.rest = tok → (∀ c ∈ tok, tokenChar c = true) → tok.length < fuel →
      ∃ ifs', repeatUntil tokenTurn fuel (tk, ifs) = some (tk ++ tok, ifs') ∧
        ifs'.fail = true := by
  induction tok with
  | nil =>
      intro ifs tk fuel hin hrest _ hfuel
      obtain ⟨fuel, rfl⟩ : ∃ n, fuel = n + 1 := ⟨fuel - 1, by simp at hfuel; omega⟩
      obtain ⟨ifs', hread, hfail, -⟩ := @IStream.read_short ifs hin 1 (by simp [hrest])
      refine ⟨ifs', ?_, hfail⟩
      apply repeatUntil_exit
      simp [tokenTurn, hread, IStream.ok, hfail]
  | cons c tok ih =>
      intro ifs tk fuel hin hrest htok hfuel
      rw [List.length_cons] at hfuel
      obtain ⟨fuel, rfl⟩ : ∃ n, fuel = n + 1 := ⟨fuel - 1, by omega⟩
      obtain ⟨ifs1, hread, hin1, hrest1, _⟩ := @IStream.read_full ifs hin [c] tok hrest
      have hread : ifs.read 1 = (ifs1, [c]) := hread
      have hc := htok c List.mem_cons_self
      simp only [tokenChar, Bool.and_eq_true, Bool.not_eq_true', bne_iff_ne] at hc
      have hturn : tokenTurn fuel (tk, ifs) = some (.again (tk ++ [c], ifs1)) := by
        simp [tokenTurn, hread, IStream.ok, hin1.fail, hc.1, hc.2]
      obtain ⟨ifs', hrun, hfail⟩ :=
        @ih ifs1 (tk ++ [c]) fuel hin1 hrest1 (fun c hc => htok c (List.mem_cons_of_mem _ hc))
          (by omega)
      refine ⟨ifs', ?_, hfail⟩
      rw [repeatUntil_again hturn, hrun, List.append_assoc]
      rfl

/-- There is no token in a stream that holds nothing. -/
theorem readToken_empty {ifs : IStream} (hin : ifs.Holds []) :
    ∃ ifs', readToken ifs = some (.error .tokenEmpty, ifs') ∧ ifs'.Holds [] := by
  have hread : ∃ ifs', ifs.read 1 = (ifs', []) ∧ ifs'.fail = true := by
    rcases hin with ⟨hgood, hrest⟩ | ⟨hfail, -⟩
    · obtain ⟨ifs', hread, hfail, -⟩ := @IStream.read_short ifs hgood 1 (by simp [hrest])
      exact ⟨ifs', by rw [hread, hrest], hfail⟩
    · exact ⟨{ ifs with fail := true }, by simp [IStream.read, hfail], rfl⟩
  obtain ⟨ifs', hread, hfail⟩ := hread
  have hskip : repeatUntil skipTurn (ifs.rest.length + 1) ifs = some (none, ifs') := by
    apply repeatUntil_exit
    simp [skipTurn, hread, IStream.ok, hfail]
  exact ⟨ifs', by simp [readToken, hskip], .inr ⟨hfail, rfl⟩⟩

/-- The end of the file before, inside or right behind a token. -/
theorem readToken_cut {ifs : IStream} {tok : List UInt8} (hin : ifs.Holds tok)
    (htok : ∀ c ∈ tok, tokenChar c = true) :
    ∃ r ifs', readToken ifs = some (r, ifs') ∧ ifs'.Holds [] := by
  cases tok with
  | nil =>
      obtain ⟨ifs', hread, hempty⟩ := readToken_empty hin
      exact ⟨_, ifs', hread, hempty⟩
  | cons c tok =>
      obtain ⟨hgood, hrest⟩ := hin.resolve_right fun h => nomatch h.2
      obtain ⟨ifs1, hfirst, hin1, hrest1⟩ :=
        skipTurn_token hgood hrest (htok c List.mem_cons_self) ifs.rest.length
      obtain ⟨ifs2, hmore, hfail⟩ :=
        @tokenTurn_cut tok ifs1 [c] (ifs1.rest.length + 1) hin1 hrest1
          (fun c hc => htok c (List.mem_cons_of_mem _ hc)) (by simp [hrest1])
      exact ⟨.ok (c :: tok), ifs2, by simp [readToken, hfirst, hmore], .inr ⟨hfail, rfl⟩⟩

/-- A beginning of `tok`, a white space and `rest` either ends in the token
or goes on into `rest`. -/
theorem prefix_token {tok t rest : List UInt8} {sep : UInt8} (h : t <+: tok ++ sep :: rest) :
    t <+: tok ∨ ∃ t', t = tok ++ sep :: t' ∧ t' <+: rest := by
  obtain ⟨u, hu⟩ := h
  rcases List.append_eq_append_iff.mp hu with ⟨tail, rfl, -⟩ | ⟨t', rfl, ht'⟩
  · exact .inl (List.prefix_append t tail)
  · cases t' with
    | nil => exact .inl (by simp)
    | cons c t' =>
        obtain ⟨rfl, rfl⟩ := List.cons.inj ht'
        exact .inr ⟨t', rfl, List.prefix_append t' u⟩

/-- **One token of a file that may end early**: it is read as it was
written, or nothing is left. -/
theorem readToken_prefix {ifs : IStream} {t tok rest : List UInt8} {sep : UInt8}
    (hin : ifs.Holds t) (ht : t <+: tok ++ sep :: rest) (hne : tok ≠ [])
    (htok : ∀ c ∈ tok, tokenChar c = true) (hsep : isSpace sep = true) :
    (∃ ifs' t', readToken ifs = some (.ok tok, ifs') ∧ ifs'.Holds t' ∧ t' <+: rest ∧
        t = tok ++ sep :: t') ∨
      ∃ r ifs', readToken ifs = some (r, ifs') ∧ ifs'.Holds [] := by
  rcases prefix_token ht with hcut | ⟨t', rfl, ht'⟩
  · exact .inr (readToken_cut hin fun c hc => htok c (hcut.subset hc))
  · obtain ⟨hgood, hrest⟩ := hin.resolve_right fun h => by simp at h
    obtain ⟨ifs', hread, hgood', hrest'⟩ := readToken_append hgood hrest hne htok hsep
    exact .inl ⟨ifs', t', hread, .inl ⟨hgood', hrest'⟩, ht', rfl⟩

/-- Too few bytes for the pixels. -/
theorem readBitmap_short {ifs : IStream} {t : List UInt8} (hin : ifs.Holds t) (w h maxv : Int)
    (hlt : t.length < w.toNat * h.toNat) : ∃ e, readBitmap ifs w h maxv = .error e := by
  rw [readBitmap]
  split
  · exact ⟨_, rfl⟩
  · have hread : ∃ ifs' got, ifs.read (w.toNat * h.toNat) = (ifs', got) ∧ ifs'.fail = true := by
      rcases hin with ⟨hgood, hrest⟩ | ⟨hfail, -⟩
      · obtain ⟨ifs', hread, hfail, -⟩ := IStream.read_short hgood (hrest ▸ hlt)
        exact ⟨ifs', _, hread, hfail⟩
      · exact ⟨{ ifs with fail := true }, [], by simp [IStream.read, hfail], rfl⟩
    obtain ⟨ifs', got, hread, hfail⟩ := hread
    exact ⟨.pgmReadFailed, by simp [hread, IStream.ok, hfail]⟩

section

variable {w h : Nat} {data : List UInt8}

theorem tokenChar_numeral (n : Nat) : ∀ c ∈ ({} : Fmt).numeral n, tokenChar c = true :=
  fun c hc => tokenChar_of_isDigit (numeral_isDigit rfl n c hc)

section

variable {ifs ifs1 ifs2 ifs3 ifs4 : IStream} {wtok htok mtok : List UInt8} {e : ErrorCode}

theorem readPgm_magic {r : Except ErrorCode (List UInt8)} (hmagic : readToken ifs = some (r, ifs1))
    (hr : r ≠ .ok [0x50, 0x35]) : readPgm (some ifs) = some (.error .magicParseFailed) := by
  simp [readPgm, hmagic, hr]

variable (hmagic : readToken ifs = some (.ok [0x50, 0x35], ifs1))
include hmagic

theorem readPgm_width (hwtok : readToken ifs1 = some (.error e, ifs2)) :
    readPgm (some ifs) = some (.error e) := by
  simp [readPgm, hmagic, hwtok]

variable (hwtok : readToken ifs1 = some (.ok wtok, ifs2))
include hwtok

theorem readPgm_height (hhtok : readToken ifs2 = some (.error e, ifs3)) :
    readPgm (some ifs) = some (.error e) := by
  simp [readPgm, hmagic, hwtok, hhtok]

variable (hhtok : readToken ifs2 = some (.ok htok, ifs3))
include hhtok

theorem readPgm_maxval (hmtok : readToken ifs3 = some (.error e, ifs4)) :
    readPgm (some ifs) = some (.error e) := by
  simp [readPgm, hmagic, hwtok, hhtok, hmtok]

/-- What is left to do when the header has been read. -/
theorem readPgm_pixels (hmtok : readToken ifs3 = some (.ok mtok, ifs4)) {w h : Int}
    (hw : stoi wtok = some w) (hh : stoi htok = some h) :
    readPgm (some ifs) = some (match stoi mtok with
      | some maxv => readBitmap ifs4 w h maxv
      | none => .error .tokenValueConvertFailed) := by
  cases hm : stoi mtok <;> simp [readPgm, hmagic, hwtok, hhtok, hmtok, hw, hh, hm]

end

/-- **A file that ends early is refused**, wherever it ends. -/
theorem readPgm_torn (hw : 1 ≤ w ∧ w < 2 ^ 31) (hh : 1 ≤ h ∧ h < 2 ^ 31)
    (hdata : data.length = w * h) {torn : List UInt8} (htorn : torn <+: layout w h data)
    (hne : torn ≠ layout w h data) : ∃ e, readPgm (some (.ofBytes torn)) = some (.error e) := by
  have hpos : 0 < w * h := Nat.mul_pos hw.1 hh.1
  have hstoi : ∀ n : Nat, n < 2 ^ 31 → stoi (({} : Fmt).numeral n) = some (n : Int) :=
    fun n hn => stoi_numeral rfl n hn
  have hmaxv : stoi [0x32, 0x35, 0x35] = some 255 := by decide
  have hin : (IStream.ofBytes torn).Holds torn := .inl ⟨IStream.good_ofBytes torn, rfl⟩
  generalize IStream.ofBytes torn = ifs at hin ⊢
  rcases readToken_prefix hin htorn nofun (List.all_eq_true.mp (by decide)) (by decide) with
    ⟨ifs1, t1, hmagic, hin1, ht1, rfl⟩ | ⟨r, ifs1, hmagic, hin1⟩
  case inr =>
    obtain ⟨ifs2, hwtok, -⟩ := readToken_empty hin1
    by_cases hr : r = .ok [0x50, 0x35]
    · exact ⟨.tokenEmpty, readPgm_width (hr ▸ hmagic) hwtok⟩
    · exact ⟨.magicParseFailed, readPgm_magic hmagic hr⟩
  rcases readToken_prefix hin1 ht1 (numeral_ne_nil rfl w) (tokenChar_numeral w) (by decide) with
    ⟨ifs2, t2, hwtok, hin2, ht2, rfl⟩ | ⟨r, ifs2, hwtok, hin2⟩
  case inr =>
    obtain ⟨ifs3, hhtok, -⟩ := readToken_empty hin2
    cases r with
    | error e => exact ⟨e, readPgm_width hmagic hwtok⟩
    | ok tk => exact ⟨.tokenEmpty, readPgm_height hmagic hwtok hhtok⟩
  rcases readToken_prefix hin2 ht2 (numeral_ne_nil rfl h) (tokenChar_numeral h) (by decide) with
    ⟨ifs3, t3, hhtok, hin3, ht3, rfl⟩ | ⟨r, ifs3, hhtok, hin3⟩
  case inr =>
    obtain ⟨ifs4, hmtok, -⟩ := readToken_empty hin3
    cases r with
    | error e => exact ⟨e, readPgm_height hmagic hwtok hhtok⟩
    | ok tk => exact ⟨.tokenEmpty, readPgm_maxval hmagic hwtok hhtok hmtok⟩
  rcases readToken_prefix hin3 ht3 nofun (List.all_eq_true.mp (by decide)) (by decide) with
    ⟨ifs4, t4, hmtok, hin4, ht4, rfl⟩ | ⟨r, ifs4, hmtok, hin4⟩
  case inr =>
    cases r with
    | error e => exact ⟨e, readPgm_maxval hmagic hwtok hhtok hmtok⟩
    | ok tk =>
        rw [readPgm_pixels hmagic hwtok hhtok hmtok (hstoi w hw.2) (hstoi h hh.2)]
        cases stoi tk with
        | none => exact ⟨.tokenValueConvertFailed, rfl⟩
        | some v =>
            obtain ⟨e, he⟩ := readBitmap_short hin4 w h v (by simpa using hpos)
            exact ⟨e, congrArg some he⟩
  have hlt : t4.length < w * h := by
    rw [← hdata]
    refine Nat.lt_of_le_of_ne ht4.length_le fun heq => hne ?_
    rw [ht4.eq_of_length heq]
    rfl
  obtain ⟨e, he⟩ := readBitmap_short hin4 w h 255 (by simpa using hlt)
  refine ⟨e, ?_⟩
  rw [readPgm_pixels hmagic hwtok hhtok hmtok (hstoi w hw.2) (hstoi h hh.2), hmaxv]
  exact congrArg some he

/-- A file that is all there. -/
theorem readPgm_layout (hw : 1 ≤ w ∧ w < 2 ^ 31) (hh : 1 ≤ h ∧ h < 2 ^ 31)
    (hdata : data.length = w * h) :
    readPgm (some (.ofBytes (layout w h data))) =
      some (.ok { width := w, height := h, data }) := by
  have hstoi : ∀ n : Nat, n < 2 ^ 31 → stoi (({} : Fmt).numeral n) = some (n : Int) :=
    fun n hn => stoi_numeral rfl n hn
  obtain ⟨ifs1, hmagic, hin1, hrest1⟩ :=
    @readToken_append _ (IStream.good_ofBytes (layout w h data)) [0x50, 0x35] 0x0A _ rfl nofun
      (List.all_eq_true.mp (by decide)) (by decide)
  obtain ⟨ifs2, hwtok, hin2, hrest2⟩ :=
    readToken_append hin1 hrest1 (numeral_ne_nil rfl w) (tokenChar_numeral w) (by decide)
  obtain ⟨ifs3, hhtok, hin3, hrest3⟩ :=
    readToken_append hin2 hrest2 (numeral_ne_nil rfl h) (tokenChar_numeral h) (by decide)
  obtain ⟨ifs4, hmtok, hin4, hrest4⟩ :=
    readToken_append hin3 hrest3 nofun (List.all_eq_true.mp (by decide)) (by decide)
  have hmaxv : stoi [0x32, 0x35, 0x35] = some 255 := by decide
  obtain ⟨ifs5, hread, hin5, _⟩ :=
    @IStream.read_full ifs4 hin4 data [] (by rw [hrest4, List.append_nil])
  have hbitmap : readBitmap ifs4 w h 255 = .ok { width := w, height := h, data } := by
    rw [readBitmap, if_neg (by omega), Int.toNat_natCast, Int.toNat_natCast, ← hdata, hread]
    simp [IStream.ok, hin5.fail]
  rw [readPgm_pixels hmagic hwtok hhtok hmtok (hstoi w hw.2) (hstoi h hh.2), hmaxv]
  exact congrArg some hbitmap

end

/-! ## From the text to the file and back -/

/-- `quirc` finds `payload`, and nothing else, in every picture that shows
`q` with blocks of `scale` pixels behind a margin of `margin` modules. -/
structure Quirc.Reads (Q : Quirc) (q : QRcode) (scale margin : Int) (payload : Bytes) : Prop where
  new : Q.new = true
  resize : Q.resize ((q.width + 2 * margin) * scale) ((q.width + 2 * margin) * scale) = true
  begin : Q.begin ((q.width + 2 * margin) * scale) ((q.width + 2 * margin) * scale) =
    some ((q.width + 2 * margin) * scale, (q.width + 2 * margin) * scale)
  extract : ∀ data,
    Shows ((q.width + 2 * margin) * scale).toNat
        (fun p => q.Dark (p.1 / scale - margin) (p.2 / scale - margin)) data →
      Q.extract ((q.width + 2 * margin) * scale) ((q.width + 2 * margin) * scale) data =
        [some payload]

theorem decode_shows {Q : Quirc} {q : QRcode} {scale margin : Int} {payload : Bytes}
    (hQ : Q.Reads q scale margin payload) (results : List Bytes) {S : Nat} (hpos : 1 ≤ S)
    (hlt : S < 2 ^ 31) (hS : (q.width + 2 * margin) * scale = S) {data : Bytes}
    (hshows : Shows S (fun p => q.Dark (p.1 / scale - margin) (p.2 / scale - margin)) data) :
    decode Q results { width := S, height := S, data } = (none, results ++ [payload]) := by
  obtain ⟨hnew, hresize, hbegin, hextract⟩ := hQ
  simp only [hS, Int.toNat_natCast] at hresize hbegin hextract
  have hsq := sq_lt hlt
  have hlen := hshows.length
  have hne : data ≠ [] := by
    rintro rfl
    have := Nat.mul_pos hpos hpos
    simp at hlen
    omega
  have hcast : ((S : Int) % 2 ^ 64).toNat = S := by omega
  have hexpect : ((S : Int) % 2 ^ 64).toNat * ((S : Int) % 2 ^ 64).toNat % 2 ^ 64 = data.length := by
    rw [hcast, Nat.mod_eq_of_lt hsq, hlen]
  rw [decode, if_neg (by simp [hne]; omega), if_neg (by simp [hnew]), if_neg (by simp [hresize]),
    hbegin]
  simp only [hexpect, Nat.lt_irrefl, if_false, List.take_length, hextract data hshows]
  rfl

/-- **A text comes back from its file, and a file that was cut is
refused**: whatever beginning of the picture reached the disk, `decode`
either returns the text or an error that leaves `results` as they were. -/
theorem file_round_trip {encodeString : Bytes → Int → Int → Option QRcode} {Q : Quirc}
    {text : Bytes} {version ecLevel scale margin : Int} {q : QRcode} (results : List Bytes)
    (htext : text ≠ []) (hq : encodeString (text.takeWhile (· ≠ 0)) version ecLevel = some q)
    (hm : 1 ≤ q.width ∧ q.width ≤ 177) (hscale : 1 ≤ scale) (hmargin : 0 ≤ margin)
    (hlt : (q.width + 2 * margin) * scale < 2 ^ 31)
    (hQ : Q.Reads q scale margin (text.takeWhile (· ≠ 0))) :
    ∃ ofs, encodeFile encodeString (some .fresh) text version ecLevel scale margin =
        some (.ok ofs) ∧
      decodeFile Q results (some (.ofBytes ofs.out.written)) =
        some (none, results ++ [text.takeWhile (· ≠ 0)]) ∧
      ∀ torn, torn <+: ofs.out.written → torn ≠ ofs.out.written →
        ∃ e, decodeFile Q results (some (.ofBytes torn)) = some (some (.pgm e), results) := by
  obtain ⟨m, hmodules⟩ := Int.eq_ofNat_of_zero_le (show 0 ≤ q.width by omega)
  obtain ⟨k, rfl⟩ := Int.eq_ofNat_of_zero_le (show 0 ≤ scale by omega)
  obtain ⟨g, rfl⟩ := Int.eq_ofNat_of_zero_le hmargin
  obtain ⟨S, hS⟩ : ∃ S, S = (m + 2 * g) * k := ⟨_, rfl⟩
  have hside : (q.width + 2 * (g : Int)) * k = S := by rw [hmodules, hS]; push_cast; rfl
  have hm1 : 1 ≤ m := by omega
  have hk : 1 ≤ k := by omega
  have hS31 : S < 2 ^ 31 := by rw [hside] at hlt; exact_mod_cast hlt
  have hS1 : 1 ≤ S := hS ▸ Nat.mul_pos (by omega) hk
  have hindex : m * m ≤ 2 ^ 31 :=
    (Nat.mul_le_mul (by omega) (by omega) : m * m ≤ 177 * 177).trans (by decide)
  obtain ⟨data, hencode, hshows⟩ : ∃ data,
      Builder.encode encodeString { width := 0, height := 0, data := [] } text version ecLevel k g =
          some (none, { width := S, height := S, data }) ∧
        Shows S (fun p => q.Dark ((p.1 / k : Nat) - (g : Int)) ((p.2 / k : Nat) - (g : Int))) data :=
    encode_shows htext hq hmodules hm1 hk hS hS31 hindex
  obtain ⟨ofs, hwrite, hwritten⟩ := writePgm_eq S S data
  refine ⟨ofs, ?_, ?_, fun torn hpre hne => ?_⟩
  · simp [encodeFile, hencode, hwrite, Except.mapError]
  · rw [hwritten, decodeFile, readPgm_layout ⟨hS1, hS31⟩ ⟨hS1, hS31⟩ hshows.length]
    exact congrArg some (decode_shows hQ results hS1 hS31 hside hshows)
  · rw [hwritten] at hpre hne
    obtain ⟨e, he⟩ := readPgm_torn ⟨hS1, hS31⟩ ⟨hS1, hS31⟩ hshows.length hpre hne
    exact ⟨e, by simp [decodeFile, he]⟩

/-- What `quirc` makes of a picture of `symbolA`. -/
def quircA : Quirc where
  new := true
  resize := fun _ _ => true
  begin := fun w h => some (w, h)
  extract := fun _ _ _ => [some [0x61]]

/-- The text `a` with the default arguments. -/
theorem file_round_trip_a :
    ∃ ofs, encodeFile (fun _ _ _ => some symbolA) (some .fresh) [0x61] 0 0 4 4 = some (.ok ofs) ∧
      decodeFile quircA [] (some (.ofBytes ofs.out.written)) = some (none, [[0x61]]) :=
  have ⟨ofs, hencode, hdecode, _⟩ :=
    @file_round_trip (fun _ _ _ => some symbolA) quircA [0x61] 0 0 4 4 symbolA []
      (List.cons_ne_nil _ _) rfl (by decide) (by decide) (by decide) (by decide)
      ⟨rfl, rfl, rfl, fun _ _ => rfl⟩
  ⟨ofs, hencode, hdecode⟩

end HighJump.Ai.Qrcode
