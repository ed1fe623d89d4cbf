/-
HighJump.Lib.Streams — `std::istream` over a seekable buffer and
`std::ostream`, as far as block and chunk loops use them.

The two flags that matter are kept apart because the standard keeps them
apart: a short `read` sets `eofbit` and `failbit` together, `operator
bool` looks at `failbit` only, and `seekg` clears `eofbit` before it
looks.
-/
import HighJump.Lib.Memory
import Mathlib.Algebra.Ring.Nat

namespace HighJump.Lib

/-- An input stream: everything it holds, the read position and its
state. -/
structure IStream where
  data : List UInt8
  pos : Nat
  eof : Bool
  fail : Bool
  deriving DecidableEq, Repr

namespace IStream

/-- A stream in good state holding `data`, at its start. -/
def ofBytes (data : List UInt8) : IStream := { data, pos := 0, eof := false, fail := false }

/-- `operator bool`. -/
def ok (s : IStream) : Bool := !s.fail

/-- What is still to be read. -/
def rest (s : IStream) : List UInt8 := s.data.drop s.pos

/-- `read(buf, n)`, with the `gcount()` bytes it stored. -/
def read (s : IStream) (n : Nat) : IStream × List UInt8 :=
  if s.eof || s.fail then ({ s with fail := true }, [])
  else
    let got := s.rest.take n
    if got.length < n then
      ({ s with pos := s.pos + got.length, eof := true, fail := true }, got)
    else ({ s with pos := s.pos + n }, got)

/-- `std::getline(s, line)`: the line end is taken and not stored; the end
of the data raises `eofbit`, and `failbit` too when nothing was taken. -/
def getline (s : IStream) : IStream × List UInt8 :=
  if s.eof || s.fail then ({ s with fail := true }, [])
  else
    let line := s.rest.takeWhile (· != 0x0A)
    if line.length < s.rest.length then ({ s with pos := s.pos + line.length + 1 }, line)
    else ({ s with pos := s.pos + line.length, eof := true, fail := s.rest.isEmpty }, line)

/-- `seekg(-1, std::ios::cur)`. -/
def seekBack (s : IStream) : IStream :=
  let s := { s with eof := false }
  if s.fail then s
  else if s.pos = 0 then { s with fail := true }
  else { s with pos := s.pos - 1 }

/-- `tellg()`: the position, or -1 from a stream that is not good. -/
def tellg (s : IStream) : Int × IStream :=
  if s.eof || s.fail then (-1, { s with fail := true }) else (s.pos, s)

/-- `seekg(p)`, `seekg(p, std::ios::beg)`. -/
def seekg (s : IStream) (p : Int) : IStream :=
  let s := { s with eof := false }
  if s.fail then s
  else if 0 ≤ p ∧ p ≤ s.data.length then { s with pos := p.toNat }
  else { s with fail := true }

/-- `seekg(0, std::ios::end)`. -/
def seekEnd (s : IStream) : IStream :=
  let s := { s with eof := false }
  if s.fail then s else { s with pos := s.data.length }

/-- A good stream: no flag raised, position inside the data. -/
structure Good (s : IStream) : Prop where
  eof : s.eof = false
  fail : s.fail = false
  pos : s.pos ≤ s.data.length

theorem good_ofBytes (data : List UInt8) : (ofBytes data).Good :=
  ⟨rfl, rfl, Nat.zero_le _⟩

theorem rest_advance (s : IStream) (n : Nat) (eof fail : Bool) :
    rest { s with pos := s.pos + n, eof, fail } = s.rest.drop n :=
  List.drop_drop.symm

/-- The bytes before the first line end, and what follows it. -/
theorem line_cases (bs : List UInt8) :
    (∃ rest, bs = bs.takeWhile (· != 0x0A) ++ 0x0A :: rest) ∨
      bs.takeWhile (· != 0x0A) = bs := by
  have hsplit := List.takeWhile_append_dropWhile (p := (· != (0x0A : UInt8))) (l := bs)
  cases htail : bs.dropWhile (· != (0x0A : UInt8)) with
  | nil =>
    rw [htail, List.append_nil] at hsplit
    exact .inr hsplit
  | cons c rest =>
    have hhead := List.head?_dropWhile_not (· != (0x0A : UInt8)) bs
    rw [htail] at hhead
    obtain rfl : c = 0x0A := by simpa using hhead
    rw [htail] at hsplit
    exact .inl ⟨rest, hsplit.symm⟩

theorem notMem_takeWhile_line (bs : List UInt8) : 0x0A ∉ bs.takeWhile (· != 0x0A) := by
  intro hmem
  have hne := List.all_eq_true.mp List.all_takeWhile _ hmem
  exact absurd hne (by decide)

/-- A line that ends, or the last one. -/
theorem getline_cases {s : IStream} (heof : s.eof = false) (hfail : s.fail = false) :
    ∃ s' line, s.getline = (s', line) ∧ 0x0A ∉ line ∧
      ((s.rest = line ++ 0x0A :: s'.rest ∧ s'.eof = false ∧ s'.fail = false) ∨
        (s.rest = line ∧ s'.rest = [] ∧ s'.eof = true ∧ s'.fail = line.isEmpty)) := by
  have hnot := notMem_takeWhile_line s.rest
  rcases line_cases s.rest with ⟨rest, hrest⟩ | hline
  · have hlen : (s.rest.takeWhile (· != 0x0A)).length < s.rest.length := by
      conv => rhs; rw [hrest]
      simp
    refine ⟨{ s with pos := s.pos + (s.rest.takeWhile (· != 0x0A)).length + 1 },
      s.rest.takeWhile (· != 0x0A), ?_, hnot, .inl ⟨?_, heof, hfail⟩⟩
    · simp [getline, heof, hfail, hlen]
    · have hdrop := congrArg (List.drop ((s.rest.takeWhile (· != 0x0A)).length + 1)) hrest
      rw [List.drop_append, List.drop_eq_nil_of_le (Nat.le_succ _), Nat.add_sub_cancel_left] at hdrop
      refine hrest.trans (congrArg _ (congrArg _ ?_))
      exact ((rest_advance s _ s.eof s.fail).trans hdrop).symm
  · rw [hline] at hnot
    refine ⟨{ s with pos := s.pos + s.rest.length, eof := true, fail := s.rest.isEmpty }, s.rest,
      ?_, hnot, .inr ⟨rfl, ?_, rfl, rfl⟩⟩
    · simp [getline, heof, hfail, hline]
    · exact (rest_advance s _ _ _).trans List.drop_length

/-- A read that finds all it asks for. -/
theorem read_full {s : IStream} (h : s.Good) {xs ys : List UInt8} (hr : s.rest = xs ++ ys) :
    ∃ s', s.read xs.length = (s', xs) ∧ s'.Good ∧ s'.rest = ys ∧ s'.data = s.data := by
  have hlen : xs.length + ys.length + s.pos = s.data.length := by
    have := congrArg List.length hr
    simp only [rest, List.length_drop, List.length_append] at this
    have := h.pos
    omega
  refine ⟨{ s with pos := s.pos + xs.length }, ?_, ⟨h.eof, h.fail, ?_⟩, ?_, rfl⟩
  · simp [read, h.eof, h.fail, hr]
  · simp only; omega
  · have hdrop : s.data.drop (s.pos + xs.length) = (s.data.drop s.pos).drop xs.length := by
      rw [List.drop_drop]
    simp only [rest] at hr ⊢
    rw [hdrop, hr, List.drop_left]

/-- A read that finds less than it asks for takes the rest and raises
both flags. -/
theorem read_short {s : IStream} (h : s.Good) {n : Nat} (hn : s.rest.length < n) :
    ∃ s', s.read n = (s', s.rest) ∧ s'.fail = true ∧ s'.eof = true := by
  have htake : s.rest.take n = s.rest := List.take_of_length_le (by omega)
  exact ⟨{ s with pos := s.pos + s.rest.length, eof := true, fail := true },
    by simp [read, h.eof, h.fail, htake, hn], rfl, rfl⟩

/-- A stream that will read `rest` and then nothing. -/
def Holds (inp : IStream) (rest : List UInt8) : Prop :=
  (inp.Good ∧ inp.rest = rest) ∨ (inp.fail = true ∧ rest = [])

/-- A read of no more than there is. -/
theorem read_take {s : IStream} (h : s.Good) {n : Nat} (hle : n ≤ s.rest.length) :
    ∃ s', s.read n = (s', s.rest.take n) ∧ s'.Good ∧ s'.rest = s.rest.drop n := by
  obtain ⟨s', hread, hgood, hrest, -⟩ := read_full h (List.take_append_drop n s.rest).symm
  rw [List.length_take, Nat.min_eq_left hle] at hread
  exact ⟨s', hread, hgood, hrest⟩

/-- A read from a stream that holds something. -/
theorem read_chunk (chunk : Nat) {inp : IStream} {rest : List UInt8} (h : inp.Holds rest)
    (hne : rest ≠ []) :
    inp.ok = true ∧ ∃ inp', inp.read chunk = (inp', rest.take chunk) ∧
      inp'.Holds (rest.drop chunk) := by
  rcases h with ⟨hg, hr⟩ | ⟨-, h0⟩
  · refine ⟨by simp [ok, hg.fail], ?_⟩
    by_cases hle : chunk ≤ rest.length
    · rw [← hr] at hle ⊢
      obtain ⟨inp', hread, hg', hr'⟩ := read_take hg hle
      exact ⟨inp', hread, .inl ⟨hg', hr'⟩⟩
    · obtain ⟨inp', hread, hfail, -⟩ := read_short hg (n := chunk) (by rw [hr]; omega)
      rw [hr] at hread
      rw [List.take_of_length_le (by omega), List.drop_eq_nil_of_le (by omega)]
      exact ⟨inp', hread, .inr ⟨hfail, rfl⟩⟩
  · exact absurd h0 hne

/-- A stream that holds nothing has failed or fails to read. -/
theorem read_none {n : Nat} {inp : IStream} (h : inp.Holds []) (hn : 0 < n) :
    inp.ok = false ∨ inp.ok = true ∧ ∃ inp', inp.read n = (inp', []) := by
  rcases h with ⟨hg, hr⟩ | ⟨hfail, -⟩
  · obtain ⟨inp', hread, -, -⟩ := read_short hg (n := n) (by rw [hr]; exact hn)
    rw [hr] at hread
    exact .inr ⟨by simp [ok, hg.fail], inp', hread⟩
  · exact .inl (by simp [ok, hfail])

/-- A stream that holds nothing more reads nothing. -/
theorem read_end {inp : IStream} (h : inp.Holds []) {n : Nat} (hn : 0 < n) :
    (inp.read n).2 = [] ∧ (inp.read n).1.ok = false := by
  unfold IStream.read
  rcases h with ⟨hg, hr⟩ | ⟨hfail, -⟩
  · simp [hg.eof, hg.fail, hr, hn, IStream.ok]
  · simp [hfail, IStream.ok]

/-- Peeking one byte and seeking back leaves a good stream as it was. -/
theorem read_seekBack {s : IStream} (h : s.Good) {x : UInt8} {xs : List UInt8}
    (hr : s.rest = x :: xs) : (s.read 1).1.seekBack = s ∧ (s.read 1).1.fail = false := by
  have hlen : ¬ ((s.rest.take 1).length < 1) := by simp [hr]
  obtain ⟨data, pos, eof, fail⟩ := s
  obtain ⟨he, hf, hp⟩ := h
  simp only at he hf
  subst he hf
  simp [read, hr, seekBack]

theorem tellg_good {s : IStream} (h : s.Good) : s.tellg = ((s.pos : Int), s) := by
  simp [tellg, h.eof, h.fail]

/-- Seeking inside the data of a good stream. -/
theorem seekg_good {s : IStream} (h : s.Good) {p : Nat} (hp : p ≤ s.data.length) :
    s.seekg p = { s with pos := p } := by
  obtain ⟨data, pos, eof, fail⟩ := s
  obtain ⟨he, hf, -⟩ := h
  simp only at he hf hp
  subst he hf
  simp [seekg, hp]

theorem seekEnd_good {s : IStream} (h : s.Good) : s.seekEnd = { s with pos := s.data.length } := by
  obtain ⟨data, pos, eof, fail⟩ := s
  obtain ⟨he, hf, -⟩ := h
  simp only at he hf
  subst he hf
  simp [seekEnd]

end IStream

/-- An output stream: what it accepted, how much more it will accept
(`none` is no limit) and its state. -/
structure OStream where
  written : List UInt8
  room : Option Nat
  fail : Bool
  deriving DecidableEq, Repr

namespace OStream

/-- An empty stream that accepts everything. -/
def empty : OStream := { written := [], room := none, fail := false }

/-- `operator bool`. -/
def ok (s : OStream) : Bool := !s.fail

/-- `write(buf, n)`: a stream that runs out of room takes what fits and
fails. -/
def write (s : OStream) (bs : List UInt8) : OStream :=
  if s.fail then s
  else
    match s.room with
    | none => { s with written := s.written ++ bs }
    | some r =>
        if bs.length ≤ r then { s with written := s.written ++ bs, room := some (r - bs.length) }
        else { written := s.written ++ bs.take r, room := some 0, fail := true }

/-- `write(buf, n)` where the count is a `size_t`: from 2^63 on it is a
negative `streamsize`, nothing is written and the stream goes bad. -/
def writeSz (s : OStream) (buf : List UInt8) (n : Nat) : Option OStream :=
  if n < 2 ^ 63 then (readN buf 0 n).map s.write else some { s with fail := true }

/-- A stream in good state with no limit. -/
structure Open (s : OStream) : Prop where
  room : s.room = none
  fail : s.fail = false

theorem open_empty : empty.Open := ⟨rfl, rfl⟩

theorem write_open {s : OStream} (h : s.Open) (bs : List UInt8) :
    (s.write bs).Open ∧ (s.write bs).written = s.written ++ bs := by
  obtain ⟨hr, hf⟩ := h
  refine ⟨⟨?_, ?_⟩, ?_⟩ <;> simp [write, hr, hf]

/-- Whether a write of `n` bytes is accepted. -/
def Takes (s : OStream) (n : Nat) : Prop := ∀ r, s.room = some r → n ≤ r

/-- A stream in good state takes a write that fits and fails on one that
does not. -/
theorem write_takes {s : OStream} (h : s.fail = false) (bs : List UInt8) :
    (s.Takes bs.length → (s.write bs).fail = false ∧
      (s.write bs).room = s.room.map (· - bs.length) ∧
      (s.write bs).written = s.written ++ bs) ∧
    (¬ s.Takes bs.length → (s.write bs).fail = true) := by
  cases hr : s.room with
  | none => simp [Takes, write, h, hr]
  | some r =>
    by_cases hle : bs.length ≤ r
    · simp [Takes, write, h, hr, hle]
    · simp [Takes, write, h, hr, hle]

/-- Two writes are one. -/
theorem write_append (s : OStream) (as bs : List UInt8) :
    s.write (as ++ bs) = (s.write as).write bs := by
  cases hf : s.fail with
  | true => simp [write, hf]
  | false =>
    cases hr : s.room with
    | none => simp [write, hf, hr]
    | some r =>
      by_cases has : as.length ≤ r
      · by_cases hbs : bs.length ≤ r - as.length
        · have hall : as.length + bs.length ≤ r := by omega
          simp [write, hf, hr, has, hbs, hall, Nat.sub_sub]
        · have hall : ¬ as.length + bs.length ≤ r := by omega
          simp [write, hf, hr, has, hbs, hall, List.take_append, List.take_of_length_le has]
      · have hall : ¬ as.length + bs.length ≤ r := by omega
        have hzero : r - as.length = 0 := by omega
        simp [write, hf, hr, has, hall, List.take_append, hzero]

/-- A stream that is well after two writes was well after the first. -/
theorem ok_of_write {s : OStream} {bs : List UInt8} (h : (s.write bs).ok = true) : s.ok = true := by
  cases hf : s.fail with
  | true => simp [write, ok, hf] at h
  | false => simp [ok, hf]

/-- What a stream with room for `r` bytes makes of a write. -/
theorem write_limited {s : OStream} (hf : s.fail = false) {r : Nat} (hr : s.room = some r)
    (bs : List UInt8) :
    (s.write bs).written = s.written ++ bs.take r ∧ ((s.write bs).ok = true ↔ bs.length ≤ r) := by
  by_cases hle : bs.length ≤ r
  · simp [write, ok, hf, hr, hle, List.take_of_length_le hle]
  · simp [write, ok, hf, hr, hle]

end OStream

end HighJump.Lib
