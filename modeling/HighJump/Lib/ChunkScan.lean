/-
HighJump.Lib.ChunkScan — validating what is left of a file in chunks, and
going back.

The scan notes its position, reads chunks of `n` bytes and gives each to a
test. A chunk that fails the test ends it on the spot; a scan that comes
to the end clears the stream, goes back to the position noted, and looks
at the number of bytes it has seen. `scan_passes` and `scan_stops` are the
two ways out, and only the first goes back.
-/
import HighJump.Lib.Loop
import HighJump.Lib.Streams

namespace HighJump.Lib

/-- `std::ifstream` -/
structure IFStream extends IStream where
  isOpen : Bool
  deriving DecidableEq, Repr

namespace IFStream

/-- A file opened for reading, at its start. -/
def ofFile (data : List UInt8) : IFStream := { IStream.ofBytes data with isOpen := true }

def read (s : IFStream) (n : Nat) : IFStream × List UInt8 :=
  ({ s with toIStream := (s.toIStream.read n).1 }, (s.toIStream.read n).2)

def tellg (s : IFStream) : Int × IFStream :=
  (s.toIStream.tellg.1, { s with toIStream := s.toIStream.tellg.2 })

/-- `clear()` -/
def clear (s : IFStream) : IFStream := { s with eof := false, fail := false }

/-- `seekg(p)`: a file can be positioned behind its end, not before its
start. -/
def seekg (s : IFStream) (p : Int) : IFStream :=
  let s := { s with eof := false }
  if s.fail then s else if 0 ≤ p then { s with pos := p.toNat } else { s with fail := true }

/-- No flag is raised. -/
structure Unflagged (s : IFStream) : Prop where
  eof : s.eof = false
  fail : s.fail = false

/-- A stream that will give `rest` and then nothing. -/
def Ahead (s : IFStream) (rest : List UInt8) : Prop :=
  (s.Unflagged ∧ s.rest = rest) ∨ (s.fail = true ∧ rest = [])

/-- The next read of a stream that has something ahead. -/
theorem read_ahead {s : IFStream} {n : Nat} {rest : List UInt8} (h : s.Ahead rest)
    (hne : rest ≠ []) (hn : 0 < n) :
    s.fail = false ∧ ∃ s', s.read n = (s', rest.take n) ∧ s'.Ahead (rest.drop n) ∧
      s.pos < s'.pos ∧ s'.data = s.data ∧ s'.isOpen = s.isOpen := by
  obtain ⟨⟨heof, hfail⟩, rfl⟩ := h.resolve_right fun h => hne h.2
  have hpos : 0 < s.rest.length := List.length_pos_iff.mpr hne
  refine ⟨hfail, ?_⟩
  by_cases hshort : s.rest.length < n
  · rw [List.take_of_length_le (by omega), List.drop_eq_nil_of_le (by omega)]
    refine ⟨{ s with pos := s.pos + s.rest.length, eof := true, fail := true }, ?_,
      .inr ⟨rfl, rfl⟩, by simp only; omega, rfl, rfl⟩
    have htake : s.rest.take n = s.rest := List.take_of_length_le (by omega)
    simp [read, IStream.read, heof, hfail, htake, hshort]
  · have hlen : ¬ (s.rest.take n).length < n := by
      rw [List.length_take]
      omega
    refine ⟨{ s with pos := s.pos + n }, ?_, .inl ⟨⟨heof, hfail⟩, ?_⟩, by simp only; omega, rfl,
      rfl⟩
    · simp only [read, IStream.read, heof, hfail, Bool.or_self, Bool.false_eq_true, if_false,
        if_neg hlen]
    · simp only [IStream.rest, List.drop_drop]

/-- At the end a read finds nothing, if there is one at all. -/
theorem read_end {s : IFStream} {n : Nat} (h : s.Ahead []) (hn : 0 < n) :
    s.fail = true ∨ s.fail = false ∧ ∃ s', s.read n = (s', []) ∧ s'.data = s.data ∧
      s'.isOpen = s.isOpen := by
  rcases h with ⟨⟨heof, hfail⟩, hrest⟩ | ⟨hfail, -⟩
  · refine .inr ⟨hfail, { s with eof := true, fail := true }, ?_, rfl, rfl⟩
    simp [read, IStream.read, heof, hfail, hrest, hn]
  · exact .inl hfail

/-- Cleared and sent to a position, a stream is as it was up to there. -/
theorem clear_seekg (s : IFStream) (p : Nat) :
    s.clear.seekg p = { s with pos := p, eof := false, fail := false } := by
  simp [clear, seekg]

end IFStream

/-! ## Chunks of a list -/

/-- Every chunk of `n` satisfies `P`; the last may be shorter. -/
def EveryChunk {α : Type} (n : Nat) (P : List α → Prop) (s : List α) : Prop :=
  ∀ k, n * k < s.length → P ((s.drop (n * k)).take n)

section EveryChunk

variable {α : Type} {n : Nat} {P : List α → Prop}

theorem everyChunk_nil : EveryChunk n P [] := by
  intro k hk
  cases hk

/-- The first chunk, then the others. -/
theorem everyChunk_iff {s : List α} (hs : s ≠ []) :
    EveryChunk n P s ↔ P (s.take n) ∧ EveryChunk n P (s.drop n) := by
  constructor
  · intro h
    refine ⟨by simpa using h 0 (by simpa using List.length_pos_iff.mpr hs), fun k hk => ?_⟩
    rw [List.length_drop] at hk
    have hchunk := h (k + 1) (by rw [Nat.mul_succ]; omega)
    rwa [Nat.mul_succ, Nat.add_comm, ← List.drop_drop] at hchunk
  · rintro ⟨hfirst, hrest⟩ k hk
    cases k with
    | zero => simpa using hfirst
    | succ k =>
        rw [Nat.mul_succ] at hk ⊢
        have hchunk := hrest k (by rw [List.length_drop]; omega)
        rwa [List.drop_drop, Nat.add_comm] at hchunk

/-- A condition on single elements does not see the chunks. -/
theorem everyChunk_all_iff (hn : 0 < n) (p : α → Bool) (s : List α) :
    EveryChunk n (·.all p = true) s ↔ ∀ c ∈ s, p c = true := by
  constructor
  · intro h
    induction hlen : s.length using Nat.strong_induction_on generalizing s with
    | _ m ih =>
        by_cases hs : s = []
        · simp [hs]
        obtain ⟨hfirst, hrest⟩ := (everyChunk_iff hs).mp h
        have hpos : 0 < s.length := List.length_pos_iff.mpr hs
        have htail := ih (s.drop n).length (by rw [List.length_drop]; omega) (s.drop n) hrest rfl
        intro c hc
        rw [← List.take_append_drop n s] at hc
        rcases List.mem_append.mp hc with hc | hc
        · exact List.all_eq_true.mp hfirst c hc
        · exact htail c hc
  · intro h k _
    rw [List.all_eq_true]
    intro c hc
    exact h c (List.mem_of_mem_drop (List.mem_of_mem_take hc))

end EveryChunk

/-! ## The scan -/

section Scan

variable (n unit : Nat) (chunkOk : List UInt8 → Option Bool)

/-- One turn of `while(in)`, with the number of bytes so far; it leaves the
loop with that number, or with `none` where the function returns at once. -/
def scanTurn (_ : Nat) (s : Nat × IFStream) :
    Option (Turn (Nat × IFStream) (Option Nat × IFStream)) :=
  if s.2.ok then
    let (inp, buf) := s.2.read n
    if buf.length = 0 then some (.exit (some s.1, inp))
    else
      match chunkOk buf with
      | none => none
      | some false => some (.exit (none, inp))
      | some true => some (.again (s.1 + buf.length, inp))
  else some (.exit (some s.1, s.2))

/-- The whole scan: the answer and the stream it leaves. Every turn but the
last takes a byte, which bounds their number. -/
def scan (inp : IFStream) : Option (Bool × IFStream) :=
  if !inp.isOpen then some (false, inp)
  else
    let (startPos, inp) := inp.tellg
    match repeatUntil (scanTurn n chunkOk) (inp.rest.length + 1) (0, inp) with
    | none => none
    | some (none, inp) => some (false, inp)
    | some (some totalLen, inp) =>
        let inp := inp.clear.seekg startPos
        if totalLen = 0 || totalLen % unit ≠ 0 then some (false, inp) else some (true, inp)

variable {n unit} {chunkOk} {ok : List UInt8 → Bool} (hok : ∀ buf, chunkOk buf = some (ok buf))

include hok

/-- The loop over what is ahead: to the end if every chunk passes, and
otherwise out of the function from a later position. -/
theorem scanTurn_run (hn : 0 < n) (fuel : Nat) :
    ∀ (total : Nat) {inp : IFStream} {rest : List UInt8}, inp.Ahead rest → rest.length < fuel →
      (EveryChunk n (ok · = true) rest →
        ∃ inp', repeatUntil (scanTurn n chunkOk) fuel (total, inp) =
            some (some (total + rest.length), inp') ∧
          inp'.data = inp.data ∧ inp'.isOpen = inp.isOpen) ∧
      (¬ EveryChunk n (ok · = true) rest →
        ∃ inp', repeatUntil (scanTurn n chunkOk) fuel (total, inp) = some (none, inp') ∧
          inp.pos < inp'.pos) := by
  induction fuel with
  | zero => intro total inp rest _ hfuel; omega
  | succ fuel ih =>
      intro total inp rest hinp hfuel
      by_cases hnil : rest = []
      · subst hnil
        refine ⟨fun _ => ?_, fun h => absurd everyChunk_nil h⟩
        rcases IFStream.read_end hinp hn with hfail | ⟨hfail, inp', hread, hdata, hopen⟩
        · exact ⟨inp, repeatUntil_exit (by simp [scanTurn, IStream.ok, hfail]), rfl, rfl⟩
        · exact ⟨inp', repeatUntil_exit (by simp [scanTurn, IStream.ok, hfail, hread]), hdata,
            hopen⟩
      obtain ⟨hfail, inp', hread, hinp', hpos, hdata, hopen⟩ := IFStream.read_ahead hinp hnil hn
      have hlen : 0 < (rest.take n).length := by
        have := List.length_pos_iff.mpr hnil
        rw [List.length_take]
        omega
      have hsplit : (rest.take n).length + (rest.drop n).length = rest.length := by
        rw [← List.length_append, List.take_append_drop]
      have hturn : scanTurn n chunkOk fuel (total, inp) =
          some (if ok (rest.take n) then .again (total + (rest.take n).length, inp')
            else .exit (none, inp')) := by
        simp only [scanTurn, IStream.ok, hfail, Bool.not_false, if_true, hread,
          if_neg (Nat.pos_iff_ne_zero.mp hlen), hok]
        cases ok (rest.take n) <;> rfl
      rw [everyChunk_iff hnil]
      cases hpass : ok (rest.take n) with
      | true =>
          rw [hpass, if_pos rfl] at hturn
          obtain ⟨hall, hsome⟩ := ih (total + (rest.take n).length) hinp' (by omega)
          rw [Nat.add_assoc, hsplit] at hall
          constructor
          · rintro ⟨_, h⟩
            obtain ⟨inp'', hrun, hdata', hopen'⟩ := hall h
            exact ⟨inp'', (repeatUntil_again hturn).trans hrun, hdata'.trans hdata,
              hopen'.trans hopen⟩
          · intro h
            obtain ⟨inp'', hrun, hlt⟩ := hsome fun h' => h ⟨rfl, h'⟩
            exact ⟨inp'', (repeatUntil_again hturn).trans hrun, Nat.lt_trans hpos hlt⟩
      | false =>
          rw [hpass, if_neg (by decide)] at hturn
          exact ⟨fun h => absurd h.1 (by decide), fun _ => ⟨inp', repeatUntil_exit hturn, hpos⟩⟩

/-- **A scan in which every chunk passes** leaves the stream as it was. -/
theorem scan_passes (hn : 0 < n) {inp : IFStream} (hopen : inp.isOpen = true)
    (hinp : inp.Unflagged) (h : EveryChunk n (ok · = true) inp.rest) :
    scan n unit chunkOk inp =
      some (decide (inp.rest ≠ [] ∧ inp.rest.length % unit = 0), inp) := by
  obtain ⟨heof, hfail⟩ := hinp
  have htell : inp.tellg = ((inp.pos : Int), inp) := by
    simp [IFStream.tellg, IStream.tellg, heof, hfail]
  obtain ⟨inp', hrun, hdata, hopen'⟩ := (scanTurn_run hok hn (inp.rest.length + 1)
    0 (.inl ⟨⟨heof, hfail⟩, rfl⟩) (Nat.lt_succ_self _)).1 h
  have hback : inp'.clear.seekg inp.pos = inp := by
    rw [IFStream.clear_seekg, hdata, hopen', ← heof]
    nth_rewrite 2 [heof]
    rw [← hfail]
  rw [Nat.zero_add] at hrun
  simp only [scan, hopen, htell, hrun, hback, Bool.not_true, Bool.false_eq_true, if_false]
  by_cases hnil : inp.rest = []
  · simp [hnil]
  · have hlen : inp.rest.length ≠ 0 := fun h => hnil (List.eq_nil_of_length_eq_zero h)
    by_cases hmod : inp.rest.length % unit = 0
    · simp [hnil, hmod]
    · simp [hnil, hmod]

/-- **A scan that meets a chunk that does not pass** answers from behind it. -/
theorem scan_stops (hn : 0 < n) {inp : IFStream} (hopen : inp.isOpen = true)
    (hinp : inp.Unflagged) (h : ¬ EveryChunk n (ok · = true) inp.rest) :
    ∃ inp', scan n unit chunkOk inp = some (false, inp') ∧ inp.pos < inp'.pos := by
  obtain ⟨heof, hfail⟩ := hinp
  have htell : inp.tellg = ((inp.pos : Int), inp) := by
    simp [IFStream.tellg, IStream.tellg, heof, hfail]
  obtain ⟨inp', hrun, hpos⟩ := (scanTurn_run hok hn (inp.rest.length + 1)
    0 (.inl ⟨⟨heof, hfail⟩, rfl⟩) (Nat.lt_succ_self _)).2 h
  refine ⟨inp', ?_, hpos⟩
  simp only [scan, hopen, htell, hrun, Bool.not_true, Bool.false_eq_true, if_false]

omit hok in
/-- A stream that has a flag raised has no position to go back to. -/
theorem scan_flagged {inp : IFStream} (hopen : inp.isOpen = true) (hinp : ¬ inp.Unflagged) :
    ∃ inp', scan n unit chunkOk inp = some (false, inp') ∧ inp'.fail = true := by
  have hflag : (inp.eof || inp.fail) = true := by
    rw [Bool.or_eq_true]
    by_contra h
    rw [not_or, Bool.not_eq_true, Bool.not_eq_true] at h
    exact hinp ⟨h.1, h.2⟩
  have htell : inp.tellg = (-1, { inp with fail := true }) := by
    simp [IFStream.tellg, IStream.tellg, hflag]
  refine ⟨({ inp with fail := true } : IFStream).clear.seekg (-1), ?_, by
    simp [IFStream.clear, IFStream.seekg]⟩
  -- the loop is not entered
  simp only [scan, hopen, htell, Bool.not_true, Bool.false_eq_true, if_false]
  rfl

/-- What is left behind is what was there, exactly if no flag was raised and
every chunk passes. -/
theorem scan_restores_iff (hn : 0 < n) {inp : IFStream} (hopen : inp.isOpen = true) :
    ∃ r inp', scan n unit chunkOk inp = some (r, inp') ∧
      (inp'.pos = inp.pos ∧ inp'.Unflagged ↔
        inp.Unflagged ∧ EveryChunk n (ok · = true) inp.rest) := by
  by_cases hinp : inp.Unflagged
  · by_cases h : EveryChunk n (ok · = true) inp.rest
    · exact ⟨_, inp, scan_passes hok hn hopen hinp h, by simp [hinp, h]⟩
    · obtain ⟨inp', hscan, hpos⟩ := scan_stops hok hn hopen hinp h
      refine ⟨false, inp', hscan, ?_⟩
      constructor
      · rintro ⟨hsame, _⟩
        omega
      · rintro ⟨_, h'⟩
        exact absurd h' h
  · obtain ⟨inp', hscan, hfail⟩ : ∃ inp', scan n unit chunkOk inp = some (false, inp') ∧
        inp'.fail = true := scan_flagged hopen hinp
    refine ⟨false, inp', hscan, ?_⟩
    constructor
    · rintro ⟨_, h'⟩
      rw [h'.fail] at hfail
      cases hfail
    · rintro ⟨h', _⟩
      exact absurd h' hinp

end Scan

end HighJump.Lib
