/-
HighJump.Compress.GzipStream — the stream overload of `decompress`, and
truncated input.

The outer loop reads pieces of `chunk_size` bytes, of which `avail_in`
can say the length modulo 2^32; the inner loop drains the decoder. What
the function comes to is a matter of arithmetic on what the pieces
determine: `counts` lists the `have` of every turn, `finalRet` is the
answer of the last call. `decompressStream_ok_iff` puts the conditions
together.
-/
import HighJump.Compress.GzipTheorems

namespace HighJump.Compress.Gzip

open HighJump.Lib HighJump.Lib.Zlib

variable {F : Format} {I : Inflater} {K : InflateContract F I}

/-! ## The inner loop of the stream overload -/

/-- The counts `have` of the turns that deliver `m` bytes: each full turn
counts the whole buffer, the last one what is left and the part of the
buffer `avail_out` cannot say. -/
def havesOf (chunk m : Nat) : List Nat :=
  List.replicate (m / toUInt chunk) chunk ++ [chunk - toUInt chunk + m % toUInt chunk]

/-- Every turn passes the limit and the output stream takes it. -/
def Admits (maxOutputSz : Nat) : Nat → Option Nat → List Nat → Prop
  | _, _, [] => True
  | total, room, h :: hs =>
      ¬ (0 < maxOutputSz ∧ maxOutputSz < (total + h) % 2 ^ 64) ∧ (∀ r, room = some r → h ≤ r) ∧
        Admits maxOutputSz ((total + h) % 2 ^ 64) (room.map (· - h)) hs

section Inner

variable {maxOutputSz chunk : Nat}

/-- The pump between turns: its buffer has its size and its stream is
good. -/
structure Pump.Ready (chunk : Nat) (p : Pump I.State) : Prop where
  outbuf : p.outbuf.length = chunk
  out : p.out.fail = false

/-- The pump after a turn that wrote. -/
def Pump.next (chunk : Nat) (p : Pump I.State) : Pump I.State :=
  let r := I.inflate p.state p.unread (toUInt chunk)
  let have_ := chunk - toUInt chunk + r.out.length
  let outbuf := fill p.outbuf r.out
  ⟨r.state, p.unread.drop r.used, outbuf, p.out.write (outbuf.take have_),
    (p.totalOut + have_) % 2 ^ 64, r.ret⟩

theorem toUInt_le (n : Nat) : toUInt n ≤ n := Nat.mod_le _ _

variable (maxOutputSz) in
/-- One turn with its answer out of the way. -/
theorem inflateTurn_of_ret {p : Pump I.State}
    (hret : (I.inflate p.state p.unread (toUInt chunk)).ret = .ok ∨
      (I.inflate p.state p.unread (toUInt chunk)).ret = .bufError ∨
      (I.inflate p.state p.unread (toUInt chunk)).ret = .streamEnd)
    {n : Nat} (hn : (I.inflate p.state p.unread (toUInt chunk)).out.length = n)
    (hlen : n ≤ toUInt chunk) :
    inflateTurn I maxOutputSz chunk p
      = if maxOutputSz > 0 ∧ (p.totalOut + (chunk - toUInt chunk + n)) % 2 ^ 64 > maxOutputSz then
          .exit (.error (.maxOutputSzExceeded, p.out))
        else if !(p.next chunk).out.ok then .exit (.error (.writeBufferError, (p.next chunk).out))
        else if n = toUInt chunk then .again (p.next chunk)
        else .exit (.ok (p.next chunk)) := by
  have hle := toUInt_le chunk
  have hhave : chunk - (toUInt chunk - n) = chunk - toUInt chunk + n := by omega
  have hzero : (toUInt chunk - n = 0) = (n = toUInt chunk) := by apply propext; omega
  unfold inflateTurn Pump.next
  dsimp only
  rcases hret with h | h | h <;> simp only [h, hn, hhave, hzero]

variable (maxOutputSz) in
/-- One turn: it writes and goes on, or the function returns something
other than ok. -/
theorem inflateTurn_eq {p : Pump I.State} (hp : p.Ready chunk)
    (hret : (I.inflate p.state p.unread (toUInt chunk)).ret = .ok ∨
      (I.inflate p.state p.unread (toUInt chunk)).ret = .bufError ∨
      (I.inflate p.state p.unread (toUInt chunk)).ret = .streamEnd)
    {n : Nat} (hn : (I.inflate p.state p.unread (toUInt chunk)).out.length = n)
    (hlen : n ≤ toUInt chunk) :
    (Admits maxOutputSz p.totalOut p.out.room [chunk - toUInt chunk + n] ∧
      (p.next chunk).Ready chunk ∧
      (p.next chunk).out.room = p.out.room.map (· - (chunk - toUInt chunk + n)) ∧
      (p.next chunk).out.written.length = p.out.written.length + (chunk - toUInt chunk + n) ∧
      inflateTurn I maxOutputSz chunk p
        = if n = toUInt chunk then .again (p.next chunk) else .exit (.ok (p.next chunk))) ∨
    (¬ Admits maxOutputSz p.totalOut p.out.room [chunk - toUInt chunk + n] ∧
      ∃ e o, inflateTurn I maxOutputSz chunk p = .exit (.error (e, o)) ∧ e ≠ .ok) := by
  have hle := toUInt_le chunk
  have hturn := inflateTurn_of_ret maxOutputSz hret hn hlen
  have hfill : (fill p.outbuf (I.inflate p.state p.unread (toUInt chunk)).out).length = chunk := by
    rw [fill, List.length_append, List.length_drop, hp.outbuf, hn]
    omega
  have hwrote : ((fill p.outbuf (I.inflate p.state p.unread (toUInt chunk)).out).take
      (chunk - toUInt chunk + n)).length = chunk - toUInt chunk + n := by
    rw [List.length_take, hfill]
    omega
  have hw := OStream.write_takes hp.out
    ((fill p.outbuf (I.inflate p.state p.unread (toUInt chunk)).out).take
      (chunk - toUInt chunk + n))
  rw [hwrote] at hw
  have hnext : (p.next chunk).out = p.out.write
      ((fill p.outbuf (I.inflate p.state p.unread (toUInt chunk)).out).take
        (chunk - toUInt chunk + n)) := by
    simp only [Pump.next, hn]
  by_cases hlim : maxOutputSz > 0 ∧
      (p.totalOut + (chunk - toUInt chunk + n)) % 2 ^ 64 > maxOutputSz
  · exact .inr ⟨fun hadm => hadm.1 hlim, .maxOutputSzExceeded, p.out,
      by rw [hturn, if_pos hlim], by decide⟩
  · rw [if_neg hlim] at hturn
    by_cases htakes : p.out.Takes (chunk - toUInt chunk + n)
    · obtain ⟨hfail, hroom, hwritten⟩ := hw.1 htakes
      rw [← hnext] at hfail hroom hwritten
      refine .inl ⟨⟨hlim, htakes, trivial⟩, ⟨hfill, hfail⟩, hroom, ?_, ?_⟩
      · rw [hwritten, List.length_append, hwrote]
      · rw [hturn, if_neg (by simp [OStream.ok, hfail])]
    · have hfail := hw.2 htakes
      rw [← hnext] at hfail
      exact .inr ⟨fun hadm => htakes hadm.2.1, .writeBufferError, (p.next chunk).out,
        by rw [hturn, if_pos (by simp [OStream.ok, hfail])], by decide⟩

theorem admits_cons {total h : Nat} {room : Option Nat} {hs : List Nat} :
    Admits maxOutputSz total room (h :: hs) ↔ Admits maxOutputSz total room [h] ∧
      Admits maxOutputSz ((total + h) % 2 ^ 64) (room.map (· - h)) hs := by
  simp only [Admits, and_true, and_assoc]

theorem havesOf_full {m : Nat} (hw : 0 < toUInt chunk) (hm : toUInt chunk ≤ m) :
    havesOf chunk m = (chunk - toUInt chunk + toUInt chunk) :: havesOf chunk (m - toUInt chunk) := by
  have hle := toUInt_le chunk
  have hch : chunk - toUInt chunk + toUInt chunk = chunk := by omega
  unfold havesOf
  rw [Nat.div_eq_sub_div hw hm, List.replicate_succ, List.cons_append, hch,
    ← Nat.mod_eq_sub_mod hm]

theorem havesOf_short {m : Nat} (hm : m < toUInt chunk) :
    havesOf chunk m = [chunk - toUInt chunk + m] := by
  unfold havesOf
  rw [Nat.div_eq_of_lt hm, Nat.mod_eq_of_lt hm]
  rfl

/-- The pump after a piece `T` was offered: nothing is due, and the counts
`hs` have been made. -/
structure Pump.Drained (K : InflateContract F I) (chunk : Nat) (T : Bytes) (p : Pump I.State)
    (hs : List Nat) (ret : Ret) (p' : Pump I.State) : Prop where
  ready : p'.Ready chunk
  feeding : Feeding K T p'.state [] 0
  totalOut : p'.totalOut = (p.totalOut + hs.sum) % 2 ^ 64
  room : p'.out.room = p.out.room.map (· - hs.sum)
  written : p'.out.written.length = p.out.written.length + hs.sum
  ret : p'.ret = ret

/-- Counts made after a turn are counts made from before it. -/
theorem Pump.Drained.cons {T : Bytes} {p q p' : Pump I.State} {h : Nat} {hs : List Nat} {ret : Ret}
    (htot : q.totalOut = (p.totalOut + h) % 2 ^ 64) (hroom : q.out.room = p.out.room.map (· - h))
    (hwritten : q.out.written.length = p.out.written.length + h)
    (hd : q.Drained K chunk T hs ret p') : p.Drained K chunk T (h :: hs) ret p' := by
  refine ⟨hd.ready, hd.feeding, ?_, ?_, ?_, hd.ret⟩
  · rw [hd.totalOut, htot, List.sum_cons]
    omega
  · rw [hd.room, hroom, List.sum_cons, Option.map_map]
    congr 1
    funext r
    simp only [Function.comp]
    omega
  · rw [hd.written, hwritten, List.sum_cons]
    omega

/-- The answer the inner loop ends with. -/
def innerRet (F : Format) (chunk : Nat) (T i : Bytes) (m : Nat) : Ret :=
  if F.status T = .done then .streamEnd else lastRet (toUInt chunk) i m

/-- A call that fills the chunk leaves the answer to the calls to come. -/
theorem innerRet_next (hw : 0 < toUInt chunk) {T : Bytes} {m : Nat} {p : Pump I.State}
    (hfull : toUInt chunk ≤ m) (hfeed : Feeding K T p.state p.unread m)
    (hst : F.status T ≠ .bad) :
    innerRet F chunk T (p.next chunk).unread (m - toUInt chunk)
      = innerRet F chunk T p.unread m := by
  unfold innerRet
  by_cases hdone : F.status T = .done
  · rw [if_pos hdone, if_pos hdone]
  · rw [if_neg hdone, if_neg hdone]
    exact lastRet_sub hw hfull fun heq =>
      (call_more hfeed (toUInt chunk) (by omega) (more_of_ne hdone hst)).1

/-- A call that does not fill it gives the answer. -/
theorem innerRet_last {T : Bytes} {m : Nat} {p : Pump I.State} (hlt : m < toUInt chunk)
    (hfeed : Feeding K T p.state p.unread m) (hst : F.status T ≠ .bad) :
    (p.next chunk).ret = innerRet F chunk T p.unread m := by
  unfold innerRet
  by_cases hdone : F.status T = .done
  · rw [if_pos hdone]
    exact call_streamEnd hfeed _ (by omega) hdone
  · rw [if_neg hdone, ← lastRet_short hlt]
    exact (call_more hfeed _ (by omega) (more_of_ne hdone hst)).2

/-- **The inner loop**: on input that is not broken, with every count
admitted, it delivers what is due; otherwise the function returns
something other than ok. -/
theorem innerLoop_cases (hw : 0 < toUInt chunk) {T : Bytes} :
    ∀ (fuel m : Nat) (p : Pump I.State), p.Ready chunk → Feeding K T p.state p.unread m →
      m / toUInt chunk < fuel →
      ((F.status T ≠ .bad ∧ Admits maxOutputSz p.totalOut p.out.room (havesOf chunk m)) ∧
        ∃ p', repeatUntil (fun _ p => some (inflateTurn I maxOutputSz chunk p)) fuel p
            = some (.ok p') ∧
          p.Drained K chunk T (havesOf chunk m) (innerRet F chunk T p.unread m) p') ∨
      (¬ (F.status T ≠ .bad ∧ Admits maxOutputSz p.totalOut p.out.room (havesOf chunk m)) ∧
        ∃ e o, repeatUntil (fun _ p => some (inflateTurn I maxOutputSz chunk p)) fuel p
            = some (.error (e, o)) ∧ e ≠ .ok) := by
  intro fuel
  induction fuel with
  | zero => intro m p _ _ hf; exact absurd hf (Nat.not_lt_zero _)
  | succ fuel ih =>
    intro m p hp hfeed hf
    have hout := length_call_out hfeed (toUInt chunk)
    by_cases hbad : F.status T = .bad ∧
        (I.inflate p.state p.unread (toUInt chunk)).ret = .dataError
    · -- the call that meets the error
      have hturn : inflateTurn I maxOutputSz chunk p
          = .exit (.error (.ofRet .dataError, p.out)) := by
        simp only [inflateTurn, hbad.2]
      exact .inr ⟨fun h => h.1 hbad.1, _, _, repeatUntil_exit (congrArg some hturn), by decide⟩
    have hret : (I.inflate p.state p.unread (toUInt chunk)).ret = .ok ∨
        (I.inflate p.state p.unread (toUInt chunk)).ret = .bufError ∨
        (I.inflate p.state p.unread (toUInt chunk)).ret = .streamEnd := by
      by_cases hst : F.status T = .bad
      · have hle : toUInt chunk ≤ m := Nat.le_of_not_lt fun h =>
          hbad ⟨hst, call_dataError hfeed _ h hst⟩
        exact .inl ((call_bad hfeed _ hw hle hst).resolve_left fun h => hbad ⟨hst, h⟩)
      · exact call_ret hfeed _ hw hst
    by_cases hfull : toUInt chunk ≤ m
    · have hlen : (I.inflate p.state p.unread (toUInt chunk)).out.length = toUInt chunk := by
        rw [hout]; omega
      rw [havesOf_full hw hfull]
      rcases inflateTurn_eq maxOutputSz hp hret hlen (Nat.le_refl _) with
        ⟨hadm, hready, hroom, hwritten, hturn⟩ | ⟨hadm, e, o, hturn, he⟩
      · rw [if_pos rfl] at hturn
        rw [repeatUntil_again (congrArg some hturn)]
        have hdiv : (m - toUInt chunk) / toUInt chunk < fuel := by
          rw [Nat.div_eq_sub_div hw hfull] at hf
          omega
        have hq : (p.next chunk).totalOut
            = (p.totalOut + (chunk - toUInt chunk + toUInt chunk)) % 2 ^ 64 := by
          simp only [Pump.next, hlen]
        have hrec := ih (m - toUInt chunk) (p.next chunk) hready
          (call_step hfeed (toUInt chunk)) hdiv
        rw [hq, hroom] at hrec
        rcases hrec with ⟨⟨hst, hadm'⟩, p', hloop, hd⟩ | ⟨hno, e, o, hloop, he⟩
        · refine .inl ⟨⟨hst, admits_cons.mpr ⟨hadm, hadm'⟩⟩, p', hloop, ?_⟩
          rw [innerRet_next hw hfull hfeed hst] at hd
          exact hd.cons hq hroom hwritten
        · exact .inr ⟨fun h => hno ⟨h.1, (admits_cons.mp h.2).2⟩, e, o, hloop, he⟩
      · exact .inr ⟨fun h => hadm (admits_cons.mp h.2).1, e, o,
          repeatUntil_exit (congrArg some hturn), he⟩
    · have hlen : (I.inflate p.state p.unread (toUInt chunk)).out.length = m := by
        rw [hout]; omega
      have hlt : m < toUInt chunk := by omega
      have hst : F.status T ≠ .bad := fun h => hbad ⟨h, call_dataError hfeed _ hlt h⟩
      rw [havesOf_short hlt]
      rcases inflateTurn_eq maxOutputSz hp hret hlen (by omega) with
        ⟨hadm, hready, hroom, hwritten, hturn⟩ | ⟨hadm, e, o, hturn, he⟩
      · rw [if_neg (by omega)] at hturn
        refine .inl ⟨⟨hst, hadm⟩, _, repeatUntil_exit (congrArg some hturn), hready,
          call_last hfeed _ (by omega) hst, ?_, ?_, ?_, innerRet_last hlt hfeed hst⟩
        · simp [Pump.next, hlen]
        · simpa using hroom
        · simpa using hwritten
      · exact .inr ⟨fun h => hadm h.2, e, o, repeatUntil_exit (congrArg some hturn), he⟩

end Inner

/-! ## Pieces -/

/-- What successive reads of `chunk` bytes return. -/
def readsOf (chunk : Nat) : Nat → Bytes → List Bytes
  | 0, _ => []
  | n + 1, p => if p = [] then [] else p.take chunk :: readsOf chunk n (p.drop chunk)

/-- The pieces zlib is offered. -/
def pieces (chunk : Nat) (p : Bytes) : List Bytes :=
  (readsOf chunk p.length p).map fun g => g.take (toUInt g.length)

theorem readsOf_nil (chunk n : Nat) : readsOf chunk n [] = [] := by
  cases n <;> rfl

theorem readsOf_fuel {chunk : Nat} (hc : 0 < chunk) :
    ∀ (n m : Nat) (p : Bytes), p.length ≤ n → p.length ≤ m →
      readsOf chunk n p = readsOf chunk m p := by
  intro n
  induction n with
  | zero =>
    intro m p hn _
    rw [List.length_eq_zero_iff.mp (Nat.le_zero.mp hn), readsOf_nil, readsOf_nil]
  | succ n ih =>
    intro m p hn hm
    by_cases hp : p = []
    · rw [hp, readsOf_nil, readsOf_nil]
    · have hpos : 0 < p.length := List.length_pos_of_ne_nil hp
      obtain ⟨k, rfl⟩ : ∃ k, m = k + 1 := ⟨m - 1, by omega⟩
      rw [readsOf, readsOf, if_neg hp, if_neg hp,
        ih k (p.drop chunk) (by rw [List.length_drop]; omega) (by rw [List.length_drop]; omega)]

theorem pieces_nil (chunk : Nat) : pieces chunk [] = [] := rfl

theorem pieces_cons {chunk : Nat} (hc : 0 < chunk) {p : Bytes} (hp : p ≠ []) :
    pieces chunk p = (p.take chunk).take (toUInt (p.take chunk).length)
      :: pieces chunk (p.drop chunk) := by
  have hpos : 0 < p.length := List.length_pos_of_ne_nil hp
  obtain ⟨k, hk⟩ : ∃ k, p.length = k + 1 := ⟨p.length - 1, by omega⟩
  unfold pieces
  rw [hk, readsOf, if_neg hp, List.map_cons]
  rw [readsOf_fuel hc k (p.drop chunk).length (p.drop chunk) (by rw [List.length_drop]; omega)
    (Nat.le_refl _)]

/-- How many bytes a piece makes due. -/
def due (F : Format) (fed i : Bytes) : Nat := (F.dec (fed ++ i)).length - (F.dec fed).length

/-- The counts of all turns. -/
def counts (F : Format) (chunk : Nat) : Bytes → List Bytes → List Nat
  | _, [] => []
  | fed, i :: is => havesOf chunk (due F fed i) ++ counts F chunk (fed ++ i) is

/-- The answer of the last call, `ret` being the one before. -/
def finalRet (F : Format) (chunk : Nat) : Ret → Bytes → List Bytes → Ret
  | ret, _, [] => ret
  | _, fed, i :: is => finalRet F chunk (innerRet F chunk (fed ++ i) i (due F fed i)) (fed ++ i) is

/-! ## The outer loop -/

section Outer

variable {maxOutputSz chunk : Nat}

theorem admits_append {total : Nat} {room : Option Nat} {hs ks : List Nat} :
    Admits maxOutputSz total room (hs ++ ks) ↔ Admits maxOutputSz total room hs ∧
      Admits maxOutputSz ((total + hs.sum) % 2 ^ 64) (room.map (· - hs.sum)) ks := by
  induction hs generalizing total room with
  | nil =>
    -- the head of a list of counts reduces the total again
    cases ks with
    | nil => simp [Admits]
    | cons k ks => cases room <;> simp [Admits]
  | cons h hs ih =>
    have htot : ((total + h) % 2 ^ 64 + hs.sum) % 2 ^ 64 = (total + (h :: hs).sum) % 2 ^ 64 := by
      rw [List.sum_cons]; omega
    have hroom : (room.map (· - h)).map (· - hs.sum) = room.map (· - (h :: hs).sum) := by
      rw [Option.map_map, List.sum_cons]
      congr 1
      funext r
      simp only [Function.comp]
      omega
    rw [List.cons_append, admits_cons, ih, htot, hroom, ← and_assoc]
    exact and_congr_left' admits_cons.symm

/-- A turn of the outer loop when nothing is left. -/
theorem readTurn_nil {inp : IStream} (h : inp.Holds []) (hc : 0 < chunk) (fuel : Nat)
    (p : Pump I.State) :
    readTurn I maxOutputSz chunk fuel (inp, p) = some (.exit (decompressFinish I p)) := by
  rcases IStream.read_none h hc with hok | ⟨hok, inp', hread⟩
  · simp [readTurn, hok]
  · simp [readTurn, hok, hread]

variable (I maxOutputSz chunk) in
theorem readTurn_mono : FuelMono (readTurn I maxOutputSz chunk) := by
  intro n m x r hle h
  unfold readTurn at h ⊢
  by_cases hok : (!x.1.ok) = true
  · rw [if_pos hok] at h ⊢
    exact h
  · rw [if_neg hok] at h ⊢
    generalize x.1.read chunk = got at h ⊢
    obtain ⟨inp', got⟩ := got
    dsimp only at h ⊢
    by_cases hgot : got.length = 0
    · rw [if_pos hgot] at h ⊢
      exact h
    · rw [if_neg hgot] at h ⊢
      cases hin : repeatUntil (fun _ p => some (inflateTurn I maxOutputSz chunk p)) n
          { x.2 with unread := got.take (toUInt got.length) } with
      | none => rw [hin] at h; cases h
      | some e =>
        rw [hin] at h
        rw [turns_mono _ n m _ e hle hin]
        exact h

/-- What the whole run must meet. -/
def StreamOk (F : Format) (maxOutputSz chunk : Nat) (fed : Bytes) (total : Nat)
    (room : Option Nat) (ps : List Bytes) : Prop :=
  F.status (fed ++ ps.flatten) ≠ .bad ∧ Admits maxOutputSz total room (counts F chunk fed ps)

theorem status_append_ne {fed i : Bytes} (h : F.status (fed ++ i) ≠ .bad) :
    F.status fed ≠ .bad := by
  intro hb
  rw [F.status_stable fed i (by rw [hb]; simp), hb] at h
  exact h rfl

theorem streamOk_cons {fed i : Bytes} {is : List Bytes} {total : Nat} {room : Option Nat} :
    StreamOk F maxOutputSz chunk fed total room (i :: is) ↔
      (F.status (fed ++ i) ≠ .bad ∧ Admits maxOutputSz total room (havesOf chunk (due F fed i))) ∧
        StreamOk F maxOutputSz chunk (fed ++ i)
          ((total + (havesOf chunk (due F fed i)).sum) % 2 ^ 64)
          (room.map (· - (havesOf chunk (due F fed i)).sum)) is := by
  unfold StreamOk
  rw [counts, admits_append, List.flatten_cons, ← List.append_assoc]
  constructor
  · rintro ⟨hst, h1, h2⟩
    exact ⟨⟨status_append_ne hst, h1⟩, hst, h2⟩
  · rintro ⟨⟨-, h1⟩, hst, h2⟩
    exact ⟨hst, h1, h2⟩

variable (maxOutputSz) in
/-- **The outer loop**: with enough fuel it ends with the last answer and
has written what it counted if every piece is taken, and otherwise it ends
with something other than ok. -/
theorem readLoop_cases (hc : 0 < chunk) (hw : 0 < toUInt chunk) {rest fed : Bytes}
    {inp : IStream} {p : Pump I.State} (hholds : inp.Holds rest) (hp : p.Ready chunk)
    (hfeed : Feeding K fed p.state [] 0) (hst : F.status fed ≠ .bad) :
    ∃ N, ∀ fuel, N ≤ fuel →
      (StreamOk F maxOutputSz chunk fed p.totalOut p.out.room (pieces chunk rest) ∧
        ∃ o, repeatUntil (readTurn I maxOutputSz chunk) fuel (inp, p)
          = some (if finalRet F chunk p.ret fed (pieces chunk rest) ≠ .streamEnd then
              .ofRet (finalRet F chunk p.ret fed (pieces chunk rest)) else .ok, o) ∧
          o.written.length = p.out.written.length + (counts F chunk fed (pieces chunk rest)).sum) ∨
      (¬ StreamOk F maxOutputSz chunk fed p.totalOut p.out.room (pieces chunk rest) ∧
        ∃ e o, repeatUntil (readTurn I maxOutputSz chunk) fuel (inp, p) = some (e, o) ∧
          e ≠ .ok) := by
  induction hn : rest.length using Nat.strong_induction_on generalizing rest fed inp p with
  | _ n ih =>
    by_cases hne : rest = []
    · subst hne
      refine ⟨1, fun fuel hfuel => .inl ⟨⟨by simpa [pieces_nil] using hst, trivial⟩, p.out, ?_, rfl⟩⟩
      obtain ⟨f, rfl⟩ : ∃ f, fuel = f + 1 := ⟨fuel - 1, by omega⟩
      exact repeatUntil_exit (readTurn_nil hholds hc f p)
    obtain ⟨hok, inp', hread, hholds'⟩ := IStream.read_chunk chunk hholds hne
    have hpos : 0 < rest.length := List.length_pos_of_ne_nil hne
    have hgot : (rest.take chunk).length ≠ 0 := by rw [List.length_take]; omega
    rw [pieces_cons hc hne]
    generalize hi : (rest.take chunk).take (toUInt (rest.take chunk).length) = i
    have hfeed' := hfeed.offer i
    have hq : Pump.Ready chunk { p with unread := i } := ⟨hp.outbuf, hp.out⟩
    -- the turn, once the inner loop has its answer
    have hturn : ∀ {e f g}, repeatUntil (fun _ p => some (inflateTurn I maxOutputSz chunk p)) f
        { p with unread := i } = some e → f ≤ g →
        readTurn I maxOutputSz chunk g (inp, p)
          = some (match e with | .error r => .exit r | .ok p' => .again (inp', p')) := by
      intro e f g he hfg
      have he' := turns_mono _ f g _ e hfg he
      simp only [readTurn, hok, hread, hgot, hi, he', Bool.not_true, Bool.false_eq_true, if_false]
      cases e <;> rfl
    obtain ⟨f0, hf0⟩ : ∃ f0, due F fed i / toUInt chunk < f0 := ⟨_, Nat.lt_succ_self _⟩
    rcases innerLoop_cases hw f0 _ { p with unread := i } hq hfeed' hf0 with
      ⟨⟨hst', hadm⟩, p', hloop, hd⟩ | ⟨hno, e, o, hloop, he⟩
    · obtain ⟨N, hN⟩ := ih (rest.drop chunk).length (by rw [List.length_drop]; omega) hholds'
        hd.ready hd.feeding hst' rfl
      refine ⟨max N f0 + 1, fun fuel hfuel => ?_⟩
      obtain ⟨f, rfl⟩ : ∃ f, fuel = f + 1 := ⟨fuel - 1, by omega⟩
      have hrec := hN f (by omega)
      rw [repeatUntil_again (hturn (g := f) hloop (by omega)), streamOk_cons, finalRet]
      rw [hd.totalOut, hd.room, hd.ret] at hrec
      rcases hrec with ⟨hsok, o, hres, hwritten⟩ | ⟨hsno, e, o, hres, he⟩
      · refine .inl ⟨⟨⟨hst', hadm⟩, hsok⟩, o, hres, ?_⟩
        rw [hwritten, hd.written, counts, List.sum_append, Nat.add_assoc]
        rfl
      · exact .inr ⟨fun h => hsno h.2, e, o, hres, he⟩
    · refine ⟨f0 + 1, fun fuel hfuel => .inr ⟨?_, e, o, ?_, he⟩⟩
      · rw [streamOk_cons]
        exact fun h => hno h.1
      · obtain ⟨f, rfl⟩ : ∃ f, fuel = f + 1 := ⟨fuel - 1, by omega⟩
        exact repeatUntil_exit (hturn (g := f) hloop (by omega))

/-! ## When the stream overload says ok -/

/-- How a turn of the inner loop can end it: an error of zlib's, a count
past the limit, a stream that does not take the output, or room to
spare. -/
theorem inflateTurn_exit_cases {p : Pump I.State} {e : Except (Err × OStream) (Pump I.State)}
    (h : inflateTurn I maxOutputSz chunk p = .exit e) :
    (∃ ret, ret ≠ .ok ∧ e = .error (.ofRet ret, p.out)) ∨
    (∃ n, maxOutputSz < n ∧ n < 2 ^ 64 ∧ e = .error (.maxOutputSzExceeded, p.out)) ∨
    (∃ o, e = .error (.writeBufferError, o)) ∨
    ∃ q, toUInt chunk ≠ 0 ∧ e = .ok q := by
  unfold inflateTurn at h
  dsimp only at h
  cases hret : (I.inflate p.state p.unread (toUInt chunk)).ret with
  | needDict | dataError | memError =>
    simp only [hret] at h
    exact .inl ⟨_, by decide, (Turn.exit.inj h).symm⟩
  | ok | bufError | streamEnd | streamError | versionError =>
    simp only [hret] at h
    split at h
    · rename_i hpast
      exact .inr (.inl ⟨_, hpast.2, Nat.mod_lt _ (Nat.two_pow_pos 64), (Turn.exit.inj h).symm⟩)
    · split at h
      · exact .inr (.inr (.inl ⟨_, (Turn.exit.inj h).symm⟩))
      · split at h
        · cases h
        · rename_i hroom
          exact .inr (.inr (.inr ⟨_, fun h0 => hroom (by rw [h0, Nat.zero_sub]),
            (Turn.exit.inj h).symm⟩))

theorem ofRet_eq_ok {ret : Ret} : Err.ofRet ret = .ok ↔ ret = .ok := by
  cases ret <;> decide

/-- How the inner loop can end: it falls through only if it has room at
all, and it returns only with something other than ok. -/
def FairExit {σ : Type} (chunk : Nat) : Except (Err × OStream) σ → Prop
  | .ok _ => toUInt chunk ≠ 0
  | .error r => r.1 ≠ .ok

theorem innerLoop_exit {fuel : Nat} {p : Pump I.State}
    {e : Except (Err × OStream) (Pump I.State)}
    (h : repeatUntil (fun _ p => some (inflateTurn I maxOutputSz chunk p)) fuel p = some e) :
    FairExit chunk e := by
  refine repeatUntil_sound (fun _ => True) (FairExit chunk) (fun _ _ _ _ _ => trivial)
    (fun _ q e' _ hexit => ?_) fuel p e trivial h
  obtain ⟨ret, hne, rfl⟩ | ⟨n, -, -, rfl⟩ | ⟨o, rfl⟩ | ⟨q', hw, rfl⟩ :=
    inflateTurn_exit_cases (Option.some.inj hexit)
  · exact fun hok => hne (ofRet_eq_ok.mp hok)
  · exact (by decide : Err.maxOutputSzExceeded ≠ .ok)
  · exact (by decide : Err.writeBufferError ≠ .ok)
  · exact hw

/-- With no room for output the function does not return ok: its first
read leaves it in the inner loop. -/
theorem readLoop_no_room (hw : toUInt chunk = 0) {inp : IStream} {rest : Bytes}
    (hholds : inp.Holds rest) (hne : rest ≠ []) (hc : 0 < chunk) (fuel : Nat) (p : Pump I.State)
    (o : OStream) : repeatUntil (readTurn I maxOutputSz chunk) fuel (inp, p) ≠ some (.ok, o) := by
  obtain ⟨hok, inp', hread, -⟩ := IStream.read_chunk chunk hholds hne
  have hpos : 0 < rest.length := List.length_pos_of_ne_nil hne
  have hgot : (rest.take chunk).length ≠ 0 := by rw [List.length_take]; omega
  intro h
  cases fuel with
  | zero => cases h
  | succ fuel =>
    unfold repeatUntil at h
    simp only [readTurn, hok, hread, hgot, Bool.not_true, Bool.false_eq_true, if_false] at h
    cases hin : repeatUntil (fun _ p => some (inflateTurn I maxOutputSz chunk p)) fuel
        { p with unread := (rest.take chunk).take (toUInt (rest.take chunk).length) } with
    | none => rw [hin] at h; cases h
    | some e =>
      have hexit := innerLoop_exit hin
      rw [hin] at h
      cases e with
      | ok p' => exact hexit hw
      | error r =>
        obtain rfl := Option.some.inj h
        exact hexit rfl

theorem finalRet_eq (F : Format) (chunk : Nat) : ∀ (ps : List Bytes) (ret : Ret) (fed i : Bytes),
    finalRet F chunk ret fed (ps ++ [i])
      = innerRet F chunk (fed ++ (ps ++ [i]).flatten) i (due F (fed ++ ps.flatten) i) := by
  intro ps
  induction ps with
  | nil => intro ret fed i; simp [finalRet]
  | cons j ps ih =>
    intro ret fed i
    rw [List.cons_append, finalRet, ih]
    simp only [List.flatten_cons, List.append_assoc]

/-- The result is ok exactly when the last answer is not `Z_BUF_ERROR`. -/
theorem ok_iff_finalRet {ret : Ret} (h : ret = .ok ∨ ret = .bufError ∨ ret = .streamEnd) :
    (if ret ≠ .streamEnd then Err.ofRet ret else .ok) = .ok ↔ ret ≠ .bufError := by
  rcases h with rfl | rfl | rfl <;> decide

theorem innerRet_cases (F : Format) (chunk : Nat) (T i : Bytes) (m : Nat) :
    innerRet F chunk T i m = .ok ∨ innerRet F chunk T i m = .bufError ∨
      innerRet F chunk T i m = .streamEnd := by
  unfold innerRet lastRet
  split
  · exact .inr (.inr rfl)
  · split
    · exact .inr (.inl rfl)
    · exact .inl rfl

variable (maxOutputSz chunk) in
/-- The stream overload on good streams is its outer loop. -/
theorem decompressStream_eq (K : InflateContract F I) {inp : IStream} {out : OStream}
    (hinp : inp.Good) (hout : out.fail = false) (fuel : Nat) :
    decompressStream I maxOutputSz chunk fuel out inp
      = if chunk > maxVector then none
        else repeatUntil (readTurn I maxOutputSz chunk) fuel
          (inp, ⟨I.init.2, [], List.replicate chunk 0, out, 0, .ok⟩) := by
  simp [decompressStream, IStream.ok, OStream.ok, hinp.fail, hout, K.init_ok]

variable (maxOutputSz) in
/-- The outer loop from the start. -/
theorem readLoop_start (K : InflateContract F I) (hc : 1 ≤ chunk) (hw : toUInt chunk ≠ 0)
    {inp : IStream} {out : OStream} (hinp : inp.Good) (hout : out.fail = false) :
    ∃ N, ∀ fuel, N ≤ fuel →
      (StreamOk F maxOutputSz chunk [] 0 out.room (pieces chunk inp.rest) ∧
        ∃ o, repeatUntil (readTurn I maxOutputSz chunk) fuel
            (inp, ⟨I.init.2, [], List.replicate chunk 0, out, 0, .ok⟩)
          = some (if finalRet F chunk .ok [] (pieces chunk inp.rest) ≠ .streamEnd then
              .ofRet (finalRet F chunk .ok [] (pieces chunk inp.rest)) else .ok, o) ∧
          o.written.length = out.written.length + (counts F chunk [] (pieces chunk inp.rest)).sum) ∨
      (¬ StreamOk F maxOutputSz chunk [] 0 out.room (pieces chunk inp.rest) ∧
        ∃ e o, repeatUntil (readTurn I maxOutputSz chunk) fuel
            (inp, ⟨I.init.2, [], List.replicate chunk 0, out, 0, .ok⟩) = some (e, o) ∧ e ≠ .ok) := by
  have hready : Pump.Ready chunk ⟨I.init.2, [], List.replicate chunk 0, out, 0, .ok⟩ :=
    ⟨by simp, hout⟩
  exact readLoop_cases maxOutputSz hc (Nat.pos_of_ne_zero hw) (.inl ⟨hinp, rfl⟩) hready
    (feeding_init K) (by rw [F.status_nil]; simp)

/-- **When the stream overload says ok**, on any non-empty input. -/
theorem decompressStream_ok_iff (K : InflateContract F I) (hc : 1 ≤ chunk) {inp : IStream}
    {out : OStream} (hinp : inp.Good) (hne : inp.rest ≠ []) (hout : out.fail = false) :
    (∃ fuel o, decompressStream I maxOutputSz chunk fuel out inp = some (.ok, o)) ↔
      chunk ≤ maxVector ∧ toUInt chunk ≠ 0 ∧
        StreamOk F maxOutputSz chunk [] 0 out.room (pieces chunk inp.rest) ∧
        finalRet F chunk .ok [] (pieces chunk inp.rest) ≠ .bufError := by
  have hrun := decompressStream_eq maxOutputSz chunk K hinp hout
  have hret : finalRet F chunk .ok [] (pieces chunk inp.rest) = .ok ∨
      finalRet F chunk .ok [] (pieces chunk inp.rest) = .bufError ∨
      finalRet F chunk .ok [] (pieces chunk inp.rest) = .streamEnd := by
    rw [pieces_cons hc hne, ← List.dropLast_append_getLast (List.cons_ne_nil _ _), finalRet_eq]
    exact innerRet_cases F chunk _ _ _
  by_cases hvec : chunk > maxVector
  · refine iff_of_false ?_ fun h => absurd h.1 (Nat.not_le_of_lt hvec)
    rintro ⟨fuel, o, h⟩
    rw [hrun, if_pos hvec] at h
    cases h
  by_cases hw : toUInt chunk = 0
  · refine iff_of_false ?_ fun h => h.2.1 hw
    rintro ⟨fuel, o, h⟩
    rw [hrun, if_neg hvec] at h
    exact readLoop_no_room hw (.inl ⟨hinp, rfl⟩) hne hc fuel _ o h
  obtain ⟨N, hN⟩ := readLoop_start maxOutputSz K hc hw hinp hout
  have hmono := repeatUntil_mono (readTurn_mono I maxOutputSz chunk)
  simp only [hrun, if_neg hvec]
  rcases hN N (Nat.le_refl _) with ⟨hok, o, hres, -⟩ | ⟨hno, e, o, hres, he⟩
  · constructor
    · rintro ⟨fuel, o', h⟩
      have heq := (Prod.mk.inj (hmono.unique h hres)).1
      exact ⟨Nat.le_of_not_lt hvec, hw, hok, (ok_iff_finalRet hret).mp heq.symm⟩
    · rintro ⟨-, -, -, hlast⟩
      rw [(ok_iff_finalRet hret).mpr hlast] at hres
      exact ⟨N, o, hres⟩
  · refine iff_of_false ?_ fun h => hno h.2.2.1
    rintro ⟨fuel, o', h⟩
    exact he (Prod.mk.inj (hmono.unique h hres)).1.symm

/-- **What an ok run has written**: all that it counted. -/
theorem decompressStream_written (K : InflateContract F I) (hc : 1 ≤ chunk) {inp : IStream}
    {out o : OStream} (hinp : inp.Good) (hne : inp.rest ≠ []) (hout : out.fail = false) {fuel : Nat}
    (h : decompressStream I maxOutputSz chunk fuel out inp = some (.ok, o)) :
    o.written.length = out.written.length + (counts F chunk [] (pieces chunk inp.rest)).sum := by
  obtain ⟨hvec, hw, -⟩ := (decompressStream_ok_iff K hc hinp hne hout).mp ⟨fuel, o, h⟩
  obtain ⟨N, hN⟩ := readLoop_start maxOutputSz K hc hw hinp hout
  have hmono := repeatUntil_mono (readTurn_mono I maxOutputSz chunk)
  rw [decompressStream_eq maxOutputSz chunk K hinp hout, if_neg (Nat.not_lt_of_le hvec)] at h
  rcases hN N (Nat.le_refl _) with ⟨-, o', hres, hwritten⟩ | ⟨-, e, o', hres, he⟩
  · obtain rfl := (Prod.mk.inj (hmono.unique h hres)).2
    exact hwritten
  · exact absurd (Prod.mk.inj (hmono.unique h hres)).1.symm he

/-- `Admits` in closed form. -/
theorem admits_iff {hs : List Nat} : ∀ {total : Nat} {room : Option Nat},
    Admits maxOutputSz total room hs ↔
      (∀ k < hs.length, ¬ (0 < maxOutputSz ∧
        maxOutputSz < (total + (hs.take (k + 1)).sum) % 2 ^ 64)) ∧
      ∀ r, room = some r → hs.sum ≤ r := by
  induction hs with
  | nil => simp [Admits]
  | cons h hs ih =>
    intro total room
    have htot : ∀ k, ((total + h) % 2 ^ 64 + (hs.take (k + 1)).sum) % 2 ^ 64
        = (total + ((h :: hs).take (k + 1 + 1)).sum) % 2 ^ 64 := by
      intro k
      rw [List.take_succ_cons, List.sum_cons]
      omega
    rw [Admits, ih, List.sum_cons]
    constructor
    · rintro ⟨hlim, hroom, hlim', hroom'⟩
      refine ⟨fun k hk => ?_, fun r hr => ?_⟩
      · cases k with
        | zero => simpa using hlim
        | succ k => rw [← htot]; exact hlim' k (by simpa using hk)
      · have h1 := hroom r hr
        have h2 := hroom' (r - h) (by rw [hr]; rfl)
        omega
    · rintro ⟨hlim, hroom⟩
      refine ⟨by simpa using hlim 0 (by simp), fun r hr => ?_, fun k hk => ?_, fun r hr => ?_⟩
      · have h1 := hroom r hr
        omega
      · rw [htot]
        exact hlim (k + 1) (by simpa using hk)
      · cases room with
        | none => cases hr
        | some r0 =>
          have h1 := hroom r0 rfl
          have h2 : r0 - h = r := Option.some.inj hr
          omega

end Outer

/-! ## Truncated input -/

/-- The buffer overload can tell the prefix `p` from a whole member:
`avail_in` says nothing of it, the limit is passed, or its output ends
exactly with a chunk. -/
def BufferSees (F : Format) (maxOutputSz : Nat) (p : Bytes) : Prop :=
  let q := p.take (toUInt p.length)
  q = [] ∨ (0 < maxOutputSz ∧ maxOutputSz < (F.dec q).length) ∨
    ((F.dec q).length ≠ 0 ∧ (F.dec q).length % chunkSize = 0)

/-- The stream overload can tell: it cannot allocate its buffers, it has
no room in them, the limit or the output stream stops it, the pieces it
offers are broken, or the last of them leaves the last call with nothing
to do. -/
def StreamSees (F : Format) (maxOutputSz chunk : Nat) (room : Option Nat) (p : Bytes) : Prop :=
  let ps := pieces chunk p
  let hs := counts F chunk [] ps
  maxVector < chunk ∨ toUInt chunk = 0 ∨
    (0 < maxOutputSz ∧ ∃ k < hs.length, maxOutputSz < (hs.take (k + 1)).sum % 2 ^ 64) ∨
    (∃ r, room = some r ∧ r < hs.sum) ∨ F.status ps.flatten = .bad ∨
    (F.status ps.flatten = .more ∧ ∃ init i, ps = init ++ [i] ∧
      due F init.flatten i % toUInt chunk = 0 ∧ (due F init.flatten i ≠ 0 ∨ i = []))

theorem ofRet_lastRet_eq_ok {w m : Nat} {i : Bytes} :
    Err.ofRet (lastRet w i m) = .ok ↔ ¬ (m % w = 0 ∧ (m ≠ 0 ∨ i = [])) := by
  rw [ofRet_eq_ok, lastRet]
  by_cases h : m % w = 0 ∧ (m ≠ 0 ∨ i = [])
  · simp [h]
  · simp [h]

/-- The buffer overload on a proper prefix of a member. -/
theorem decompress_prefix_ne_ok_iff (K : InflateContract F I) {maxOutputSz : Nat} (dst : Bytes)
    {z x p : Bytes} (hz : F.Member z x) (hp : p <+: z) (hpz : p ≠ z) (hne : p ≠ []) :
    (∀ fuel d, decompress I maxOutputSz fuel dst (some p) ≠ some (.ok, d)) ↔
      BufferSees F maxOutputSz p := by
  obtain ⟨q, hq⟩ : ∃ q, q = p.take (toUInt p.length) := ⟨_, rfl⟩
  have hqp : q <+: p := hq ▸ List.take_prefix _ _
  have hqz : q ≠ z := fun heq => hpz (hp.eq_of_length_le (heq ▸ hqp.length_le))
  have hmore := hz.more q (hqp.trans hp) hqz
  have hres := decompress_eq K maxOutputSz dst hne hq (by rw [hmore]; simp) (Nat.lt_succ_self _)
  have hcode : (bufferResult F maxOutputSz q q [] (F.dec q).length).1 = .ok ↔
      ¬ BufferSees F maxOutputSz p := by
    have hnil : q = [] → (F.dec q).length = 0 := by rintro rfl; rw [F.dec_nil]; rfl
    simp only [BufferSees, ← hq, bufferResult, hmore, reduceCtorEq, if_false, List.length_nil,
      Nat.zero_add]
    by_cases hlim : 0 < maxOutputSz ∧ maxOutputSz < (F.dec q).length
    · rw [if_pos hlim]
      exact iff_of_false (by decide) fun h => h (.inr (.inl hlim))
    · rw [if_neg hlim, ofRet_lastRet_eq_ok]
      refine not_congr ⟨?_, ?_⟩
      · rintro ⟨hmod, h0 | h0⟩
        · exact .inr (.inr ⟨h0, hmod⟩)
        · exact .inl h0
      · rintro (h0 | h0 | ⟨h0, hmod⟩)
        · exact ⟨by rw [hnil h0, Nat.zero_mod], .inr h0⟩
        · exact absurd h0 hlim
        · exact ⟨hmod, .inl h0⟩
  generalize bufferResult F maxOutputSz q q [] (F.dec q).length = res at hres hcode
  constructor
  · intro h
    by_contra hno
    refine h _ res.2 (hres.trans ?_)
    rw [← hcode.mpr hno]
  · intro hsees fuel d h
    exact hcode.mp (congrArg Prod.fst (decompress_unique hres h)) hsees

/-- The stream overload on any non-empty input. -/
theorem decompressStream_ne_ok_iff (K : InflateContract F I) {maxOutputSz chunk : Nat}
    (hc : 1 ≤ chunk) {inp : IStream} {out : OStream} (hinp : inp.Good) (hne : inp.rest ≠ [])
    (hout : out.fail = false) :
    (∀ fuel o, decompressStream I maxOutputSz chunk fuel out inp ≠ some (.ok, o)) ↔
      StreamSees F maxOutputSz chunk out.room inp.rest := by
  obtain ⟨init, i, hps⟩ : ∃ init i, pieces chunk inp.rest = init ++ [i] := by
    rw [pieces_cons hc hne]
    exact ⟨_, _, (List.dropLast_append_getLast (List.cons_ne_nil _ _)).symm⟩
  have hlast : finalRet F chunk .ok [] (pieces chunk inp.rest) = .bufError ↔
      F.status (pieces chunk inp.rest).flatten ≠ .done ∧
        due F init.flatten i % toUInt chunk = 0 ∧ (due F init.flatten i ≠ 0 ∨ i = []) := by
    rw [hps, finalRet_eq, List.nil_append, List.nil_append, innerRet, lastRet]
    by_cases hdone : F.status (init ++ [i]).flatten = .done
    · rw [if_pos hdone]
      exact iff_of_false (by simp) fun h => h.1 hdone
    · rw [if_neg hdone]
      split
      · rename_i hst
        exact iff_of_true rfl ⟨hdone, hst⟩
      · rename_i hst
        exact iff_of_false (by simp) fun h => hst h.2
  -- what is left is the negation of the four conditions for ok
  have hnot : (∀ fuel o, decompressStream I maxOutputSz chunk fuel out inp ≠ some (.ok, o)) ↔
      ¬ ∃ fuel o, decompressStream I maxOutputSz chunk fuel out inp = some (.ok, o) := by
    simp only [ne_eq, not_exists]
  rw [hnot, decompressStream_ok_iff K hc hinp hne hout, StreamOk, admits_iff]
  simp only [StreamSees, List.nil_append, Nat.zero_add]
  constructor
  · intro h
    by_contra hsees
    simp only [not_or] at hsees
    obtain ⟨hvec, hw, hlim, hroom, hbad, hmore⟩ := hsees
    refine h ⟨Nat.le_of_not_lt hvec, hw, ⟨hbad, fun k hk hk' => hlim ⟨hk'.1, k, hk, hk'.2⟩,
      fun r hr => Nat.le_of_not_lt fun hlt => hroom ⟨r, hr, hlt⟩⟩, fun hret => ?_⟩
    obtain ⟨hdone, hdue⟩ := hlast.mp hret
    exact hmore ⟨more_of_ne hdone hbad, init, i, hps, hdue⟩
  · rintro hsees ⟨hvec, hw, ⟨hbad, hlim, hroom⟩, hret⟩
    rcases hsees with h | h | ⟨h0, k, hk, h⟩ | ⟨r, hr, h⟩ | h | ⟨hmore, init', i', hps', h⟩
    · exact absurd h (Nat.not_lt_of_le hvec)
    · exact hw h
    · exact hlim k hk ⟨h0, h⟩
    · exact absurd h (Nat.not_lt_of_le (hroom r hr))
    · exact hbad h
    · obtain ⟨rfl, heq⟩ := List.append_inj' (hps.symm.trans hps') rfl
      obtain rfl := List.singleton_inj.mp heq
      exact hret (hlast.mpr ⟨by rw [hmore]; simp, h⟩)

/-- **Truncated input.** For every proper, non-empty prefix of a complete
member, every limit and every chunk size: neither overload of
`decompress` returns ok exactly when both can tell. -/
theorem truncated_not_ok_iff (K : InflateContract F I) {maxOutputSz chunk : Nat} (hc : 1 ≤ chunk)
    (dst : Bytes) {z x : Bytes} (hz : F.Member z x) {inp : IStream} {out : OStream}
    (hinp : inp.Good) (hp : inp.rest <+: z) (hpz : inp.rest ≠ z) (hne : inp.rest ≠ [])
    (hout : out.fail = false) :
    ((∀ fuel d, decompress I maxOutputSz fuel dst (some inp.rest) ≠ some (.ok, d)) ∧
      ∀ fuel o, decompressStream I maxOutputSz chunk fuel out inp ≠ some (.ok, o)) ↔
    BufferSees F maxOutputSz inp.rest ∧ StreamSees F maxOutputSz chunk out.room inp.rest :=
  and_congr (decompress_prefix_ne_ok_iff K dst hz hp hpz hne)
    (decompressStream_ne_ok_iff K hc hinp hne hout)

/-- Fifteen of the twenty-one bytes of a member: both overloads say ok. -/
theorem truncated_ok :
    sampleFormat.Member aMember [0x61] ∧ aMember.take 15 <+: aMember ∧
      aMember.take 15 ≠ aMember ∧ aMember.take 15 ≠ [] ∧
      decompress sampleInflater 0 1 [] (some (aMember.take 15)) = some (.ok, []) ∧
      decompressStream sampleInflater 0 8 3 OStream.empty (IStream.ofBytes (aMember.take 15))
        = some (.ok, ⟨[0x61], none, false⟩) :=
  ⟨sampleEnc_member [0x61], List.take_prefix _ _, by decide, by decide, by decide, by decide⟩

/-- The same bytes: neither overload can tell. -/
theorem truncated_not_ok_iff_fifteen :
    ((∀ fuel d, decompress sampleInflater 0 fuel [] (some (aMember.take 15)) ≠ some (.ok, d)) ∧
      ∀ fuel o, decompressStream sampleInflater 0 8 fuel OStream.empty
        (IStream.ofBytes (aMember.take 15)) ≠ some (.ok, o)) ↔
    BufferSees sampleFormat 0 (aMember.take 15) ∧
      StreamSees sampleFormat 0 8 none (aMember.take 15) :=
  truncated_not_ok_iff sampleInflater_contract (by decide) [] (sampleEnc_member [0x61])
    (IStream.good_ofBytes _) (List.take_prefix 15 aMember) (by decide) (by decide) rfl

end HighJump.Compress.Gzip
