/-
HighJump.Lib.Digest — hash functions that take their input in pieces.

A hash function of a C library comes as a context with `Init`, `Update`
and `Final`, and as one call that does all three. What its manual says is
`Hash.Documented`: pieces add up, and the one call is the three. A loop
that reads a stream chunk by chunk and feeds each chunk to the context
therefore ends with the digest of everything the stream held
(`feed_returns`).
-/
import HighJump.Lib.Loop
import HighJump.Lib.Streams

namespace HighJump.Lib

structure Hash where
  Ctx : Type
  init : Ctx
  update : Ctx → List UInt8 → Ctx
  final : Ctx → List UInt8
  oneShot : List UInt8 → List UInt8

namespace Hash

variable (H : Hash)

/-- What `Init`, one `Update` and `Final` make of `x`. -/
def digest (x : List UInt8) : List UInt8 := H.final (H.update H.init x)

structure Documented (length : Nat) : Prop where
  update_nil : ∀ c, H.update c [] = c
  update_append : ∀ c xs ys, H.update (H.update c xs) ys = H.update c (xs ++ ys)
  oneShot : ∀ x, H.oneShot x = H.digest x
  length_final : ∀ c, (H.final c).length = length

/-- `while((sz = in.read(buf, n).gcount()) > 0) Update(ctx, buf, sz);` -/
def feedTurn (n : Nat) (x : IStream × H.Ctx) : Turn (IStream × H.Ctx) H.Ctx :=
  let (inp, buf) := x.1.read n
  if buf.length > 0 then .again (inp, H.update x.2 buf) else .exit x.2

def feed (n fuel : Nat) (inp : IStream) : Option H.Ctx :=
  repeatUntil (fun _ x => some (H.feedTurn n x)) fuel (inp, H.init)

variable {H}

theorem Documented.length_digest {length : Nat} (h : H.Documented length) (x : List UInt8) :
    (H.digest x).length = length :=
  h.length_final _

theorem feedTurn_again {n : Nat} {inp inp' : IStream} {c : H.Ctx} {buf : List UInt8}
    (hread : inp.read n = (inp', buf)) (hne : buf ≠ []) :
    H.feedTurn n (inp, c) = .again (inp', H.update c buf) := by
  simp [feedTurn, hread, List.length_pos_iff.mpr hne]

theorem feedTurn_exit {n : Nat} {inp : IStream} {c : H.Ctx} (hread : (inp.read n).2 = []) :
    H.feedTurn n (inp, c) = .exit c := by
  simp [feedTurn, hread]

/-- From any context on; the induction is on the number of bytes left. -/
theorem feed_loop {length n : Nat} (h : H.Documented length) (hn : 0 < n) (k : Nat) :
    ∀ {bs : List UInt8} {inp : IStream} (c : H.Ctx), bs.length ≤ k → inp.Holds bs →
      Returns (fun fuel => repeatUntil (fun _ x => some (H.feedTurn n x)) fuel (inp, c))
        (H.update c bs) := by
  induction k with
  | zero =>
    intro bs inp c hk hinp
    obtain rfl : bs = [] := List.eq_nil_of_length_eq_zero (Nat.le_zero.mp hk)
    rw [h.update_nil]
    exact .repeat_exit ⟨0, fun _ _ => congrArg some (feedTurn_exit (IStream.read_end hinp hn).1)⟩
  | succ k ih =>
    intro bs inp c hk hinp
    by_cases hnil : bs = []
    · exact ih c (by simp [hnil]) hinp
    · obtain ⟨-, inp', hread, hinp'⟩ := IStream.read_chunk n hinp hnil
      have hne : bs.take n ≠ [] := by
        simp [hnil, Nat.ne_of_gt hn]
      have hdrop : (bs.drop n).length ≤ k := by
        simp only [List.length_drop]
        omega
      have hrest := ih (H.update c (bs.take n)) hdrop hinp'
      rw [h.update_append, List.take_append_drop] at hrest
      exact .repeat_again ⟨0, fun _ _ => congrArg some (feedTurn_again hread hne)⟩ hrest

/-- **The pieces add up**, whatever the chunk size. -/
theorem feed_returns {length n : Nat} (h : H.Documented length) (hn : 0 < n) {bs : List UInt8}
    {inp : IStream} (hinp : inp.Holds bs) :
    Returns (fun fuel => H.feed n fuel inp) (H.update H.init bs) :=
  feed_loop h hn bs.length H.init (Nat.le_refl _) hinp

end Hash

end HighJump.Lib
