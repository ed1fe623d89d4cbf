/-
HighJump.Lib.Framing — messages in a byte stream that has no boundaries
of its own.

A codec writes a message as symbols and reads the first message of a
buffer back, answering zero while that message is not complete. What a
receiver relies on is `decode_cases`: a buffer that holds the start of a
stream of messages either holds its first message whole, and the decoder
finds it, or it does not, and the decoder says so.

The last section is about the simplest of such formats: the first symbol of
a word gives its length, so a stream of words is cut in one way only.
-/
import Mathlib.Data.List.Infix

namespace HighJump.Lib

universe u v

/-- A codec for the messages it finds `Valid`. `decode` takes the present
contents of the place it writes to, and answers how much it has used and
what is there now. -/
structure Codec (α : Type u) (β : Type v) where
  Valid : β → Prop
  encode : β → List α
  decode : β → List α → Nat × β
  encode_ne_nil : ∀ m, Valid m → encode m ≠ []
  decode_nil : ∀ b, (decode b []).1 = 0
  decode_short : ∀ b m p, Valid m → p <+: encode m → p ≠ encode m → (decode b p).1 = 0
  decode_encode : ∀ b m rest, Valid m → decode b (encode m ++ rest) = ((encode m).length, m)

namespace Codec

variable {α : Type u} {β : Type v} (K : Codec α β)

/-- What is on the wire for a list of messages. -/
def stream (ms : List β) : List α := ms.flatMap K.encode

@[simp] theorem stream_nil : K.stream [] = [] := rfl

@[simp] theorem stream_cons (m : β) (ms : List β) :
    K.stream (m :: ms) = K.encode m ++ K.stream ms := rfl

theorem stream_append (ms ms' : List β) : K.stream (ms ++ ms') = K.stream ms ++ K.stream ms' :=
  List.flatMap_append

/-- The buffer holds the first of the messages `ms` completely. -/
def HoldsFirst (ms : List β) (buf : List α) : Prop :=
  ∃ m rest, ms = m :: rest ∧ K.encode m <+: buf

variable {K}

/-- **The decoder on the start of a stream.** -/
theorem decode_cases {ms : List β} {buf : List α} (hms : ∀ m ∈ ms, K.Valid m)
    (hbuf : buf <+: K.stream ms) (b : β) :
    ((K.decode b buf).1 = 0 ∧ ¬ K.HoldsFirst ms buf) ∨
      ∃ m rest buf', ms = m :: rest ∧ buf = K.encode m ++ buf' ∧ 0 < (K.encode m).length ∧
        K.decode b buf = ((K.encode m).length, m) := by
  cases ms with
  | nil =>
    rw [stream_nil, List.prefix_nil] at hbuf
    refine .inl ⟨by rw [hbuf]; exact K.decode_nil b, ?_⟩
    rintro ⟨m, rest, heq, -⟩
    cases heq
  | cons m rest =>
    have hm : K.Valid m := hms m List.mem_cons_self
    have hfirst : K.encode m <+: K.stream (m :: rest) := List.prefix_append _ _
    by_cases hwhole : K.encode m <+: buf
    · obtain ⟨buf', rfl⟩ := hwhole
      exact .inr ⟨m, rest, buf', rfl, rfl, List.length_pos_iff.mpr (K.encode_ne_nil m hm),
        K.decode_encode b m buf' hm⟩
    · have hshort : buf <+: K.encode m :=
        (List.prefix_or_prefix_of_prefix hbuf hfirst).resolve_right hwhole
      refine .inl ⟨K.decode_short b m buf hm hshort fun heq => hwhole (by rw [heq]), ?_⟩
      rintro ⟨m', rest', heq, hm'⟩
      cases heq
      exact hwhole hm'

/-- What a writer that gave up in the middle of a message leaves at the
end of its stream. -/
def Torn (K : Codec α β) (tail : List α) : Prop :=
  ∃ m, K.Valid m ∧ tail <+: K.encode m ∧ tail ≠ K.encode m

/-- The decoder on the start of a stream that may break off: it finds the
messages in front of the break and no other. -/
theorem decode_cases_torn {ms : List β} {buf tail : List α} (hms : ∀ m ∈ ms, K.Valid m)
    (htail : tail ≠ [] → K.Torn tail) (hbuf : buf <+: K.stream ms ++ tail) (b : β) :
    ((K.decode b buf).1 = 0 ∧ ¬ K.HoldsFirst ms buf) ∨
      ∃ m rest buf', ms = m :: rest ∧ buf = K.encode m ++ buf' ∧ 0 < (K.encode m).length ∧
        K.decode b buf = ((K.encode m).length, m) := by
  by_cases hnil : tail = []
  · rw [hnil, List.append_nil] at hbuf
    exact decode_cases hms hbuf b
  obtain ⟨torn, hvalid, hprefix, hne⟩ := htail hnil
  have hstream : K.stream ms ++ tail <+: K.stream (ms ++ [torn]) := by
    rw [stream_append, stream_cons, stream_nil, List.append_nil]
    exact (List.prefix_append_right_inj _).mpr hprefix
  have hall : ∀ m ∈ ms ++ [torn], K.Valid m := by
    intro m hm
    rcases List.mem_append.mp hm with hm | hm
    · exact hms m hm
    · rwa [List.mem_singleton.mp hm]
  cases ms with
  | nil =>
    -- The break itself is shorter than the message it is in.
    rcases decode_cases hall (hbuf.trans hstream) b with ⟨hzero, -⟩ | ⟨m, rest, buf', hms, hbuf', -⟩
    · exact .inl ⟨hzero, fun ⟨m, rest, heq, _⟩ => by cases heq⟩
    · obtain ⟨rfl, -⟩ := List.cons.inj hms
      refine absurd (List.IsPrefix.eq_of_length hprefix ?_) hne
      have hle := hbuf.length_le
      rw [hbuf', stream_nil, List.nil_append, List.length_append] at hle
      exact Nat.le_antisymm hprefix.length_le (Nat.le_of_add_right_le hle)
  | cons m rest =>
    rcases decode_cases hall (hbuf.trans hstream) b with ⟨hzero, hno⟩ | ⟨m', rest', buf', hms, hfound⟩
    · refine .inl ⟨hzero, fun ⟨m', rest', heq, hm'⟩ => hno ⟨m', rest' ++ [torn], ?_, hm'⟩⟩
      rw [heq, List.cons_append]
    · obtain ⟨rfl, -⟩ := List.cons.inj hms
      exact .inr ⟨_, rest, buf', rfl, hfound⟩

/-- Whether the decoder finds a message does not depend on where it would
put it. -/
theorem decode_zero_torn {ms : List β} {buf tail : List α} (hms : ∀ m ∈ ms, K.Valid m)
    (htail : tail ≠ [] → K.Torn tail) (hbuf : buf <+: K.stream ms ++ tail)
    (hno : ¬ K.HoldsFirst ms buf) (b : β) : (K.decode b buf).1 = 0 := by
  rcases decode_cases_torn hms htail hbuf b with ⟨hzero, -⟩ | ⟨m, rest, buf', rfl, rfl, -⟩
  · exact hzero
  · exact absurd ⟨m, rest, rfl, List.prefix_append _ _⟩ hno

/-- A stream that has arrived in full holds its first message, unless it
has none. -/
theorem holdsFirst_stream {ms : List β} (h : ¬ K.HoldsFirst ms (K.stream ms)) : ms = [] := by
  cases ms with
  | nil => rfl
  | cons m rest => exact absurd ⟨m, rest, rfl, List.prefix_append _ _⟩ h

end Codec

/-! ## Words that give their own length -/

section SelfDelimiting

variable {α : Type u} {len : α → Nat}

/-- A word whose first symbol gives its length. -/
def SelfDelimiting (len : α → Nat) (w : List α) : Prop := ∃ a t, w = a :: t ∧ w.length = len a

theorem SelfDelimiting.append_inj {w v r r' : List α} (hw : SelfDelimiting len w)
    (hv : SelfDelimiting len v) (h : w ++ r = v ++ r') : w = v ∧ r = r' := by
  obtain ⟨a, t, rfl, hwlen⟩ := hw
  obtain ⟨b, t', rfl, hvlen⟩ := hv
  have hab : a = b := (List.cons.inj h).1
  subst hab
  exact List.append_inj h (hwlen.trans hvlen.symm)

/-- Such words are found again in their concatenation. -/
theorem SelfDelimiting.flatten_inj : ∀ {ws vs : List (List α)},
    (∀ w ∈ ws, SelfDelimiting len w) → (∀ v ∈ vs, SelfDelimiting len v) →
      ws.flatten = vs.flatten → ws = vs
  | [], [], _, _, _ => rfl
  | [], v :: vs, _, hvs, h => by
      obtain ⟨b, t, rfl, _⟩ := hvs v (by simp)
      simp at h
  | w :: ws, [], hws, _, h => by
      obtain ⟨a, t, rfl, _⟩ := hws w (by simp)
      simp at h
  | w :: ws, v :: vs, hws, hvs, h => by
      rw [List.flatten_cons, List.flatten_cons] at h
      obtain ⟨rfl, hrest⟩ := (hws w (by simp)).append_inj (hvs v (by simp)) h
      rw [SelfDelimiting.flatten_inj (fun u hu => hws u (by simp [hu]))
        (fun u hu => hvs u (by simp [hu])) hrest]

end SelfDelimiting

end HighJump.Lib
