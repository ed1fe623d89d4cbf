/-
HighJump.Lib.Multipart — messages of several parts on a line that carries
one part at a time.

A part travels in a frame, which says whether more parts of its message
follow; the last frame of a message says no. `messages` cuts frames into
the messages they complete. `frames_append_inj` is what makes this a
format: a line of frames is cut into messages in one way, so
`prefix_of_wire` finds again the messages a reader has taken off it.

The second half is about streams that are read up to a stop mark: what is
through the first mark is a prefix (`through_prefix`), grows with the
stream (`through_mono`) and is complete once the mark is in it
(`through_append`).

A transport is known by what it hands out: `Ordered` and `Lossless` are
about entries, `Atomic` and `Whole` about messages of several parts.
-/
import Mathlib.Data.List.Infix
import Mathlib.Tactic.Common

namespace HighJump.Lib

universe u

/-! ## Frames -/

structure Frame (α : Type u) where
  part : α
  more : Bool
  deriving DecidableEq, Repr

section Frames

variable {α : Type u}

/-- The frames of a message. -/
def frames : List α → List (Frame α)
  | [] => []
  | [p] => [⟨p, false⟩]
  | p :: q :: rest => ⟨p, true⟩ :: frames (q :: rest)

/-- The frames of the first parts of a message that goes on. -/
def openFrames (ps : List α) : List (Frame α) := ps.map fun p => ⟨p, true⟩

/-- The frames of messages, one message after the other. -/
def wire (ms : List (List α)) : List (Frame α) := ms.flatMap frames

@[simp] theorem frames_nil : frames ([] : List α) = [] := rfl

@[simp] theorem frames_singleton (p : α) : frames [p] = [⟨p, false⟩] := rfl

@[simp] theorem frames_cons_cons (p q : α) (rest : List α) :
    frames (p :: q :: rest) = ⟨p, true⟩ :: frames (q :: rest) := rfl

@[simp] theorem openFrames_nil : openFrames ([] : List α) = [] := rfl

theorem openFrames_concat (ps : List α) (p : α) :
    openFrames (ps ++ [p]) = openFrames ps ++ [⟨p, true⟩] := by
  simp [openFrames]

/-- The last part closes a message. -/
theorem frames_concat (ps : List α) (p : α) :
    frames (ps ++ [p]) = openFrames ps ++ [⟨p, false⟩] := by
  induction ps with
  | nil => rfl
  | cons q rest ih =>
    cases rest with
    | nil => rfl
    | cons r rest => simpa [openFrames] using ih

@[simp] theorem wire_nil : wire ([] : List (List α)) = [] := rfl

@[simp] theorem wire_cons (m : List α) (ms : List (List α)) :
    wire (m :: ms) = frames m ++ wire ms := rfl

theorem wire_concat (ms : List (List α)) (m : List α) :
    wire (ms ++ [m]) = wire ms ++ frames m := by
  simp [wire]

theorem wire_append (ms ns : List (List α)) : wire (ms ++ ns) = wire ms ++ wire ns := by
  simp [wire]

/-- The messages that frames complete, `ps` being the parts before them. -/
def messagesFrom (ps : List α) : List (Frame α) → List (List α)
  | [] => []
  | f :: rest =>
    if f.more then messagesFrom (ps ++ [f.part]) rest
    else (ps ++ [f.part]) :: messagesFrom [] rest

/-- The messages whose last frame has come. -/
def messages (fs : List (Frame α)) : List (List α) := messagesFrom [] fs

theorem messagesFrom_frames {m : List α} (hm : m ≠ []) (ps : List α) (r : List (Frame α)) :
    messagesFrom ps (frames m ++ r) = (ps ++ m) :: messagesFrom [] r := by
  induction m generalizing ps with
  | nil => exact absurd rfl hm
  | cons p m ih =>
    cases m with
    | nil => simp [messagesFrom]
    | cons q m => simp [messagesFrom, ih]

theorem messagesFrom_openFrames (ps qs : List α) : messagesFrom ps (openFrames qs) = [] := by
  induction qs generalizing ps with
  | nil => rfl
  | cons q qs ih => simpa [openFrames, messagesFrom] using ih (ps ++ [q])

/-- What is complete is found again; an open message is not there yet. -/
theorem messages_wire {ms : List (List α)} (hms : ∀ m ∈ ms, m ≠ []) (ps : List α) :
    messages (wire ms ++ openFrames ps) = ms := by
  induction ms with
  | nil => exact messagesFrom_openFrames [] ps
  | cons m ms ih =>
    rw [messages, wire_cons, List.append_assoc, messagesFrom_frames (hms m (by simp)),
      List.nil_append, ← messages, ih fun m' h' => hms m' (by simp [h'])]

/-- **Messages are cut off a line in one way.** -/
theorem frames_append_inj {m n : List α} {r r' : List (Frame α)} (hm : m ≠ []) (hn : n ≠ [])
    (h : frames m ++ r = frames n ++ r') : m = n ∧ r = r' := by
  induction m generalizing n with
  | nil => exact absurd rfl hm
  | cons p m ih =>
    obtain ⟨q, n, rfl⟩ := List.exists_cons_of_ne_nil hn
    cases m with
    | nil =>
      cases n with
      | nil =>
        simp only [frames_singleton, List.cons_append, List.nil_append, List.cons.injEq,
          Frame.mk.injEq, and_true] at h
        exact ⟨by rw [h.1], h.2⟩
      | cons q' n => simp at h
    | cons p' m =>
      cases n with
      | nil => simp at h
      | cons q' n =>
        simp only [frames_cons_cons, List.cons_append, List.cons.injEq, Frame.mk.injEq,
          and_true] at h
        obtain ⟨hrest, hr⟩ := ih (by simp) (by simp) h.2
        exact ⟨by rw [h.1, hrest], hr⟩

/-- What was taken off a line are its first messages. -/
theorem prefix_of_wire {ms ns : List (List α)} {r : List (Frame α)} (hms : ∀ m ∈ ms, m ≠ [])
    (hns : ∀ n ∈ ns, n ≠ []) (h : wire ms ++ r = wire ns) :
    ∃ tail, ns = ms ++ tail ∧ r = wire tail := by
  induction ms generalizing ns with
  | nil => exact ⟨ns, rfl, h⟩
  | cons m ms ih =>
    have hm : m ≠ [] := hms m (by simp)
    cases ns with
    | nil =>
      obtain ⟨p, m, rfl⟩ := List.exists_cons_of_ne_nil hm
      cases m <;> simp at h
    | cons n ns =>
      rw [wire_cons, wire_cons, List.append_assoc] at h
      obtain ⟨rfl, hrest⟩ := frames_append_inj hm (hns n (by simp)) h
      obtain ⟨tail, rfl, htail⟩ :=
        ih (fun m' h' => hms m' (by simp [h'])) (fun n' h' => hns n' (by simp [h'])) hrest
      exact ⟨tail, rfl, htail⟩

theorem wire_eq_nil {ms : List (List α)} (hms : ∀ m ∈ ms, m ≠ []) (h : wire ms = []) :
    ms = [] := by
  cases ms with
  | nil => rfl
  | cons m ms =>
    obtain ⟨p, m, rfl⟩ := List.exists_cons_of_ne_nil (hms m (by simp))
    cases m <;> simp at h

end Frames

/-! ## Up to a mark -/

section Through

variable {α : Type u} {p : α → Bool} {xs ys : List α} {a : α}

/-- The entries up to the first one that is marked, and that one. -/
def through (p : α → Bool) : List α → List α
  | [] => []
  | a :: rest => if p a then [a] else a :: through p rest

theorem through_prefix (p : α → Bool) (xs : List α) : through p xs <+: xs := by
  induction xs with
  | nil => exact List.prefix_rfl
  | cons a rest ih =>
    unfold through
    split
    · exact List.prefix_append [a] rest
    · exact (List.prefix_cons_inj a).mpr ih

/-- Nothing is marked but the last entry, so a stream without a mark is
read whole. -/
theorem through_of_unmarked (h : ∀ a ∈ xs, p a = false) : through p xs = xs := by
  induction xs with
  | nil => rfl
  | cons a rest ih =>
    have ha : p a = false := h a (by simp)
    simp [through, ha, ih fun b hb => h b (by simp [hb])]

/-- The mark is met. -/
theorem through_concat (h : ∀ a ∈ xs, p a = false) (a : α) :
    through p (xs ++ [a]) = xs ++ [a] := by
  induction xs with
  | nil => by_cases ha : p a <;> simp [through, ha]
  | cons b rest ih =>
    have hb : p b = false := h b (by simp)
    simp [through, hb, ih fun c hc => h c (by simp [hc])]

/-- Nothing behind the mark is read. -/
theorem through_append (h : ∃ a ∈ xs, p a = true) (ys : List α) :
    through p (xs ++ ys) = through p xs := by
  induction xs with
  | nil => simp at h
  | cons a rest ih =>
    by_cases ha : p a
    · simp [through, ha]
    · have hrest : ∃ b ∈ rest, p b = true := by simpa [ha] using h
      simp [through, ha, ih hrest]

theorem through_mono (h : xs <+: ys) : through p xs <+: through p ys := by
  obtain ⟨tail, rfl⟩ := h
  induction xs with
  | nil => exact List.nil_prefix
  | cons a rest ih =>
    by_cases ha : p a
    · simp [through, ha]
    · simpa [through, ha] using ih

@[simp] theorem through_through (xs : List α) : through p (through p xs) = through p xs := by
  induction xs with
  | nil => rfl
  | cons a rest ih => by_cases ha : p a <;> simp [through, ha, ih]

end Through

/-! ## Transports -/

/-- What a transport may hand out next, by what it has accepted and what
it has handed out. -/
def Transport (α : Type u) := List α → List α → α → Prop

namespace Transport

variable {α : Type u}

/-- It keeps the order and makes nothing up, but may lose something. -/
def Ordered (T : Transport α) : Prop :=
  ∀ accepted handed a, T accepted handed a → (handed ++ [a]).Sublist accepted

/-- Nor does it lose anything. -/
def Lossless (T : Transport α) : Prop :=
  ∀ accepted handed a, T accepted handed a → handed ++ [a] <+: accepted

/-- The parts of a message arrive all or not at all, and together. -/
def Atomic (T : Transport (Frame α)) : Prop :=
  ∀ accepted handed f, T accepted handed f →
    ∃ ms : List (List α), ms.Sublist (messages accepted) ∧ handed ++ [f] <+: wire ms

/-- And no message is lost. -/
def Whole (T : Transport (Frame α)) : Prop :=
  ∀ accepted handed f, T accepted handed f → handed ++ [f] <+: wire (messages accepted)

end Transport

end HighJump.Lib
