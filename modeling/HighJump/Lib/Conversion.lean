/-
HighJump.Lib.Conversion — conversion of zero-terminated text between
encodings, as `mbsrtowcs` and `wcsrtombs` do it.

A `Converter` takes its units one at a time and has a state between them;
`stop` is what it does at the terminator, which may come in the middle of
a character. `convert` is the conversion of a text that is known. `call`
is that of a text in memory, which ends where the terminator is found and
not before: behind the last unit of the memory there is no result. A limit
bounds what a call puts out.
-/
import Mathlib.Data.List.Basic

namespace HighJump.Lib

universe u v w

/-- A step is `none` on a sequence that is not valid. -/
structure Converter (σ : Type u) (α : Type v) (β : Type w) where
  start : σ
  step : σ → α → Option (List β × σ)
  stop : σ → Option (List β)

/-- How a call ends: with what it has put out, with -1, or beyond the
memory. -/
inductive Converted (β : Type w) where
  | done (out : List β)
  | failed
  | overrun
  deriving DecidableEq, Repr

namespace Converter

variable {σ : Type u} {α : Type v} {β : Type w} (C : Converter σ α β)

/-- The units of a text, without its end. -/
def run : σ → List α → Option (List β × σ)
  | s, [] => some ([], s)
  | s, u :: us =>
      (C.step s u).bind fun p => (run p.2 us).map fun q => (p.1 ++ q.1, q.2)

/-- The end of a text of which the units are done. -/
def finish (p : List β × σ) : Option (List β) := (C.stop p.2).map (p.1 ++ ·)

/-- A whole text. -/
def convert (us : List α) : Option (List β) := (C.run C.start us).bind C.finish

section

variable [DecidableEq α] [OfNat α 0]

/-- What is in memory from the pointer on, with the units put out so far. -/
def call (limit : Option Nat) : List α → σ → List β → Converted β
  | [], _, out => if limit = some out.length then .done out else .overrun
  | u :: us, s, out =>
      if limit = some out.length then .done out
      else if u = 0 then
        match C.stop s with
        | none => .failed
        | some last => if limit.all fun n => (out ++ last).length ≤ n then .done (out ++ last)
            else .done out
      else
        match C.step s u with
        | none => .failed
        | some (more, s') => if limit.all fun n => (out ++ more).length ≤ n then
            call limit us s' (out ++ more) else .done out

/-- Some text at the start of the memory is not valid: in its units, or
where the terminator is. -/
def Rejects (memory : List α) : Prop :=
  ∃ us, 0 ∉ us ∧ (us <+: memory ∧ C.run C.start us = none ∨
    us ++ [0] <+: memory ∧ C.convert us = none)

/-- What a stateless encoding promises: an empty text is converted to an
empty one, and a longer text to a longer one. -/
structure Grows : Prop where
  convert_nil : C.convert [] = some []
  longer : ∀ us more out out', more ≠ [] → 0 ∉ us ++ more → C.convert us = some out →
    C.convert (us ++ more) = some out' → out.length < out'.length

end

/-! ## Texts -/

variable {C}

theorem run_append (us more : List α) : ∀ s, C.run s (us ++ more) =
    (C.run s us).bind fun p => (C.run p.2 more).map fun q => (p.1 ++ q.1, q.2) := by
  induction us with
  | nil =>
    intro s
    cases h : C.run s more <;> simp [run, h]
  | cons u us ih =>
    intro s
    rw [List.cons_append, run, run]
    cases C.step s u with
    | none => rfl
    | some p =>
      rw [Option.bind_some, Option.bind_some, ih]
      cases C.run p.2 us with
      | none => rfl
      | some q =>
        rw [Option.bind_some, Option.map_some, Option.bind_some]
        cases C.run q.2 more with
        | none => rfl
        | some r => simp [List.append_assoc]

/-- What is not valid stays so, whatever follows. -/
theorem run_none_append {us : List α} (more : List α) (h : C.run C.start us = none) :
    C.run C.start (us ++ more) = none := by
  rw [run_append, h]
  rfl

/-! ## What is rejected -/

variable [OfNat α 0]

/-- A start of the memory without a terminator is a start of its text. -/
theorem prefix_text {us text rest : List α} (hus : 0 ∉ us) (h : us <+: text ++ 0 :: rest) :
    us <+: text := by
  rcases List.prefix_or_prefix_of_prefix h (List.prefix_append text (0 :: rest)) with h' | h'
  · exact h'
  · obtain ⟨tail, rfl⟩ := h'
    obtain ⟨rest', hrest⟩ := h
    rw [List.append_assoc, List.append_cancel_left_eq] at hrest
    cases tail with
    | nil => exact ⟨[], by rw [List.append_nil, List.append_nil]⟩
    | cons t tail =>
      obtain rfl : t = 0 := (List.cons.inj hrest).1
      exact absurd (List.mem_append_right _ (List.mem_cons_self ..)) hus

theorem rejects_text_iff {text : List α} (rest : List α) (htext : 0 ∉ text) :
    C.Rejects (text ++ 0 :: rest) ↔ C.convert text = none := by
  constructor
  · rintro ⟨us, hus, ⟨hpre, hrun⟩ | ⟨⟨tail, htail⟩, hconv⟩⟩
    · obtain ⟨more, rfl⟩ := prefix_text hus hpre
      rw [convert, run_none_append more hrun]
      rfl
    · -- both end at the first terminator
      rw [List.append_assoc] at htail
      have hle : us <+: text := prefix_text hus ⟨[0] ++ tail, htail⟩
      have hge : text <+: us := prefix_text htext ⟨0 :: rest, htail.symm⟩
      rwa [hge.eq_of_length_le hle.length_le]
  · intro h
    exact ⟨text, htext, Or.inr ⟨⟨rest, by rw [List.append_assoc]; rfl⟩, h⟩⟩

theorem rejects_overrun_iff {memory : List α} (hzero : 0 ∉ memory) :
    C.Rejects memory ↔ C.run C.start memory = none := by
  constructor
  · rintro ⟨us, -, ⟨⟨more, rfl⟩, hrun⟩ | ⟨⟨more, hmore⟩, -⟩⟩
    · exact run_none_append more hrun
    · refine absurd ?_ hzero
      rw [← hmore]
      exact List.mem_append_left _ (List.mem_append_right _ (List.mem_singleton.mpr rfl))
  · intro h
    exact ⟨memory, hzero, Or.inl ⟨List.prefix_refl _, h⟩⟩

/-! ## Calls without a limit -/

variable [DecidableEq α]

theorem call_zero (us : List α) (s : σ) (out : List β) : C.call none (0 :: us) s out =
    match C.stop s with
    | none => .failed
    | some last => .done (out ++ last) := by
  rw [call, if_neg nofun, if_pos rfl]
  cases C.stop s <;> rfl

theorem call_cons {u : α} (hu : u ≠ 0) (us : List α) (s : σ) (out : List β) :
    C.call none (u :: us) s out =
      match C.step s u with
      | none => .failed
      | some p => C.call none us p.2 (out ++ p.1) := by
  rw [call, if_neg nofun, if_neg hu]
  cases C.step s u <;> rfl

/-- A text with its terminator. -/
theorem call_text (rest : List α) : ∀ (us : List α) (s : σ) (out : List β), 0 ∉ us →
    C.call none (us ++ 0 :: rest) s out =
      match (C.run s us).bind C.finish with
      | none => .failed
      | some more => .done (out ++ more)
  | [], s, out, _ => by
      rw [List.nil_append, call_zero, run, Option.bind_some, finish]
      cases C.stop s <;> rfl
  | u :: us, s, out, hzero => by
      obtain ⟨hu, hus⟩ := not_or.mp fun h => hzero (List.mem_cons.mpr h)
      rw [List.cons_append, call_cons (Ne.symm hu), run]
      cases C.step s u with
      | none => rfl
      | some p =>
        simp only [call_text rest us p.2 (out ++ p.1) hus, Option.bind_some]
        cases C.run p.2 us with
        | none => rfl
        | some q =>
          simp only [Option.bind_some, Option.map_some, finish]
          cases C.stop q.2 with
          | none => rfl
          | some last => simp only [Option.map_some, List.append_assoc]

/-- Memory without a terminator. -/
theorem call_overrun : ∀ (us : List α) (s : σ) (out : List β), 0 ∉ us →
    C.call none us s out =
      match C.run s us with
      | none => .failed
      | some _ => .overrun
  | [], s, out, _ => rfl
  | u :: us, s, out, hzero => by
      obtain ⟨hu, hus⟩ := not_or.mp fun h => hzero (List.mem_cons.mpr h)
      rw [call_cons (Ne.symm hu), run]
      cases C.step s u with
      | none => rfl
      | some p =>
        simp only [call_overrun us p.2 (out ++ p.1) hus, Option.bind_some]
        cases C.run p.2 us <;> rfl

/-- Either there is a terminator or there is none. -/
theorem text_or_not (memory : List α) :
    (∃ us rest, memory = us ++ 0 :: rest ∧ 0 ∉ us) ∨ 0 ∉ memory := by
  by_cases h : 0 ∈ memory
  · obtain ⟨us, rest, heq, hus⟩ := List.eq_append_cons_of_mem h
    exact Or.inl ⟨us, rest, heq, hus⟩
  · exact Or.inr h

theorem call_start (us rest : List α) (hzero : 0 ∉ us) :
    C.call none (us ++ 0 :: rest) C.start [] =
      match C.convert us with
      | none => .failed
      | some out => .done out := by
  rw [call_text rest us C.start [] hzero]
  rfl

/-- A call fails exactly on what is rejected. -/
theorem call_failed_iff {memory : List α} :
    C.call none memory C.start [] = .failed ↔ C.Rejects memory := by
  rcases text_or_not memory with ⟨text, rest, rfl, htext⟩ | hzero
  · rw [rejects_text_iff rest htext, call_start text rest htext]
    cases C.convert text <;> simp
  · rw [rejects_overrun_iff hzero, call_overrun memory C.start [] hzero]
    cases C.run C.start memory <;> simp

/-! ## Calls with a limit -/

/-- A call that gets through stops here, or takes a unit and goes on. -/
theorem call_done_cases {u : α} {us : List α} {s : σ} {out all : List β}
    (h : C.call none (u :: us) s out = .done all) :
    (u = 0 ∧ ∃ last, C.stop s = some last ∧ out ++ last = all) ∨
      (u ≠ 0 ∧ ∃ p, C.step s u = some p ∧ C.call none us p.2 (out ++ p.1) = .done all) := by
  by_cases hu : u = 0
  · subst hu
    rw [call_zero] at h
    cases hstop : C.stop s with
    | none =>
      rw [hstop] at h
      cases h
    | some last =>
      rw [hstop] at h
      exact Or.inl ⟨rfl, last, rfl, Converted.done.inj h⟩
  · rw [call_cons hu] at h
    cases hstep : C.step s u with
    | none =>
      rw [hstep] at h
      cases h
    | some p =>
      rw [hstep] at h
      exact Or.inr ⟨hu, p, rfl, h⟩

/-- A call adds to what was put out before. -/
theorem prefix_of_done : ∀ (us : List α) (s : σ) (out all : List β),
    C.call none us s out = .done all → out <+: all
  | [], s, out, all, h => by cases h
  | u :: us, s, out, all, h => by
      rcases call_done_cases h with ⟨-, last, -, rfl⟩ | ⟨-, p, -, h⟩
      · exact List.prefix_append out last
      · exact (List.prefix_append out p.1).trans (prefix_of_done us p.2 (out ++ p.1) all h)

/-- With as much room as it needs, a call ends as it does without a limit. -/
theorem call_limit : ∀ (us : List α) (s : σ) (out all : List β),
    C.call none us s out = .done all → C.call (some all.length) us s out = .done all
  | [], s, out, all, h => by cases h
  | u :: us, s, out, all, h => by
      have hpre := prefix_of_done (u :: us) s out all h
      by_cases hfull : all.length = out.length
      · rw [call, if_pos (congrArg some hfull), hpre.eq_of_length hfull.symm]
      · have hroom : ∀ more : List β, out ++ more <+: all →
            ((some all.length).all fun n => (out ++ more).length ≤ n) = true := by
          intro more hmore
          rw [Option.all_some, decide_eq_true_iff]
          exact hmore.length_le
        rw [call, if_neg fun heq => hfull (Option.some.inj heq)]
        rcases call_done_cases h with ⟨hu, last, hstop, hlast⟩ | ⟨hu, p, hstep, h⟩
        · rw [if_pos hu, hstop]
          exact (if_pos (hroom last (hlast ▸ List.prefix_refl _))).trans (congrArg _ hlast)
        · rw [if_neg hu, hstep]
          have hmore := prefix_of_done us p.2 (out ++ p.1) all h
          simp only [hroom p.1 hmore, if_true]
          exact call_limit us p.2 (out ++ p.1) all h

end Converter

/-! ## One unit for each -/

/-- The encodings in which every unit is a character. -/
def Converter.single {α : Type v} {β : Type w} (f : α → Option β) : Converter Unit α β where
  start := ()
  step _ u := (f u).map fun c => ([c], ())
  stop _ := some []

namespace Converter

variable {α : Type v} {β : Type w} {f : α → Option β}

theorem single_run_length : ∀ (us : List α) (p : List β × Unit),
    (single f).run () us = some p → p.1.length = us.length
  | [], _, h => by
      obtain rfl := Option.some.inj h
      rfl
  | u :: us, p, h => by
      rw [run] at h
      obtain ⟨q, hq, h⟩ := Option.bind_eq_some_iff.mp h
      obtain ⟨c, -, rfl⟩ := Option.map_eq_some_iff.mp hq
      obtain ⟨r, hr, rfl⟩ := Option.map_eq_some_iff.mp h
      rw [List.singleton_append, List.length_cons, List.length_cons, single_run_length us r hr]

theorem single_convert_length {us : List α} {out : List β}
    (h : (single f).convert us = some out) : out.length = us.length := by
  obtain ⟨p, hp, hfinish⟩ := Option.bind_eq_some_iff.mp h
  obtain ⟨last, hlast, rfl⟩ := Option.map_eq_some_iff.mp hfinish
  obtain rfl := Option.some.inj hlast
  rw [List.append_nil, single_run_length us p hp]

theorem single_grows [DecidableEq α] [OfNat α 0] (f : α → Option β) : (single f).Grows where
  convert_nil := rfl
  longer us more out out' hne _ h h' := by
    rw [single_convert_length h, single_convert_length h', List.length_append]
    exact Nat.lt_add_of_pos_right (List.length_pos_iff.mpr hne)

end Converter

end HighJump.Lib
