/-
HighJump.Os.SignalTheorems — where every signal goes.

A signal that reached `_handle` is in exactly one place: overwritten by the
next one, still in `_sig_last`, taken by a poll, dropped by one, or run.
And a one-shot callback leaves the table in the step that runs it, so it
cannot be run again, by whatever polls have the signal already.
-/
import HighJump.Os.Signal
import Mathlib.Data.List.Count

namespace HighJump.Os.Signal

open HighJump.Lib

structure State.Inv (s : State) : Prop where
  keys : ∀ sig, (s.oneShoot sig).isSome = (s.callbacks sig).isSome
  current : ∀ sig n, s.callbacks sig = some n →
    ∃ one, s.caught[n]? = some (sig, one) ∧ s.oneShoot sig = some one
  ran : ∀ sig n, (sig, n) ∈ s.ran → ∃ one, s.caught[n]? = some (sig, one)
  once : ∀ sig n, s.caught[n]? = some (sig, true) →
    s.ran.count (sig, n) + (if s.callbacks sig = some n then 1 else 0) ≤ 1
  notNegative : 0 ≤ s.sigLast
  accounted : ∀ sig, 0 < sig → s.arrived.count sig = (s.ran.map Prod.fst).count sig +
    s.overwritten.count sig + s.unclaimed.count sig + s.taken.count sig +
      (if s.sigLast = sig then 1 else 0)

theorem State.inv_new : State.Inv .new := by
  constructor <;> simp [State.new]
  intro sig hsig
  simp [Int.ne_of_lt hsig]

theorem count_snoc {α : Type} [BEq α] [LawfulBEq α] [DecidableEq α] (l : List α) (a b : α) :
    (l ++ [a]).count b = l.count b + (if a = b then 1 else 0) := by
  by_cases h : a = b <;> simp [h]

section Invariant

variable {s s' : State} {a : Event}

theorem State.Inv.signal (h : s.Inv) (sig : Int) (d : Disposition) : (s.signal sig d).Inv :=
  ⟨h.keys, h.current, h.ran, h.once, h.notNegative, h.accounted⟩

theorem State.Inv.sigignore (h : s.Inv) (sigs : List Int) : (s.sigignore sigs).Inv := by
  induction sigs generalizing s with
  | nil => exact h
  | cons sig sigs ih => exact ih (h.signal sig .ignore)

/-- An older `sigcatch` is not the new one. -/
theorem getElem?_snoc {caught : List (Int × Bool)} {e e' : Int × Bool} {n : Nat}
    (h : (caught ++ [e])[n]? = some e') :
    caught[n]? = some e' ∨ (n = caught.length ∧ e = e') := by
  rcases Nat.lt_trichotomy n caught.length with hlt | rfl | hgt
  · rw [List.getElem?_append_left hlt] at h
    exact .inl h
  · simp at h
    exact .inr ⟨rfl, h⟩
  · have hnone : (caught ++ [e])[n]? = none := by
      rw [List.getElem?_eq_none_iff]
      simpa using Nat.succ_le_of_lt hgt
    rw [hnone] at h
    cases h

theorem getElem?_snoc_left {caught : List (Int × Bool)} {e e' : Int × Bool} {n : Nat}
    (h : caught[n]? = some e') : (caught ++ [e])[n]? = some e' := by
  obtain ⟨hlt, -⟩ := List.getElem?_eq_some_iff.mp h
  rw [List.getElem?_append_left hlt, h]

theorem State.Inv.sigcatch (h : s.Inv) (sig : Int) (one : Bool) : (s.sigcatch sig one).Inv := by
  suffices hmid : State.Inv { s with
      callbacks := Function.update s.callbacks sig (some s.caught.length),
      oneShoot := Function.update s.oneShoot sig (some one),
      caught := s.caught ++ [(sig, one)] } from hmid.signal sig .handle
  refine ⟨fun k => ?_, fun k n hk => ?_, fun k n hk => ?_, fun k n hk => ?_, h.notNegative,
    h.accounted⟩
  · by_cases hkey : k = sig
    · simp [hkey]
    · simpa [hkey] using h.keys k
  · by_cases hkey : k = sig
    · subst hkey
      simp only [Function.update_self, Option.some.injEq] at hk
      subst hk
      exact ⟨one, by simp, by simp⟩
    · simp only [ne_eq, hkey, not_false_eq_true, Function.update_of_ne] at hk ⊢
      obtain ⟨one', hn, hone⟩ := h.current k n hk
      exact ⟨one', getElem?_snoc_left hn, hone⟩
  · obtain ⟨one', hn⟩ := h.ran k n hk
    exact ⟨one', getElem?_snoc_left hn⟩
  · rcases getElem?_snoc hk with hold | ⟨rfl, heq⟩
    · -- The new callback is another number, and stands in the old one's place.
      have hle := h.once k n hold
      by_cases hkey : k = sig
      · subst hkey
        have hne : s.caught.length ≠ n := by
          obtain ⟨hlt, -⟩ := List.getElem?_eq_some_iff.mp hold
          omega
        simp only [Function.update_self, Option.some.injEq, hne, if_false]
        omega
      · simpa [hkey] using hle
    · have hnew : (k, s.caught.length) ∉ s.ran := by
        intro hmem
        obtain ⟨one', hn⟩ := h.ran _ _ hmem
        simp at hn
      simp only [List.count_eq_zero_of_not_mem hnew]
      split <;> simp

theorem State.Inv.handle (h : s.Inv) {sig : Int} (hsig : 0 < sig) : (s.handle sig).Inv := by
  refine ⟨h.keys, h.current, h.ran, h.once, Int.le_of_lt hsig, fun k hk => ?_⟩
  have hacc := h.accounted k hk
  by_cases hlast : 0 < s.sigLast
  · by_cases hkey : sig = k <;> simp only [State.handle, count_snoc, hlast, hkey, if_true, if_false] <;>
      omega
  · have hnone : s.sigLast ≠ k := fun heq => hlast (heq ▸ hk)
    simp only [hnone, if_false] at hacc
    by_cases hkey : sig = k <;> simp only [State.handle, count_snoc, hlast, hkey, if_true, if_false] <;>
      omega

theorem State.Inv.exchange (h : s.Inv) : s.exchange.Inv := by
  unfold State.exchange
  split
  next hle =>
    refine ⟨h.keys, h.current, h.ran, h.once, Int.le_refl _, fun k hk => ?_⟩
    have hzero : s.sigLast = 0 := Int.le_antisymm hle h.notNegative
    simpa [hzero] using h.accounted k hk
  next hlt =>
    refine ⟨h.keys, h.current, h.ran, h.once, Int.le_refl _, fun k hk => ?_⟩
    have hacc := h.accounted k hk
    have hne : (0 : Int) ≠ k := Int.ne_of_lt hk
    simp only [count_snoc, hne, if_false]
    omega

theorem State.Inv.run (h : s.Inv) {sig : Int} (hsig : sig ∈ s.taken) : (s.run sig).Inv := by
  have hcount : ∀ k, (s.taken.erase sig).count k + (if sig = k then 1 else 0) = s.taken.count k := by
    intro k
    by_cases hk : sig = k
    · subst hk
      have hpos := List.count_pos_iff.mpr hsig
      simp only [List.count_erase_self, if_true]
      omega
    · simp [hk, List.count_erase_of_ne (Ne.symm hk)]
  unfold State.run
  cases hcb : s.callbacks sig with
  | none =>
    simp only [hcb]
    refine ⟨h.keys, h.current, h.ran, h.once, h.notNegative, fun k hk => ?_⟩
    have hacc := h.accounted k hk
    have hk' := hcount k
    simp only [count_snoc]
    omega
  | some cb =>
    obtain ⟨one, hcaught, hone⟩ := h.current sig cb hcb
    have hacc : ∀ k, 0 < k → s.arrived.count k = ((s.ran ++ [(sig, cb)]).map Prod.fst).count k +
        s.overwritten.count k + s.unclaimed.count k + (s.taken.erase sig).count k +
          (if s.sigLast = k then 1 else 0) := by
      intro k hk
      have hacc := h.accounted k hk
      have hk' := hcount k
      simp only [List.map_append, List.map_singleton, count_snoc]
      omega
    have hran : ∀ k n, (k, n) ∈ s.ran ++ [(sig, cb)] → ∃ one, s.caught[n]? = some (k, one) := by
      intro k n hmem
      rcases List.mem_append.mp hmem with hmem | hmem
      · exact h.ran k n hmem
      · cases List.mem_singleton.mp hmem
        exact ⟨one, hcaught⟩
    simp only [hcb, hone, Option.getD_some]
    cases one with
    | true =>
      simp only [if_true]
      refine ⟨fun k => ?_, fun k n hk => ?_, hran, fun k n hk => ?_, h.notNegative, hacc⟩
      · by_cases hkey : k = sig
        · simp [hkey]
        · simpa [hkey] using h.keys k
      · by_cases hkey : k = sig
        · simp [hkey] at hk
        · simpa [hkey] using h.current k n (by simpa [hkey] using hk)
      · have hle := h.once k n hk
        by_cases hkey : k = sig
        · subst hkey
          by_cases hn : n = cb
          · subst hn
            simp only [hcb, if_true] at hle
            simp only [count_snoc, if_true, Function.update_self, reduceCtorEq, if_false]
            omega
          · have hne : ¬ cb = n := Ne.symm hn
            simp only [count_snoc, Prod.mk.injEq, hne, and_false, if_false, Function.update_self,
              reduceCtorEq]
            omega
        · have hne : ¬ sig = k := Ne.symm hkey
          simpa [hkey, hne, count_snoc] using hle
    | false =>
      simp only [Bool.false_eq_true, if_false]
      suffices hmid : State.Inv { s with
          taken := s.taken.erase sig, ran := s.ran ++ [(sig, cb)],
          oneShoot := Function.update s.oneShoot sig (some false) } from hmid.signal sig .handle
      refine ⟨fun k => ?_, fun k n hk => ?_, hran, fun k n hk => ?_, h.notNegative, hacc⟩
      · by_cases hkey : k = sig
        · simp [hkey, hcb]
        · simpa [hkey] using h.keys k
      · obtain ⟨one, hn, hone'⟩ := h.current k n hk
        refine ⟨one, hn, ?_⟩
        by_cases hkey : k = sig
        · subst hkey
          rw [hone] at hone'
          simpa using hone'
        · simpa [hkey] using hone'
      · -- Not the callback that ran, which is no one-shot.
        have hle := h.once k n hk
        have hne : ¬ (sig, cb) = (k, n) := by
          rintro heq
          cases heq
          rw [hcaught] at hk
          cases hk
        simpa [count_snoc, hne] using hle

theorem State.Inv.step (h : s.Inv) (hs : Step s a s') : s'.Inv := by
  cases hs with
  | sigcatch => exact h.sigcatch _ _
  | sigignore => exact h.sigignore _
  | arrive hsig _ =>
    split
    · exact (h.handle hsig).signal _ _
    · exact h.handle hsig
  | exchange => exact h.exchange
  | run hmem => exact h.run hmem

end Invariant

/-- **Every signal is accounted for.** In any interleaving of signals,
polls and registrations: the arrivals of a signal are the callbacks run
for it, those overwritten by a later signal before a poll, those no
callback was there for, those a poll is at work on and the one still in
`_sig_last`. A callback is run for the signal it was registered for, a
one-shot one no more than once, and not at all while it is in the table;
the table and the one-shot flags have the same keys. -/
theorem signals_accounted {tr : List Event} {s : State} (h : lts.Run tr s) :
    (∀ sig, 0 < sig → s.arrived.count sig = (s.ran.map Prod.fst).count sig +
        s.overwritten.count sig + s.unclaimed.count sig + s.taken.count sig +
          (if s.sigLast = sig then 1 else 0)) ∧
      (∀ sig n, (sig, n) ∈ s.ran → ∃ one, s.caught[n]? = some (sig, one)) ∧
      (∀ sig n, s.caught[n]? = some (sig, true) →
        s.ran.count (sig, n) + (if s.callbacks sig = some n then 1 else 0) ≤ 1) ∧
      ∀ sig, (s.oneShoot sig).isSome = (s.callbacks sig).isSome := by
  have hinv : s.Inv := by
    refine Lts.Run.invariant (I := fun _ s => State.Inv s) ?_ ?_ h
    · rintro s rfl
      exact State.inv_new
    · intro tr s a s' _ h hs
      exact h.step hs
  exact ⟨hinv.accounted, hinv.ran, hinv.once, hinv.keys⟩

/-- Two polls have taken a signal whose callback is one-shot. -/
def twoPolls : List Event :=
  [.sigcatch 10 true, .arrive 10 false, .exchange, .arrive 10 false, .exchange, .run 10, .run 10]

theorem twoPolls_run : ∃ s, lts.Run twoPolls s ∧ s.caught[0]? = some (10, true) ∧
    s.arrived.count 10 = 2 ∧ s.unclaimed.count 10 = 1 ∧ s.overwritten = [] ∧ s.taken = [] ∧
      s.sigLast = 0 := by
  have h0 : lts.Run [] .new := .start rfl
  have h1 := h0.snoc (@Step.sigcatch _ 10 true)
  have h2 := h1.snoc (@Step.arrive _ 10 false (by decide) (by decide))
  have h3 := h2.snoc Step.exchange
  have h4 := h3.snoc (@Step.arrive _ 10 false (by decide) (by decide))
  have h5 := h4.snoc Step.exchange
  have h6 := h5.snoc (@Step.run _ 10 (by decide))
  have h7 := h6.snoc (@Step.run _ 10 (by decide))
  exact ⟨_, h7, by decide⟩

/-- The theorem on that run: one of the two finds the callback. -/
theorem signals_accounted_twoPolls : ∃ s, lts.Run twoPolls s ∧
    (s.ran.map Prod.fst).count 10 = 1 := by
  obtain ⟨s, hrun, -, harrived, hunclaimed, hover, htaken, hlast⟩ := twoPolls_run
  obtain ⟨hacc, -⟩ := signals_accounted hrun
  have h10 := hacc 10 (by decide)
  rw [harrived, hunclaimed, hover, htaken, hlast] at h10
  refine ⟨s, hrun, ?_⟩
  simp at h10
  omega

end HighJump.Os.Signal
