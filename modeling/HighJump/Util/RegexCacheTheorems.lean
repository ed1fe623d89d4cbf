/-
HighJump.Util.RegexCacheTheorems — which regex a thread finds behind the
reference `get_regex` gave it.

The cache itself is in order in every interleaving: one entry for a
pattern, compiled from it. What may change under a thread is where its
reference leads. A call that finds its pattern moves nothing; one that
does not may erase an element, and with it move all behind it, or take
the vector to another block. `run_uses` says that threads find their own
regexes as long as no call does that to a position somebody still holds,
and that any call that does breaks a reference.

`calls_keep_books` is about the calls alone. Room is made before the
pattern is compiled, so a pattern that does not compile costs a full
cache one of its entries.
-/
import HighJump.Util.RegexCache
import Mathlib.Data.List.Induction
import Mathlib.Data.List.Nodup

namespace HighJump.Util.RegexCache

open HighJump.Lib

variable {P R : Type} [DecidableEq P]

/-! ## One call -/

/-- **What `get_regex` can do.** -/
theorem Cache.getRegex_cases (compile : P → Option R) (grown : Nat) (p : P) (c : Cache P R) :
    (∃ k e, c.entries[k]? = some e ∧ e.pattern = p ∧ c.getRegex compile grown p =
      ({ c with entries := c.entries.modify k fun e =>
          { e with accessCount := e.accessCount + 1 } }, some ⟨c.block, k⟩)) ∨
    ((∀ e ∈ c.entries, e.pattern ≠ p) ∧ compile p = none ∧
      c.getRegex compile grown p = (c.makeRoom, none)) ∨
    ((∀ e ∈ c.entries, e.pattern ≠ p) ∧ ∃ x, compile p = some x ∧ c.getRegex compile grown p =
      (c.makeRoom.emplaceBack grown ⟨p, x, 1⟩,
        some ⟨(c.makeRoom.emplaceBack grown ⟨p, x, 1⟩).block, c.makeRoom.entries.length⟩)) := by
  cases hfind : c.entries.findIdx? fun e => decide (e.pattern = p) with
  | some k =>
    obtain ⟨hlt, hp, -⟩ := List.findIdx?_eq_some_iff_getElem.mp hfind
    refine .inl ⟨k, c.entries[k], List.getElem?_eq_getElem hlt, of_decide_eq_true hp, ?_⟩
    rw [getRegex, hfind]
  | none =>
    have hnone : ∀ e ∈ c.entries, e.pattern ≠ p := fun e he =>
      of_decide_eq_false (List.findIdx?_eq_none_iff.mp hfind e he)
    refine .inr ?_
    cases hc : compile p with
    | none => exact .inl ⟨hnone, rfl, by rw [getRegex, hfind]; simp only [hc]⟩
    | some x =>
      refine .inr ⟨hnone, x, rfl, ?_⟩
      rw [getRegex, hfind]
      simp only [hc]
      have hlen : (c.makeRoom.emplaceBack grown ⟨p, x, 1⟩).entries.length - 1 =
          c.makeRoom.entries.length := by
        rw [emplaceBack]
        split <;> simp
      rw [hlen]

/-- The cache is in order: one entry for a pattern, compiled from it. -/
structure Cache.Ok (compile : P → Option R) (c : Cache P R) : Prop where
  nodup : (c.entries.map CacheEntry.pattern).Nodup
  compiled : ∀ e ∈ c.entries, compile e.pattern = some e.compiled

/-- Behind the reference lies the entry of the pattern. -/
def Cache.Holds (c : Cache P R) (p : P) (r : Ref) : Prop :=
  ∃ e, c.deref r = some e ∧ e.pattern = p

variable {compile : P → Option R} {c : Cache P R} {p q : P} {r : Ref}

omit [DecidableEq P] in
theorem Cache.holds_iff : c.Holds p r ↔
    r.block = c.block ∧ ∃ e, c.entries[r.index]? = some e ∧ e.pattern = p := by
  rw [Holds, deref]
  by_cases hb : r.block = c.block
  · simp [hb]
  · simp [hb]

omit [DecidableEq P] in
/-- Two positions do not hold the same pattern. -/
theorem Cache.Ok.index_unique (hc : c.Ok compile) {i j : Nat} {e e' : CacheEntry P R}
    (hi : c.entries[i]? = some e) (hj : c.entries[j]? = some e') (h : e.pattern = e'.pattern) :
    i = j := by
  obtain ⟨hilt, rfl⟩ := List.getElem?_eq_some_iff.mp hi
  obtain ⟨hjlt, rfl⟩ := List.getElem?_eq_some_iff.mp hj
  have hlen : (c.entries.map CacheEntry.pattern).length = c.entries.length := List.length_map _
  have hmap : (c.entries.map CacheEntry.pattern)[i] = (c.entries.map CacheEntry.pattern)[j] := by
    simpa using h
  exact (List.Nodup.getElem_inj_iff hc.nodup).mp hmap

/-! A call that finds its pattern. -/

section Hit

variable {k : Nat} {f : CacheEntry P R → CacheEntry P R} (hf : ∀ e, (f e).pattern = e.pattern)

include hf

omit [DecidableEq P] in
theorem map_pattern_modify (es : List (CacheEntry P R)) :
    (es.modify k f).map CacheEntry.pattern = es.map CacheEntry.pattern := by
  refine List.ext_getElem? fun i => ?_
  rw [List.getElem?_map, List.getElem?_map, List.getElem?_modify, Option.map_eq_map, Option.map_map]
  refine congrArg (fun g => Option.map g es[i]?) (funext fun e => ?_)
  by_cases hk : k = i
  · simp [hk, hf]
  · simp [hk]

omit [DecidableEq P] in
theorem Cache.Ok.modify (hc : c.Ok compile) (hcomp : ∀ e, (f e).compiled = e.compiled) :
    ({ c with entries := c.entries.modify k f } : Cache P R).Ok compile := by
  refine ⟨by rw [map_pattern_modify hf]; exact hc.nodup, fun e he => ?_⟩
  obtain ⟨i, hi⟩ := List.mem_iff_getElem?.mp he
  rw [List.getElem?_modify, Option.map_eq_map, Option.map_eq_some_iff] at hi
  obtain ⟨e', he', rfl⟩ := hi
  have h := hc.compiled e' (List.mem_of_getElem? he')
  split
  · rwa [hf, hcomp]
  · exact h

omit [DecidableEq P] in
theorem Cache.Holds.modify (h : c.Holds p r) :
    ({ c with entries := c.entries.modify k f } : Cache P R).Holds p r := by
  rw [holds_iff] at h ⊢
  obtain ⟨hb, e, he, hp⟩ := h
  refine ⟨hb, _, by rw [List.getElem?_modify, he]; rfl, ?_⟩
  split
  · rwa [hf]
  · exact hp

end Hit

/-! A call that does not: room is made, and the new entry comes last. -/

omit [DecidableEq P] in
theorem Cache.makeRoom_block (c : Cache P R) :
    c.makeRoom.block = c.block ∧ c.makeRoom.capacity = c.capacity := by
  unfold makeRoom
  split <;> exact ⟨rfl, rfl⟩

omit [DecidableEq P] in
theorem Cache.makeRoom_sublist (c : Cache P R) : c.makeRoom.entries.Sublist c.entries := by
  unfold makeRoom
  split
  · exact List.eraseIdx_sublist _ _
  · exact List.Sublist.refl _

omit [DecidableEq P] in
theorem Cache.Ok.makeRoom (hc : c.Ok compile) : c.makeRoom.Ok compile :=
  ⟨hc.nodup.sublist (c.makeRoom_sublist.map _),
    fun e he => hc.compiled e (c.makeRoom_sublist.subset he)⟩

omit [DecidableEq P] in
/-- What stands before the element erased stays where it is. -/
theorem Cache.Holds.makeRoom (h : c.Holds p r)
    (hr : maxCacheSize ≤ c.entries.length → r.index < minElement c.entries) :
    c.makeRoom.Holds p r := by
  by_cases hfull : maxCacheSize ≤ c.entries.length
  · rw [holds_iff] at h ⊢
    rw [Cache.makeRoom, if_pos hfull]
    obtain ⟨hb, e, he, hp⟩ := h
    exact ⟨hb, e, by rw [List.getElem?_eraseIdx_of_lt (hr hfull), he], hp⟩
  · rwa [Cache.makeRoom, if_neg hfull]

omit [DecidableEq P] in
theorem Cache.emplaceBack_entries (c : Cache P R) (grown : Nat) (e : CacheEntry P R) :
    (c.emplaceBack grown e).entries = c.entries ++ [e] := by
  unfold emplaceBack
  split <;> rfl

omit [DecidableEq P] in
theorem Cache.Ok.emplaceBack (hc : c.Ok compile) {grown : Nat} {e : CacheEntry P R}
    (hnew : ∀ e' ∈ c.entries, e'.pattern ≠ e.pattern) (he : compile e.pattern = some e.compiled) :
    (c.emplaceBack grown e).Ok compile := by
  refine ⟨?_, fun e' he' => ?_⟩
  · rw [emplaceBack_entries, List.map_append, List.map_singleton, List.nodup_append]
    refine ⟨hc.nodup, List.nodup_singleton _, fun a ha b hb => ?_⟩
    obtain ⟨e', he', rfl⟩ := List.mem_map.mp ha
    rw [List.mem_singleton.mp hb]
    exact hnew e' he'
  · rw [emplaceBack_entries] at he'
    rcases List.mem_append.mp he' with he' | he'
    · exact hc.compiled e' he'
    · rw [List.mem_singleton.mp he', he]

omit [DecidableEq P] in
/-- Where there is room, every element stays where it is. -/
theorem Cache.Holds.emplaceBack (h : c.Holds p r) {grown : Nat} {e : CacheEntry P R}
    (hroom : c.entries.length < c.capacity) : (c.emplaceBack grown e).Holds p r := by
  rw [holds_iff] at h ⊢
  obtain ⟨hb, e', he', hp⟩ := h
  have hlt := (List.getElem?_eq_some_iff.mp he').1
  rw [Cache.emplaceBack, if_pos hroom]
  exact ⟨hb, e', by rw [List.getElem?_append_left hlt, he'], hp⟩

omit [DecidableEq P] in
theorem Cache.emplaceBack_holds (c : Cache P R) (grown : Nat) (e : CacheEntry P R) :
    (c.emplaceBack grown e).Holds e.pattern
      ⟨(c.emplaceBack grown e).block, c.entries.length⟩ := by
  rw [holds_iff]
  exact ⟨rfl, e, by rw [emplaceBack_entries]; simp, rfl⟩

/-! And back: a reference that still leads to its entry was not
touched. -/

omit [DecidableEq P] in
theorem Cache.Holds.of_makeRoom (hc : c.Ok compile) (h : c.Holds p r) (h' : c.makeRoom.Holds p r)
    (hfull : maxCacheSize ≤ c.entries.length) : r.index < minElement c.entries := by
  obtain ⟨-, e, he, hp⟩ := holds_iff.mp h
  obtain ⟨-, e', he', hp'⟩ := holds_iff.mp h'
  rw [Cache.makeRoom, if_pos hfull] at he'
  by_contra hge
  -- past the element erased, a position holds what stood one further
  rw [List.getElem?_eraseIdx_of_ge (Nat.le_of_not_lt hge)] at he'
  have := hc.index_unique he' he (hp'.trans hp.symm)
  omega

omit [DecidableEq P] in
theorem Cache.Holds.of_emplaceBack {grown : Nat} {e : CacheEntry P R}
    (h : (c.emplaceBack grown e).Holds p r) (hb : r.block = c.block) (hne : e.pattern ≠ p) :
    c.entries.length < c.capacity ∧ c.Holds p r := by
  obtain ⟨hb', e', he', hp⟩ := holds_iff.mp h
  have hroom : c.entries.length < c.capacity := by
    by_contra hfull
    rw [Cache.emplaceBack, if_neg hfull] at hb'
    simp only at hb'
    omega
  refine ⟨hroom, holds_iff.mpr ⟨hb, e', ?_, hp⟩⟩
  rw [emplaceBack_entries] at he'
  by_cases hlt : r.index < c.entries.length
  · rwa [List.getElem?_append_left hlt] at he'
  · obtain ⟨hlt', rfl⟩ := List.getElem?_eq_some_iff.mp he'
    rw [List.getElem_append_right (Nat.le_of_not_lt hlt)] at hp
    exact absurd (by simpa using hp) hne

/-! ## Calls one after the other

The lock puts the calls in an order. The cache stays in order through
all of them; a call that throws has made room before it compiled. -/

section Room

omit [DecidableEq P]

/-- What holds of the cache between two calls. -/
structure Cache.Kept (compile : P → Option R) (c : Cache P R) : Prop extends c.Ok compile where
  bounded : c.entries.length ≤ maxCacheSize

/-- Some element has been asked for least often. -/
theorem minElement_lt {es : List (CacheEntry P R)} (h : es ≠ []) :
    minElement es < es.length := by
  refine List.findIdx_lt_length_of_exists ?_
  induction es with
  | nil => exact absurd rfl h
  | cons e es ih =>
    by_cases hes : es = []
    · exact ⟨e, List.mem_cons_self, by simp [hes]⟩
    obtain ⟨m, hm, hle⟩ := ih hes
    rw [List.all_eq_true] at hle
    rcases UInt64.le_total e.accessCount m.accessCount with hem | hme
    · refine ⟨e, List.mem_cons_self, List.all_eq_true.mpr fun x hx => decide_eq_true ?_⟩
      rcases List.mem_cons.mp hx with rfl | hx
      · exact UInt64.le_refl _
      · exact UInt64.le_trans hem (of_decide_eq_true (hle x hx))
    · refine ⟨m, List.mem_cons_of_mem _ hm, List.all_eq_true.mpr fun x hx => decide_eq_true ?_⟩
      rcases List.mem_cons.mp hx with rfl | hx
      · exact hme
      · exact of_decide_eq_true (hle x hx)

theorem Cache.ne_nil_of_full (h : maxCacheSize ≤ c.entries.length) : c.entries ≠ [] :=
  List.ne_nil_of_length_pos (Nat.lt_of_lt_of_le (by decide) h)

theorem Cache.makeRoom_length (h : c.entries.length ≤ maxCacheSize) :
    c.makeRoom.entries.length < maxCacheSize := by
  rw [makeRoom]
  split
  · rename_i hfull
    have hpos : 0 < maxCacheSize := by decide
    have hne := ne_nil_of_full hfull
    have hlt := minElement_lt hne
    simp only [List.length_eraseIdx_of_lt hlt]
    omega
  · rename_i hroom
    exact Nat.lt_of_not_le hroom

/-- Making room leaves a cache alone exactly if there is some. -/
theorem Cache.makeRoom_eq_iff : c.makeRoom = c ↔ c.entries.length < maxCacheSize := by
  rw [makeRoom]
  split
  · rename_i hfull
    refine ⟨fun heq => ?_, fun h => absurd h (Nat.not_lt.mpr hfull)⟩
    have hne := ne_nil_of_full hfull
    have hlen := congrArg (fun c : Cache P R => c.entries.length) heq
    simp only [List.length_eraseIdx_of_lt (minElement_lt hne)] at hlen
    have := List.length_pos_iff.mpr hne
    omega
  · rename_i hroom
    exact ⟨fun _ => Nat.lt_of_not_le hroom, fun _ => rfl⟩

end Room

section Calls

/-- **One call.** -/
theorem Cache.Kept.call (hc : c.Kept compile) (k : Call P) : (c.call compile k).Kept compile := by
  cases k with
  | clear => exact ⟨⟨List.nodup_nil, nofun⟩, Nat.zero_le _⟩
  | getRegex p grown =>
    rcases c.getRegex_cases compile grown p with
      ⟨k, e, he, hep, hget⟩ | ⟨hnone, hx, hget⟩ | ⟨hnone, x, hx, hget⟩ <;> rw [Cache.call, hget]
    · refine ⟨hc.toOk.modify (fun _ => rfl) fun _ => rfl, ?_⟩
      simpa using hc.bounded
    · exact ⟨hc.toOk.makeRoom, Nat.le_of_lt (makeRoom_length hc.bounded)⟩
    · have hnew : ∀ e ∈ c.makeRoom.entries, e.pattern ≠ p := fun e he =>
        hnone e (c.makeRoom_sublist.subset he)
      refine ⟨hc.toOk.makeRoom.emplaceBack hnew hx, ?_⟩
      rw [emplaceBack_entries, List.length_append]
      exact makeRoom_length hc.bounded

/-- What a call returns is the regex of the pattern it was given. -/
theorem Cache.Ok.getRegex_finds (hc : c.Ok compile) {grown : Nat}
    (h : (c.getRegex compile grown p).2 = some r) :
    ∃ e, (c.getRegex compile grown p).1.deref r = some e ∧ e.pattern = p ∧
      compile p = some e.compiled := by
  rcases c.getRegex_cases compile grown p with
    ⟨k, e, he, hep, hget⟩ | ⟨hnone, hx, hget⟩ | ⟨hnone, x, hx, hget⟩ <;> rw [hget] at h ⊢
  · obtain rfl := Option.some.inj h
    refine ⟨{ e with accessCount := e.accessCount + 1 }, ?_, hep, ?_⟩
    · simp [deref, he]
    · rw [← hep]
      exact hc.compiled e (List.mem_of_getElem? he)
  · cases h
  · obtain rfl := Option.some.inj h
    exact ⟨⟨p, x, 1⟩, by simp [deref, emplaceBack_entries], rfl, hx⟩

/-- A call throws if its pattern is neither cached nor one that
compiles, and room has been made by then. -/
theorem Cache.getRegex_throws {grown : Nat} (h : (c.getRegex compile grown p).2 = none) :
    (c.getRegex compile grown p).1 = c.makeRoom := by
  rcases c.getRegex_cases compile grown p with
    ⟨k, e, he, hep, hget⟩ | ⟨hnone, hx, hget⟩ | ⟨hnone, x, hx, hget⟩ <;> rw [hget] at h ⊢
  · cases h
  · cases h

/-- **The books of the cache** are in order in every run of calls, and a
call that throws leaves the cache as it was exactly if there was room in
it. -/
theorem calls_keep_books (compile : P → Option R) {ks : List (Call P)} {c : Cache P R}
    (h : (calls compile).Run ks c) :
    c.entries.length ≤ maxCacheSize ∧ (c.entries.map CacheEntry.pattern).Nodup ∧
      (∀ e ∈ c.entries, compile e.pattern = some e.compiled) ∧
      ∀ p grown,
        (∀ r, (c.getRegex compile grown p).2 = some r →
          ∃ e, (c.getRegex compile grown p).1.deref r = some e ∧ e.pattern = p ∧
            compile p = some e.compiled) ∧
        ((c.getRegex compile grown p).2 = none →
          (c.call compile (.getRegex p grown) = c ↔ c.entries.length < maxCacheSize)) := by
  have hkept : c.Kept compile := by
    refine Lts.Run.invariant (I := fun _ c => Cache.Kept compile c)
      (fun c hc => ?_) (fun _ c k c' _ hi hstep => ?_) h
    · have hempty : c.entries = [] := hc
      exact ⟨⟨by rw [hempty]; exact List.nodup_nil, by rw [hempty]; nofun⟩,
        by rw [hempty]; exact Nat.zero_le _⟩
    · obtain rfl : c' = c.call compile k := hstep
      exact hi.call k
  refine ⟨hkept.bounded, hkept.nodup, hkept.compiled, fun p grown =>
    ⟨fun r hr => hkept.getRegex_finds hr, fun hthrow => ?_⟩⟩
  rw [Cache.call, Cache.getRegex_throws hthrow]
  exact Cache.makeRoom_eq_iff

/-- A compiler that takes the numbers below thirty-two. -/
def small (p : ℕ) : Option ℕ := if p < 32 then some p else none

/-- The first `n` of them in the cache. -/
def filled (n : ℕ) : Cache ℕ ℕ := ⟨(List.range n).map fun p => ⟨p, p, 1⟩, 32, 0⟩

theorem filled_run (n : ℕ) (hn : n ≤ 32) :
    (calls small).Run ((List.range n).map fun p => .getRegex p 32) (filled n) := by
  induction n with
  | zero => exact .start rfl
  | succ n ih =>
    rw [List.range_succ, List.map_append]
    refine (ih (Nat.le_of_succ_le hn)).snoc ?_
    have hlt : n < 32 := hn
    have hlen : (filled n).entries.length = n := by simp [filled]
    have hroom : (filled n).makeRoom = filled n := by
      rw [Cache.makeRoom_eq_iff, hlen]
      exact hn
    show _ = ((filled n).getRegex small 32 n).1
    rcases (filled n).getRegex_cases small 32 n with
      ⟨k, e, he, hep, -⟩ | ⟨-, hx, -⟩ | ⟨-, x, hx, hget⟩
    · -- the patterns cached so far are smaller
      obtain ⟨p, hp, rfl⟩ := List.mem_map.mp (List.mem_of_getElem? he)
      simp only at hep
      rw [List.mem_range] at hp
      omega
    · rw [small, if_pos hlt] at hx
      cases hx
    · rw [small, if_pos hlt] at hx
      obtain rfl := Option.some.inj hx
      rw [hget, hroom, Cache.emplaceBack, if_pos (by rw [hlen]; exact hlt), filled, filled,
        List.range_succ, List.map_append]
      rfl

theorem calls_keep_books_full :
    (filled 32).entries.length ≤ maxCacheSize ∧
      ((filled 32).entries.map CacheEntry.pattern).Nodup ∧
      (∀ e ∈ (filled 32).entries, small e.pattern = some e.compiled) ∧
      ∀ p grown,
        (∀ r, ((filled 32).getRegex small grown p).2 = some r →
          ∃ e, ((filled 32).getRegex small grown p).1.deref r = some e ∧ e.pattern = p ∧
            small p = some e.compiled) ∧
        (((filled 32).getRegex small grown p).2 = none →
          ((filled 32).call small (.getRegex p grown) = filled 32 ↔
            (filled 32).entries.length < maxCacheSize)) :=
  calls_keep_books small (filled_run 32 (by decide))

/-- With thirty-two patterns cached, asking for one that does not
compile throws one of them out. -/
theorem throwing_call_evicts :
    ∃ (ks : List (Call ℕ)) (c : Cache ℕ ℕ) (p grown : ℕ), (calls small).Run ks c ∧
      (c.getRegex small grown p).2 = none ∧ c.call small (.getRegex p grown) ≠ c := by
  refine ⟨_, filled 32, 32, 32, filled_run 32 (by decide), rfl, fun heq => ?_⟩
  have hlen := congrArg (fun c : Cache ℕ ℕ => c.entries.length) heq
  exact absurd hlen (by decide)

end Calls

/-! ## Every interleaving -/

section System

variable {ι : Type} [DecidableEq ι] [DecidableEq R] {s s' : State ι P R} {e : Event ι P R}

/-- A use finds the regex compiled from its own pattern. -/
def Event.Own (compile : P → Option R) : Event ι P R → Prop
  | .use _ p seen => ∃ e, seen = some e ∧ e.pattern = p ∧ compile p = some e.compiled
  | _ => True

/-- A call of `get_regex` that moves no element a thread still holds a
reference to: its pattern is cached, or what it erases stands behind all
of them and there is room for what it adds. -/
def Keeps (compile : P → Option R) (s : State ι P R) : Event ι P R → Prop
  | .get _ p _ => (∀ e ∈ s.cache.entries, e.pattern ≠ p) → ∀ j q r, s.held j = some (q, r) →
      (maxCacheSize ≤ s.cache.entries.length → r.index < minElement s.cache.entries) ∧
      ((compile p).isSome = true → s.cache.makeRoom.entries.length < s.cache.capacity)
  | _ => True

/-- What holds between two events as long as the calls keep what is
held. -/
structure Inv (compile : P → Option R) (s : State ι P R) : Prop where
  ok : s.cache.Ok compile
  right : ∀ i p r, s.held i = some (p, r) → s.cache.Holds p r

theorem exec_get {i : ι} {grown : Nat} (h : exec compile s (.get i p grown) = some s') :
    s.held i = none ∧ s' = ⟨(s.cache.getRegex compile grown p).1,
      Function.update s.held i ((s.cache.getRegex compile grown p).2.map fun r => (p, r))⟩ := by
  rw [exec] at h
  cases hh : s.held i with
  | some x => rw [hh] at h; cases h
  | none => rw [hh] at h; exact ⟨rfl, (Option.some.inj h).symm⟩

theorem exec_use {i : ι} {seen : Option (CacheEntry P R)}
    (h : exec compile s (.use i p seen) = some s') :
    ∃ r, s.held i = some (p, r) ∧ s.cache.deref r = seen ∧ s' = s := by
  rw [exec] at h
  cases hh : s.held i with
  | none => rw [hh] at h; cases h
  | some x =>
    obtain ⟨q, r⟩ := x
    rw [hh] at h
    simp only at h
    split at h
    · rename_i hseen
      obtain ⟨rfl, rfl⟩ := hseen
      exact ⟨r, rfl, rfl, (Option.some.inj h).symm⟩
    · cases h

theorem exec_finish {i : ι} (h : exec compile s (.finish i) = some s') :
    s' = { s with held := Function.update s.held i none } := by
  rw [exec] at h
  cases hh : s.held i with
  | none => rw [hh] at h; cases h
  | some x => rw [hh] at h; exact (Option.some.inj h).symm

omit [DecidableEq P] [DecidableEq ι] [DecidableEq R] in
/-- An entry that a reference leads to is one of the cache. -/
theorem Cache.mem_of_deref {e : CacheEntry P R} (h : c.deref r = some e) : e ∈ c.entries := by
  rw [deref] at h
  split at h
  · exact List.mem_of_getElem? h
  · cases h

/-- **One event.** -/
theorem Inv.step (hi : Inv compile s) (hk : Keeps compile s e) (h : exec compile s e = some s') :
    Inv compile s' ∧ e.Own compile := by
  cases e with
  | get i p grown =>
    refine ⟨?_, trivial⟩
    obtain ⟨-, rfl⟩ := exec_get h
    -- the others keep what they have, whatever this one gets
    suffices hcall : (s.cache.getRegex compile grown p).1.Ok compile ∧
        (∀ r, (s.cache.getRegex compile grown p).2 = some r →
          (s.cache.getRegex compile grown p).1.Holds p r) ∧
        ∀ j q r, s.held j = some (q, r) → (s.cache.getRegex compile grown p).1.Holds q r by
      obtain ⟨hok, hown, hothers⟩ := hcall
      refine ⟨hok, fun j q r hj => ?_⟩
      simp only at hj
      by_cases hji : j = i
      · subst hji
        rw [Function.update_self, Option.map_eq_some_iff] at hj
        obtain ⟨r', hr', heq⟩ := hj
        obtain ⟨rfl, rfl⟩ := Prod.mk.inj heq
        exact hown r' hr'
      · rw [Function.update_of_ne hji] at hj
        exact hothers j q r hj
    rcases s.cache.getRegex_cases compile grown p with
      ⟨k, e, he, hep, hget⟩ | ⟨hnone, hc, hget⟩ | ⟨hnone, x, hc, hget⟩ <;> rw [hget]
    · have hold : s.cache.Holds p ⟨s.cache.block, k⟩ := Cache.holds_iff.mpr ⟨rfl, e, he, hep⟩
      refine ⟨hi.ok.modify (fun _ => rfl) fun _ => rfl, fun r hr => ?_, fun j q r hj => ?_⟩
      · obtain rfl := Option.some.inj hr
        exact hold.modify fun _ => rfl
      · exact (hi.right j q r hj).modify fun _ => rfl
    · exact ⟨hi.ok.makeRoom, nofun,
        fun j q r hj => (hi.right j q r hj).makeRoom (hk hnone j q r hj).1⟩
    · have hnew : ∀ e ∈ s.cache.makeRoom.entries, e.pattern ≠ p := fun e he =>
        hnone e (s.cache.makeRoom_sublist.subset he)
      refine ⟨hi.ok.makeRoom.emplaceBack hnew hc, fun r hr => ?_, fun j q r hj => ?_⟩
      · obtain rfl := Option.some.inj hr
        exact s.cache.makeRoom.emplaceBack_holds grown ⟨p, x, 1⟩
      · obtain ⟨hidx, hroom⟩ := hk hnone j q r hj
        refine ((hi.right j q r hj).makeRoom hidx).emplaceBack ?_
        rw [s.cache.makeRoom_block.2]
        exact hroom (by simp [hc])
  | use i p seen =>
    obtain ⟨r, hh, rfl, rfl⟩ := exec_use h
    obtain ⟨e, he, rfl⟩ := hi.right i p r hh
    exact ⟨hi, e, he, rfl, hi.ok.compiled e (Cache.mem_of_deref he)⟩
  | finish i =>
    obtain rfl := exec_finish h
    refine ⟨⟨hi.ok, fun j q r hj => ?_⟩, trivial⟩
    simp only at hj
    · by_cases hji : j = i
      · subst hji
        rw [Function.update_self] at hj
        cases hj
      · rw [Function.update_of_ne hji] at hj
        exact hi.right j q r hj

/-- **The condition is exact.** A call that moves an element a thread
still holds leaves the thread with a reference to something else. -/
theorem Inv.breaks (hi : Inv compile s) (hk : ¬ Keeps compile s e)
    (h : exec compile s e = some s') :
    ∃ j q r, s'.held j = some (q, r) ∧ ¬ s'.cache.Holds q r := by
  by_contra hall
  refine hk ?_
  cases e with
  | use i p seen => trivial
  | finish i => trivial
  | get i p grown =>
    obtain ⟨hidle, rfl⟩ := exec_get h
    intro hnone j q r hj
    have hold := hi.right j q r hj
    have hji : j ≠ i := by
      rintro rfl
      rw [hidle] at hj
      cases hj
    have hnew : (s.cache.getRegex compile grown p).1.Holds q r := by
      by_contra hno
      exact hall ⟨j, q, r, by simp only [Function.update_of_ne hji, hj], hno⟩
    have hpq : p ≠ q := by
      obtain ⟨-, e, he, hq⟩ := Cache.holds_iff.mp hold
      exact fun hpq => hnone e (List.mem_of_getElem? he) (hq.trans hpq.symm)
    rcases s.cache.getRegex_cases compile grown p with
      ⟨k, e, he, hep, -⟩ | ⟨-, hc, hget⟩ | ⟨-, x, hc, hget⟩
    · exact absurd hep (hnone e (List.mem_of_getElem? he))
    · rw [hget] at hnew
      exact ⟨hold.of_makeRoom hi.ok hnew, fun hsome => by rw [hc] at hsome; cases hsome⟩
    · rw [hget] at hnew
      have hb : r.block = s.cache.makeRoom.block := by
        rw [s.cache.makeRoom_block.1]
        exact (Cache.holds_iff.mp hold).1
      obtain ⟨hroom, hmade⟩ := hnew.of_emplaceBack hb hpq
      rw [s.cache.makeRoom_block.2] at hroom
      exact ⟨hold.of_makeRoom hi.ok hmade, fun _ => hroom⟩

/-- **Threads find their own regexes as long as the calls keep what is
held**, and the first call that does not leaves one with another. -/
theorem run_uses (compile : P → Option R) {tr : List (Event ι P R)} {s : State ι P R}
    (h : ((system compile).guarded (Keeps compile)).Run tr s) :
    (∀ e ∈ tr, e.Own compile) ∧
      ∀ e s', (system compile).step s e s' → ¬ Keeps compile s e →
        ∃ i p r, s'.held i = some (p, r) ∧ ¬ s'.cache.Holds p r := by
  have hinv : (∀ e ∈ tr, e.Own compile) ∧ Inv compile s := by
    refine Lts.Run.invariant (I := fun tr s => (∀ e ∈ tr, e.Own compile) ∧ Inv compile s)
      (fun s hs => ⟨nofun, ?_⟩) (fun tr s e s' _ hi hstep => ?_) h
    · obtain ⟨hempty, hidle⟩ := hs
      refine ⟨⟨by rw [hempty]; exact List.nodup_nil, fun e he => ?_⟩, fun i p r hr => ?_⟩
      · rw [hempty] at he
        cases he
      · rw [hidle i] at hr
        cases hr
    · obtain ⟨hinv, hown⟩ := hi.2.step hstep.1 hstep.2
      refine ⟨fun e' he' => ?_, hinv⟩
      rcases List.mem_append.mp he' with he' | he'
      · exact hi.1 e' he'
      · rw [List.mem_singleton.mp he']
        exact hown
  exact ⟨hinv.1, fun e s' hstep hk => hinv.2.breaks hk hstep⟩

/-- Three threads at two patterns: the second is put beside the first
while that one is held, the third call finds its pattern. -/
def beside : List (Event ℕ ℕ ℕ) :=
  [.get 0 7 4, .get 1 8 4, .use 0 7 (some ⟨7, 7, 1⟩), .get 2 7 4, .use 1 8 (some ⟨8, 8, 1⟩),
    .use 2 7 (some ⟨7, 7, 2⟩)]

/-- Two references held, to the two elements of a block with room for
four. -/
def bothHeld : State ℕ ℕ ℕ :=
  ⟨⟨[⟨7, 7, 1⟩, ⟨8, 8, 1⟩], 4, 1⟩,
    Function.update (Function.update (fun _ => none) 0 (some (7, ⟨1, 0⟩))) 1 (some (8, ⟨1, 1⟩))⟩

/-- And a third, to the first of them again. -/
def allHeld : State ℕ ℕ ℕ :=
  ⟨⟨[⟨7, 7, 2⟩, ⟨8, 8, 1⟩], 4, 1⟩, Function.update bothHeld.held 2 (some (7, ⟨1, 0⟩))⟩

theorem run_uses_beside :
    (∀ e ∈ beside, e.Own some) ∧
      ∀ e s', (system some).step allHeld e s' → ¬ Keeps some allHeld e →
        ∃ i p r, s'.held i = some (p, r) ∧ ¬ s'.cache.Holds p r := by
  have hempty : ((system some).guarded (Keeps some)).Run [] (⟨⟨[], 0, 0⟩, fun _ => none⟩ :
      State ℕ ℕ ℕ) := .start ⟨rfl, fun _ => rfl⟩
  have hfirst : ((system some).guarded (Keeps some)).Run [.get 0 7 4] (⟨⟨[⟨7, 7, 1⟩], 4, 1⟩,
      Function.update (fun _ => none) 0 (some (7, ⟨1, 0⟩))⟩ : State ℕ ℕ ℕ) :=
    hempty.snocGuarded rfl fun _ _ _ _ h => by cases h
  -- one element of four: nothing is erased, and there is room
  have hsecond : ((system some).guarded (Keeps some)).Run (beside.take 2) bothHeld :=
    hfirst.snocGuarded rfl fun _ _ _ _ _ =>
      ⟨fun hfull => absurd hfull (by decide), fun _ => by decide⟩
  have hused : ((system some).guarded (Keeps some)).Run (beside.take 3) bothHeld :=
    hsecond.snocGuarded rfl trivial
  have hhit : ((system some).guarded (Keeps some)).Run (beside.take 4) allHeld :=
    hused.snocGuarded rfl fun hnone => absurd rfl (hnone ⟨7, 7, 1⟩ (by simp [bothHeld]))
  have hother : ((system some).guarded (Keeps some)).Run (beside.take 5) allHeld :=
    hhit.snocGuarded rfl trivial
  exact run_uses some (hother.snocGuarded rfl trivial)

/-- Events carried out one after the other are a run. -/
theorem run_of_exec {s₀ : State ι P R} (h₀ : (system compile).init s₀) (tr : List (Event ι P R)) :
    ∀ s, tr.foldlM (exec compile) s₀ = some s → (system compile).Run tr s := by
  induction tr using List.reverseRecOn with
  | nil =>
    intro s hs
    obtain rfl := Option.some.inj hs
    exact .start h₀
  | append_singleton tr e ih =>
    intro s hs
    rw [List.foldlM_append] at hs
    obtain ⟨s₁, hs₁, hlast⟩ := Option.bind_eq_some_iff.mp hs
    rw [List.foldlM_cons] at hlast
    obtain ⟨s₂, hs₂, heq⟩ := Option.bind_eq_some_iff.mp hlast
    obtain rfl := Option.some.inj heq
    exact (ih s₁ hs₁).snoc hs₂

/-- Thirty-two patterns fill the cache. One thread gets the second of
them again, another one a new pattern, which throws the first out. -/
def crowded : List (Event ℕ ℕ ℕ) :=
  (List.range 32).flatMap (fun p => [.get 0 p 32, .finish 0]) ++
    [.get 0 1 32, .get 1 32 32, .use 0 1 (some ⟨2, 2, 1⟩)]

/-- The first thread then matches against the regex of the third
pattern. -/
theorem crowded_uses_another :
    ∃ s, (system some).Run crowded s ∧ ∃ e ∈ crowded, ¬ Event.Own some e := by
  have hrun : (crowded.foldlM (exec some) ⟨⟨[], 0, 0⟩, fun _ => none⟩).isSome = true := by
    decide +kernel
  obtain ⟨s, hs⟩ := Option.isSome_iff_exists.mp hrun
  refine ⟨s, run_of_exec ⟨rfl, fun _ => rfl⟩ _ s hs, .use 0 1 (some ⟨2, 2, 1⟩), ?_, ?_⟩
  · exact List.mem_append.mpr (.inr (by simp))
  · rintro ⟨e, he, hp, -⟩
    obtain rfl := Option.some.inj he
    exact absurd hp (by decide)

end System

end HighJump.Util.RegexCache
