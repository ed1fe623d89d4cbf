/-
HighJump.Lib.Handles — libraries that give out handles, and things made
on a handle that must not outlive it.

The calls of such a library follow a protocol: a handle is opened, used
and closed, and so is each of its children, while the handle is open. The
protocol is a transition system over what is open (`api`), so that a log
of calls that keeps it is a run. `Keeps` says of a program that its log is
one, that it has no child open, and that what is open is what its owners
hold, each handle by one of them; its lemmas say what the program may do
to go on keeping it. `Session` is what may be done with an open handle
without a trace.
-/
import HighJump.Lib.Lts
import HighJump.Lib.Ownership

namespace HighJump.Lib.Handles

universe u

/-- A handle, or a child, is given by its number. -/
inductive Call where
  | openHandle (h : Nat)
  | useHandle (h : Nat)
  | closeHandle (h : Nat)
  | openChild (h c : Nat)
  | useChild (c : Nat)
  | closeChild (c : Nat)
  deriving DecidableEq, Repr

/-- What is open: the handles, and the handle of each child. -/
structure Live where
  handle : Nat → Bool
  parent : Nat → Option Nat

inductive Allowed : Live → Call → Live → Prop where
  | openHandle {l : Live} {h : Nat} : l.handle h = false →
      Allowed l (.openHandle h) { l with handle := Function.update l.handle h true }
  | useHandle {l : Live} {h : Nat} : l.handle h = true → Allowed l (.useHandle h) l
  | closeHandle {l : Live} {h : Nat} : l.handle h = true → (∀ c, l.parent c ≠ some h) →
      Allowed l (.closeHandle h) { l with handle := Function.update l.handle h false }
  | openChild {l : Live} {h c : Nat} : l.handle h = true → l.parent c = none →
      Allowed l (.openChild h c) { l with parent := Function.update l.parent c (some h) }
  | useChild {l : Live} {c : Nat} : l.parent c ≠ none → Allowed l (.useChild c) l
  | closeChild {l : Live} {c : Nat} : l.parent c ≠ none →
      Allowed l (.closeChild c) { l with parent := Function.update l.parent c none }

/-- The protocol. Nothing is open at first. -/
def api : Lts Live Call where
  init l := l = { handle := fun _ => false, parent := fun _ => none }
  step := Allowed

/-! ## What a log that keeps it says -/

theorem count_snoc (log : List Call) (a b : Call) :
    (log ++ [a]).count b = log.count b + if a = b then 1 else 0 := by
  rw [List.count_append]
  by_cases h : a = b <;> simp [h]

/-- A handle is closed once for each time that it is opened, but for the
last time if it is still open. -/
theorem count_open_close {log : List Call} {l : Live} (h : api.Run log l) (x : Nat) :
    log.count (.openHandle x) = log.count (.closeHandle x) + if l.handle x then 1 else 0 := by
  induction h with
  | start hi =>
    obtain rfl := hi
    simp
  | @snoc tr l l' a _ hs ih =>
    rw [count_snoc, count_snoc, ih]
    cases hs with
    | @openHandle y hclosed =>
      by_cases hx : x = y
      · simp [hx, hclosed]
      · simp [hx, Ne.symm hx]
    | @closeHandle y hopen hnone =>
      by_cases hx : x = y
      · simp [hx, hopen]
      · simp [hx, Ne.symm hx]
    | useHandle hopen => simp
    | openChild hopen hnone => simp
    | useChild hsome => simp
    | closeChild hsome => simp

/-- The call opens the child `c`. -/
def Call.opens (c : Nat) : Call → Bool
  | .openChild _ d => d = c
  | _ => false

/-- The same of the children. -/
theorem count_open_close_child {log : List Call} {l : Live} (h : api.Run log l) (c : Nat) :
    log.countP (·.opens c)
      = log.count (.closeChild c) + if (l.parent c).isSome then 1 else 0 := by
  induction h with
  | start hi =>
    obtain rfl := hi
    simp
  | @snoc tr l l' a _ hs ih =>
    rw [count_snoc, List.countP_append, ih]
    cases hs with
    | @openChild y d hopen hnone =>
      by_cases hd : c = d
      · simp [hd, hnone, Call.opens]
      · simp [hd, Ne.symm hd, Call.opens]
    | @closeChild d hsome =>
      by_cases hd : c = d
      · simp [hd, Option.isSome_iff_ne_none.2 hsome, Call.opens]
      · simp [hd, Ne.symm hd, Call.opens]
    | openHandle hclosed => simp [Call.opens]
    | closeHandle hopen hnone => simp [Call.opens]
    | useHandle hopen => simp [Call.opens]
    | useChild hsome => simp [Call.opens]

/-! ## Sessions -/

/-- Calls that use a handle, and open, use and close children of it one
after the other. -/
inductive Session (h : Nat) : List Call → Prop where
  | nil : Session h []
  | use {seg : List Call} : Session h seg → Session h (seg ++ [.useHandle h])
  | child {seg body : List Call} {c : Nat} : Session h seg →
      (∀ x ∈ body, x = .useChild c ∨ x = .useHandle h) →
      Session h (seg ++ (.openChild h c :: body ++ [.closeChild c]))

variable {log seg : List Call} {l : Live} {h : Nat}

theorem run_body {c : Nat} {body : List Call} (hrun : api.Run log l) (hopen : l.handle h = true)
    (hc : l.parent c ≠ none) (hbody : ∀ x ∈ body, x = .useChild c ∨ x = .useHandle h) :
    api.Run (log ++ body) l := by
  induction body generalizing log with
  | nil => simpa using hrun
  | cons x body ih =>
    have hx : api.Run (log ++ [x]) l := by
      rcases hbody x (by simp) with rfl | rfl
      · exact hrun.snoc (.useChild hc)
      · exact hrun.snoc (.useHandle hopen)
    simpa using ih hx fun y hy => hbody y (by simp [hy])

/-- A session leaves open what was open. -/
theorem Session.run (hseg : Session h seg) (hrun : api.Run log l) (hopen : l.handle h = true)
    (hnone : ∀ c, l.parent c = none) : api.Run (log ++ seg) l := by
  induction hseg with
  | nil => simpa using hrun
  | use _ ih => simpa using ih.snoc (.useHandle hopen)
  | @child seg body c _ hbody ih =>
    have hstart := ih.snoc (.openChild (c := c) hopen (hnone c))
    have hmid := run_body hstart (by exact hopen) (by simp) hbody
    have hend := hmid.snoc (.closeChild (c := c) (by simp))
    have hback : Function.update (Function.update l.parent c (some h)) c none = l.parent := by
      rw [Function.update_idem, ← hnone c, Function.update_eq_self]
    simpa [hback] using hend

theorem Session.append {seg' : List Call} (hseg : Session h seg) (hseg' : Session h seg') :
    Session h (seg ++ seg') := by
  induction hseg' with
  | nil => simpa using hseg
  | use _ ih => simpa using ih.use
  | child _ hbody ih => simpa using ih.child hbody

/-- It opens no handle. -/
theorem Session.count_open (hseg : Session h seg) (x : Nat) : seg.count (.openHandle x) = 0 := by
  induction hseg with
  | nil => rfl
  | use _ ih => simp [ih]
  | child _ hbody ih =>
    rw [List.count_append, ih, Nat.zero_add, List.count_eq_zero]
    intro hmem
    simp only [List.cons_append, List.mem_cons, List.mem_append, reduceCtorEq, false_or,
      List.not_mem_nil, or_false] at hmem
    rcases hbody _ hmem with hx | hx <;> cases hx

/-! ## Owners -/

variable {κ : Type u} [DecidableEq κ]

/-- The program's log keeps the protocol, and what is open is what its
owners hold. `next` is the number of the next handle. -/
structure Keeps (log : List Call) (owner : κ → Option Nat) (next : Nat) : Prop where
  run : ∃ l, api.Run log l ∧ (∀ c, l.parent c = none) ∧
    ∀ h, l.handle h = true ↔ ∃ k, owner k = some h
  inj : ∀ k k' h, owner k = some h → owner k' = some h → k = k'
  opened : ∀ h, log.count (.openHandle h) = if h < next then 1 else 0

variable {owner : κ → Option Nat} {next : Nat} {k : κ}

omit [DecidableEq κ] in
theorem Keeps.start : Keeps [] (fun _ : κ => none) 0 where
  run := ⟨_, .start rfl, by simp, by simp⟩
  inj := by simp
  opened := by simp

omit [DecidableEq κ] in
/-- What is held has been opened. -/
theorem Keeps.below (hk : Keeps log owner next) (howner : owner k = some h) : h < next := by
  obtain ⟨l, hrun, -, hlive⟩ := hk.run
  have hcount := count_open_close hrun h
  rw [if_pos ((hlive h).2 ⟨k, howner⟩), hk.opened h] at hcount
  by_contra hge
  rw [if_neg hge] at hcount
  omega

omit [DecidableEq κ] in
/-- What was opened is held or was closed, and that once. -/
theorem Keeps.closed_iff (hk : Keeps log owner next) (hh : h < next) :
    log.count (.closeHandle h) = 0 ∧ (∃ k, owner k = some h) ∨
      log.count (.closeHandle h) = 1 ∧ ¬ ∃ k, owner k = some h := by
  obtain ⟨l, hrun, -, hlive⟩ := hk.run
  have hcount := count_open_close hrun h
  rw [hk.opened h, if_pos hh] at hcount
  by_cases hopen : l.handle h = true
  · rw [if_pos hopen] at hcount
    exact .inl ⟨by omega, (hlive h).1 hopen⟩
  · rw [if_neg hopen] at hcount
    exact .inr ⟨by omega, fun hheld => hopen ((hlive h).2 hheld)⟩

omit [DecidableEq κ] in
/-- Every child has been closed. -/
theorem Keeps.children (hk : Keeps log owner next) (c : Nat) :
    log.countP (·.opens c) = log.count (.closeChild c) := by
  obtain ⟨l, hrun, hnone, -⟩ := hk.run
  simpa [hnone c] using count_open_close_child hrun c

omit [DecidableEq κ] in
/-- The owner of a handle may use it. -/
theorem Keeps.session (hk : Keeps log owner next) (howner : owner k = some h)
    (hseg : Session h seg) : Keeps (log ++ seg) owner next where
  run := by
    obtain ⟨l, hrun, hnone, hlive⟩ := hk.run
    exact ⟨l, hseg.run hrun ((hlive h).2 ⟨k, howner⟩) hnone, hnone, hlive⟩
  inj := hk.inj
  opened x := by rw [List.count_append, hseg.count_open x, Nat.add_zero, hk.opened x]

/-- Or close it. -/
theorem Keeps.close (hk : Keeps log owner next) (howner : owner k = some h) :
    Keeps (log ++ [.closeHandle h]) (Function.update owner k none) next where
  run := by
    obtain ⟨l, hrun, hnone, hlive⟩ := hk.run
    refine ⟨_, hrun.snoc (.closeHandle ((hlive h).2 ⟨k, howner⟩) (by simp [hnone])), hnone, ?_⟩
    intro x
    by_cases hx : x = h
    · subst hx
      simp only [Function.update_self, Bool.false_eq_true, false_iff, not_exists]
      intro j hj
      by_cases hjk : j = k
      · simp [hjk] at hj
      · rw [Function.update_of_ne hjk] at hj
        exact hjk (hk.inj j k x hj howner)
    · simp only [Function.update_of_ne hx, hlive x]
      constructor
      · rintro ⟨j, hj⟩
        have hjk : j ≠ k := by
          rintro rfl
          rw [howner, Option.some.injEq] at hj
          exact hx hj.symm
        exact ⟨j, by rwa [Function.update_of_ne hjk]⟩
      · rintro ⟨j, hj⟩
        by_cases hjk : j = k
        · simp [hjk] at hj
        · exact ⟨j, by rwa [Function.update_of_ne hjk] at hj⟩
  inj i j x hi hj := by
    obtain ⟨-, hnone⟩ | ⟨-, hi'⟩ := update_cases hi
    · cases hnone
    obtain ⟨-, hnone⟩ | ⟨-, hj'⟩ := update_cases hj
    · cases hnone
    exact hk.inj i j x hi' hj'
  opened x := by simp [hk.opened x]

/-- A new handle goes to an owner who had none. -/
theorem Keeps.open (hk : Keeps log owner next) (hnew : owner k = none) :
    Keeps (log ++ [.openHandle next]) (Function.update owner k (some next)) (next + 1) where
  run := by
    obtain ⟨l, hrun, hnone, hlive⟩ := hk.run
    have hfresh : l.handle next = false := by
      rw [← Bool.not_eq_true, hlive]
      rintro ⟨j, hj⟩
      exact Nat.lt_irrefl _ (hk.below hj)
    refine ⟨_, hrun.snoc (.openHandle hfresh), hnone, ?_⟩
    intro x
    by_cases hx : x = next
    · subst hx
      simpa using ⟨k, Function.update_self ..⟩
    · simp only [Function.update_of_ne hx, hlive x]
      constructor
      · rintro ⟨j, hj⟩
        have hjk : j ≠ k := by
          rintro rfl
          simp [hnew] at hj
        exact ⟨j, by rwa [Function.update_of_ne hjk]⟩
      · rintro ⟨j, hj⟩
        by_cases hjk : j = k
        · subst hjk
          simp [Ne.symm hx] at hj
        · exact ⟨j, by rwa [Function.update_of_ne hjk] at hj⟩
  inj i j x hi hj := by
    obtain ⟨hik, hx⟩ | ⟨-, hi'⟩ := update_cases hi
    · obtain ⟨hjk, -⟩ | ⟨-, hj'⟩ := update_cases hj
      · rw [hik, hjk]
      · cases hx
        exact absurd (hk.below hj') (Nat.lt_irrefl next)
    · obtain ⟨-, hx⟩ | ⟨-, hj'⟩ := update_cases hj
      · cases hx
        exact absurd (hk.below hi') (Nat.lt_irrefl next)
      · exact hk.inj i j x hi' hj'
  opened x := by
    rw [count_snoc, hk.opened x]
    rcases Nat.lt_trichotomy x next with hx | rfl | hx
    · simp [hx, Nat.lt_succ_of_lt hx, Nat.ne_of_gt hx]
    · simp
    · simp [Nat.not_lt_of_gt hx, Nat.ne_of_lt hx, Nat.not_lt.2 hx]

omit [DecidableEq κ] in
/-- Handles change hands. -/
theorem Keeps.perm (hk : Keeps log owner next) {owner' : κ → Option Nat}
    (hsame : ∀ h, (∃ j, owner' j = some h) ↔ ∃ j, owner j = some h)
    (hinj : ∀ i j x, owner' i = some x → owner' j = some x → i = j) : Keeps log owner' next where
  run := by
    obtain ⟨l, hrun, hnone, hlive⟩ := hk.run
    exact ⟨l, hrun, hnone, fun h => (hlive h).trans (hsame h).symm⟩
  inj := hinj
  opened := hk.opened

/-- A handle moves from one owner to another, who had none. -/
theorem Keeps.move (hk : Keeps log owner next) {src : κ} (hnew : owner k = none) (hne : k ≠ src) :
    Keeps log (Function.update (Function.update owner src none) k (owner src)) next := by
  apply hk.perm
  · intro x
    constructor
    · rintro ⟨j, hj⟩
      obtain ⟨-, hsrc⟩ | ⟨-, hold⟩ := moved_cases hj
      · exact ⟨src, hsrc⟩
      · exact ⟨j, hold⟩
    · rintro ⟨j, hj⟩
      by_cases hjs : j = src
      · exact ⟨k, by rw [Function.update_self, ← hjs, hj]⟩
      · have hjk : j ≠ k := by
          rintro rfl
          simp [hnew] at hj
        exact ⟨j, by rwa [Function.update_of_ne hjk, Function.update_of_ne hjs]⟩
  · intro i j x hi hj
    -- whoever else holds what moved is the one it moved from
    have hkept : ∀ j, j ≠ k →
        Function.update (Function.update owner src none) k (owner src) j = some x →
          j ≠ src ∧ owner j = some x := by
      intro j hjk hj
      rw [Function.update_of_ne hjk] at hj
      obtain ⟨-, hnone⟩ | ⟨hjs, hold⟩ := update_cases hj
      · cases hnone
      · exact ⟨hjs, hold⟩
    by_cases hik : i = k
    · subst hik
      rw [Function.update_self] at hi
      by_contra hij
      obtain ⟨hjs, hold⟩ := hkept j (Ne.symm hij) hj
      exact hjs (hk.inj j src x hold hi)
    · obtain ⟨his, hi'⟩ := hkept i hik hi
      by_cases hjk : j = k
      · subst hjk
        rw [Function.update_self] at hj
        exact absurd (hk.inj i src x hi' hj) his
      · exact hk.inj i j x hi' (hkept j hjk hj).2

end HighJump.Lib.Handles
