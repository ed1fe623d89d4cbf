/-
HighJump.Lib.Deferral — state machines that may put an event off.

A machine has one current state and a table that says of each event in
each state whether it is taken (with an action and a state to go to), put
off, or dropped. Events put off wait in a queue, in the order they came;
behind a change of state the queue is gone through again from its front,
and again from its front behind every change this makes. An action may
throw, and then nothing behind it happens.

The queue loses at least one event with every round, so its length bounds
the rounds (`replay`). `replay_waiting`, `replay_dropped` and
`replay_front` say what comes of a queue whose events are all put off
again, all dropped, or taken at the front.
-/
import Mathlib.Data.List.Basic

namespace HighJump.Lib

universe u v w

/-- What a table says of an event. -/
inductive Reaction (S : Type u) (A : Type v) where
  | take (action : A) (dst : S)
  | defer
  | drop

/-- `throws` are the actions that do not come back. -/
structure Table (S : Type u) (E : Type v) (A : Type w) where
  react : S → E → Reaction S A
  throws : A → Bool

/-- A machine in the middle of its life; `log` are the actions begun, and
`threw` says that the last of them did not come back. -/
structure Machine (S : Type u) (E : Type v) (A : Type w) where
  state : S
  deferred : List E
  log : List A
  threw : Bool

namespace Machine

variable {S : Type u} {E : Type v} {A : Type w} (t : Table S E A)

/-- A transition is taken: the action, and the new state. A machine that
changes its state before it runs the action cannot be told from this one:
no action looks at the state, and behind one that throws nothing
happens. -/
def take (m : Machine S E A) (a : A) (dst : S) : Machine S E A :=
  if t.throws a then { m with log := m.log ++ [a], threw := true }
  else { m with log := m.log ++ [a], state := dst }

/-- The first event that is not put off again, and the others. -/
def pick (s : S) : List E → Option (E × List E)
  | [] => none
  | e :: q =>
      match t.react s e with
      | .defer => (pick s q).map fun (e', rest) => (e', e :: rest)
      | _ => some (e, q)

/-- The queue is gone through again. -/
def replay : Nat → Machine S E A → Machine S E A
  | 0, m => m
  | n + 1, m =>
      if m.threw then m
      else
        match pick t m.state m.deferred with
        | none => m
        | some (e, rest) =>
            match t.react m.state e with
            | .take a dst => replay n ({ m with deferred := rest }.take t a dst)
            | _ => replay n { m with deferred := rest }

/-- `process_event` -/
def processEvent [DecidableEq S] (m : Machine S E A) (e : E) : Machine S E A :=
  match t.react m.state e with
  | .drop => m
  | .defer => { m with deferred := m.deferred ++ [e] }
  | .take a dst =>
      if dst = m.state then m.take t a dst
      else replay t m.deferred.length (m.take t a dst)

variable {t}

theorem take_threw {m : Machine S E A} {a : A} {dst : S} (h : t.throws a = true) :
    m.take t a dst = { m with log := m.log ++ [a], threw := true } := by
  rw [take, if_pos h]

theorem take_done {m : Machine S E A} {a : A} {dst : S} (h : t.throws a = false) :
    m.take t a dst = { m with log := m.log ++ [a], state := dst } := by
  rw [take, if_neg (by rw [h]; exact Bool.false_ne_true)]

theorem replay_threw {m : Machine S E A} (h : m.threw = true) : ∀ n, replay t n m = m
  | 0 => rfl
  | n + 1 => by rw [replay, if_pos h]

theorem pick_waiting {s : S} {q : List E} (h : ∀ e ∈ q, t.react s e = .defer) :
    pick t s q = none := by
  induction q with
  | nil => rfl
  | cons e q ih =>
      rw [pick, h e (List.mem_cons_self ..), ih fun e' he' => h e' (List.mem_cons_of_mem e he')]
      rfl

/-- Events that are all put off again stay as they are. -/
theorem replay_waiting {m : Machine S E A} (h : ∀ e ∈ m.deferred, t.react m.state e = .defer) :
    ∀ n, replay t n m = m
  | 0 => rfl
  | n + 1 => by
      rw [replay, pick_waiting h]
      split <;> rfl

/-- Events that are all dropped are gone. -/
theorem replay_dropped (n : Nat) {m : Machine S E A} (hm : m.threw = false)
    (h : ∀ e ∈ m.deferred, t.react m.state e = .drop) (hn : m.deferred.length ≤ n) :
    replay t n m = { m with deferred := [] } := by
  induction n generalizing m with
  | zero =>
      obtain ⟨s, q, log, threw⟩ := m
      obtain rfl : q = [] := List.length_eq_zero_iff.mp (Nat.le_zero.mp hn)
      rfl
  | succ n ih =>
      obtain ⟨s, q, log, threw⟩ := m
      obtain rfl : threw = false := hm
      cases q with
      | nil => rfl
      | cons e q =>
          have he : t.react s e = .drop := h e (List.mem_cons_self ..)
          rw [replay, if_neg Bool.false_ne_true]
          simp only [pick, he]
          exact ih rfl (fun e' he' => h e' (List.mem_cons_of_mem e he'))
            (Nat.le_of_succ_le_succ hn)

/-- The event at the front is taken. -/
theorem replay_front {n : Nat} {s : S} {e : E} {q : List E} {log : List A} {a : A} {dst : S}
    (h : t.react s e = .take a dst) :
    replay t (n + 1) ⟨s, e :: q, log, false⟩ =
      replay t n ((⟨s, q, log, false⟩ : Machine S E A).take t a dst) := by
  rw [replay, if_neg Bool.false_ne_true]
  simp only [pick, h]

end Machine

end HighJump.Lib
